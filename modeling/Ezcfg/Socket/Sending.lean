import Mathlib.Data.List.Basic

/-!
# Writing to a socket

`ezcfg_socket_write` offers what is left of the buffer until all of it is accepted. Each call of
the system takes bytes from the front of what is offered, or it fails with a positive error
number; an interrupted call is made again. A message about another error is printed before its
number is returned, and the number may have changed then, but it is still an error number. A
schedule says how the calls end. A count in it is the most that a call takes, since no call takes
more than it is offered.
-/

namespace Ezcfg.Socket

/-- The domains of sockets. -/
inductive Domain where
  | afLocal
  | afInet
  | afInet6
  | afNetlink
deriving DecidableEq, Repr

/-- The types of sockets. -/
inductive SocketType where
  | sockStream
  | sockDgram
  | sockRaw
deriving DecidableEq, Repr

/-- The call that writes. -/
inductive Call where
  | write
  | sendto
deriving DecidableEq, Repr

/-- An error number is positive. -/
structure ErrorNumber where
  value : Int
  positive : 0 < value
deriving DecidableEq

/-- `EPIPE` -/
def brokenPipe : ErrorNumber := ⟨32, by decide⟩

/-- `EINTR` -/
def interrupted : ErrorNumber := ⟨4, by decide⟩

/-- `EAGAIN` -/
def tryAgain : ErrorNumber := ⟨11, by decide⟩

/-- How a call ends: it takes some of the bytes, or it fails with an error number, which is
another one behind the message that is printed. -/
inductive Outcome where
  | accepted (count : Nat)
  | failed (errno later : ErrorNumber)

/-- The bytes that a call has taken. -/
structure Sent where
  call : Call
  piece : List UInt8

/-- Datagrams to internet addresses are sent with the address. -/
def callOf (domain : Domain) (type : SocketType) : Call :=
  if domain = .afInet ∧ type = .sockDgram then .sendto
  else if domain = .afInet6 ∧ type = .sockDgram then .sendto
  else .write

/-- The loop of `ezcfg_socket_write`: the value that is returned, if the schedule goes so far, and
what has been sent. -/
def writeLoop (call : Call) (buf : List UInt8) : Nat → List Outcome → Option Int × List Sent
  | status, [] => (if status = buf.length then some (status : Int) else none, [])
  | status, outcome :: rest =>
    if status = buf.length then (some status, [])
    else match outcome with
      | .failed errno later =>
        if errno = brokenPipe then (some (-brokenPipe.value), [])
        else if errno = interrupted ∨ errno = tryAgain then writeLoop call buf status rest
        else (some (-later.value), [])
      | .accepted count =>
        let piece := (buf.drop status).take count
        let (ret, sent) := writeLoop call buf (status + piece.length) rest
        (ret, ⟨call, piece⟩ :: sent)

/-- `ezcfg_socket_write` on a buffer of `len` bytes -/
def ezcfgSocketWrite (domain : Domain) (type : SocketType) (buf : List UInt8)
    (schedule : List Outcome) : Option Int × List Sent :=
  writeLoop (callOf domain type) buf 0 schedule

/-- The bytes that have been sent, in order. -/
def sentBytes (sent : List Sent) : List UInt8 := sent.flatMap Sent.piece

/-- From a place in the buffer on, what is sent is in front of what is left, and it is all of
this where the value is no negative one. -/
def Sends (buf : List UInt8) (status : Nat) (outcome : Option Int × List Sent) : Prop :=
  sentBytes outcome.2 <+: buf.drop status ∧
    ∀ ret, outcome.1 = some ret → 0 ≤ ret → ret = buf.length ∧ sentBytes outcome.2 = buf.drop status

/-- Behind the whole buffer there is nothing to send. -/
theorem sends_ended (buf : List UInt8) : Sends buf buf.length (some buf.length, []) := by
  refine ⟨List.nil_prefix, ?_⟩
  intro ret same _
  constructor
  · exact (Option.some.inj same).symm
  · rw [List.drop_length]
    rfl

/-- An error is returned as a negative value. -/
theorem sends_failed (buf : List UInt8) (status : Nat) (errno : ErrorNumber) :
    Sends buf status (some (-errno.value), []) := by
  refine ⟨List.nil_prefix, ?_⟩
  intro ret same nonnegative
  have negative := errno.positive
  have value := Option.some.inj same
  omega

/-- A piece from the front is sent, and then what is left. -/
theorem sends_cons (call : Call) {buf : List UInt8} {status : Nat} (count : Nat)
    {outcome : Option Int × List Sent}
    (later : Sends buf (status + ((buf.drop status).take count).length) outcome) :
    Sends buf status (outcome.1, ⟨call, (buf.drop status).take count⟩ :: outcome.2) := by
  have cut : (buf.drop status).take count ++
      buf.drop (status + ((buf.drop status).take count).length) = buf.drop status := by
    rw [← List.drop_drop, List.length_take]
    rcases Nat.le_total count (buf.drop status).length with short | long
    · rw [Nat.min_eq_left short]
      exact List.take_append_drop count _
    · rw [Nat.min_eq_right long, List.drop_length, List.append_nil]
      exact List.take_of_length_le long
  have bytes : sentBytes (⟨call, (buf.drop status).take count⟩ :: outcome.2) =
      (buf.drop status).take count ++ sentBytes outcome.2 := rfl
  obtain ⟨front, complete⟩ := later
  constructor
  · have extended := (List.prefix_append_right_inj ((buf.drop status).take count)).mpr front
    rw [cut] at extended
    exact extended
  · intro ret same nonnegative
    obtain ⟨length, all⟩ := complete ret same nonnegative
    rw [bytes, all]
    exact ⟨length, cut⟩

/-- The loop sends what is left of the buffer. -/
theorem writeLoop_sends (call : Call) (buf : List UInt8) (schedule : List Outcome) (status : Nat)
    (within : status ≤ buf.length) : Sends buf status (writeLoop call buf status schedule) := by
  induction schedule generalizing status with
  | nil =>
    rw [writeLoop]
    by_cases done : status = buf.length
    · rw [if_pos done, done]
      exact sends_ended buf
    · rw [if_neg done]
      refine ⟨List.nil_prefix, ?_⟩
      intro ret none
      cases none
  | cons outcome rest inductionHypothesis =>
    rw [writeLoop.eq_def]
    dsimp only
    by_cases done : status = buf.length
    · rw [if_pos done, done]
      exact sends_ended buf
    rw [if_neg done]
    cases outcome with
    | failed errno later =>
      dsimp only
      by_cases broken : errno = brokenPipe
      · rw [if_pos broken]
        exact sends_failed buf status brokenPipe
      rw [if_neg broken]
      by_cases again : errno = interrupted ∨ errno = tryAgain
      · rw [if_pos again]
        exact inductionHypothesis status within
      · rw [if_neg again]
        exact sends_failed buf status later
    | accepted count =>
      dsimp only
      apply sends_cons
      apply inductionHypothesis
      rw [List.length_take, List.length_drop]
      omega

/-- Everything is sent once and in order where the call returns no error, and a part from the
front where it returns one. -/
theorem write_complete (domain : Domain) (type : SocketType) (buf : List UInt8)
    (schedule : List Outcome) :
    let (ret, sent) := ezcfgSocketWrite domain type buf schedule
    sentBytes sent <+: buf ∧
      ∀ value, ret = some value → 0 ≤ value → value = buf.length ∧ sentBytes sent = buf := by
  have sends := writeLoop_sends (callOf domain type) buf schedule 0 (Nat.zero_le _)
  rw [Sends, List.drop_zero] at sends
  exact sends

end Ezcfg.Socket

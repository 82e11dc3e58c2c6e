import Ezcfg.Agent.Master
import Ezcfg.Foundation.RingBuffer

/-!
# The queue of accepted sockets

The counters and the array represent a queue. Putting a socket appends it, taking one
removes the first, and wrapping the counters leaves the queue where it is: both counters
lose the same multiple of the length of the array. So the sockets that were given to workers,
followed by the queue, are the sockets that were put into it, in every order of steps.
-/

namespace Ezcfg.Agent

open Foundation RingBuffer

variable {Socket : Type}

/-- The master has a queue in its array. -/
structure Represents (master : Master Socket) (tail : Nat) (queued : List Socket) : Prop where
  sqLen : master.sqLen = master.queue.length
  sqTail : master.sqTail = tail
  sqHead : master.sqHead = tail + queued.length
  holds : Holds master.queue tail queued

namespace Master

/-- The master with another socket in the queue. -/
def stored (master : Master Socket) (sp : Socket) : Master Socket :=
  { master with
    queue := master.queue.set (master.sqHead.tmod master.sqLen).toNat sp
    sqHead := master.sqHead + 1 }

/-- The master with other counters, and with one worker less that is idle. -/
def taken (master : Master Socket) (sqTail sqHead : Int) : Master Socket :=
  { master with numIdle := master.numIdle - 1, sqTail, sqHead }

end Master

section Queue

variable {master : Master Socket} {tail : Nat} {queued : List Socket}

/-- The master thread waits when the queue fills the array. -/
theorem Represents.full_iff (represents : Represents master tail queued) :
    master.Full ↔ master.queue.length ≤ queued.length := by
  rw [Master.Full, represents.sqHead, represents.sqTail, represents.sqLen]
  omega

/-- A worker waits when the queue is empty. -/
theorem Represents.empty_iff (represents : Represents master tail queued) :
    master.Empty ↔ queued = [] := by
  rw [Master.Empty, represents.sqHead, represents.sqTail, ← List.length_eq_zero_iff]
  omega

/-- The cell of a counter. -/
theorem cell_of_counter (count length : Nat) :
    ((count : Int).tmod length).toNat = count % length := by
  rw [Int.tmod_eq_emod_of_nonneg (Int.natCast_nonneg count), ← Int.natCast_mod, Int.toNat_natCast]

/-- Storing a socket appends it. -/
theorem Represents.stored (represents : Represents master tail queued)
    (room : queued.length < master.queue.length) (sp : Socket) :
    Represents (master.stored sp) tail (queued ++ [sp]) where
  sqLen := by
    rw [Master.stored, List.length_set]
    exact represents.sqLen
  sqTail := represents.sqTail
  sqHead := by
    show master.sqHead + 1 = _
    rw [represents.sqHead, List.length_append, List.length_singleton]
    omega
  holds := by
    have cell : (master.sqHead.tmod master.sqLen).toNat =
        (tail + queued.length) % master.queue.length := by
      rw [represents.sqHead, represents.sqLen, ← Int.natCast_add, cell_of_counter]
    rw [Master.stored, cell]
    exact represents.holds.push room sp

/-- Starting a worker leaves the queue as it is. -/
theorem Represents.startWorker (represents : Represents master tail queued) (created : Bool) :
    Represents (startWorker created master) tail queued := by
  rw [Agent.startWorker]
  split_ifs
  · exact ⟨represents.sqLen, represents.sqTail, represents.sqHead, represents.holds⟩
  · exact represents
  · exact represents

/-- Putting a socket succeeds when there is room. -/
theorem Represents.putSocket (represents : Represents master tail queued)
    (room : queued.length < master.queue.length) (created : Bool) (sp : Socket) :
    putSocket created sp master = some (Agent.startWorker created (master.stored sp)) := by
  have notFull : master.sqHead - master.sqTail < master.sqLen := by
    rw [represents.sqHead, represents.sqTail, represents.sqLen]
    omega
  have inside : (master.sqHead.tmod master.sqLen).toNat < master.queue.length := by
    rw [represents.sqHead, represents.sqLen, ← Int.natCast_add, cell_of_counter]
    exact Nat.mod_lt _ (by omega)
  rw [Agent.putSocket, bind_of_some (ensure_of notFull)]
  dsimp only
  rw [bind_of_some (ensure_of inside)]
  rfl

/-- Wrapping makes the tail the place of its cell; the head keeps its distance. The
induction is on the bound, which each turn leaves above the tail. -/
theorem wrapCounters_spec (turns : Nat) (master : Master Socket) (tail : Nat) {size : Nat}
    (sqTail : master.sqTail = tail) (sqLen : master.sqLen = size) (positive : 0 < size)
    (enough : tail < turns) : ∃ place : Nat, place ≡ tail [MOD size] ∧ wrapCounters turns master =
      some { master with sqTail := place, sqHead := master.sqHead - master.sqTail + place } := by
  induction turns generalizing master tail with
  | zero => exact absurd enough (Nat.not_lt_zero tail)
  | succ turns inductionHypothesis =>
    rw [wrapCounters]
    by_cases wraps : size ≤ tail
    · rw [if_pos (by omega)]
      have lower : master.sqTail - master.sqLen = (tail - size : Nat) := by omega
      obtain ⟨place, same, wrapped⟩ := inductionHypothesis
        { master with
          sqTail := master.sqTail - master.sqLen, sqHead := master.sqHead - master.sqLen }
        (tail - size) lower sqLen (by omega)
      refine ⟨place, same.trans ?_, ?_⟩
      · exact (Nat.modEq_iff_dvd' (Nat.sub_le tail size)).mpr (by simp [Nat.sub_sub_self wraps])
      · rw [wrapped]
        congr 2
        show master.sqHead - master.sqLen - (master.sqTail - master.sqLen) + place = _
        omega
    · rw [if_neg (by omega)]
      refine ⟨tail, rfl, ?_⟩
      have head : master.sqHead - master.sqTail + tail = master.sqHead := by omega
      rw [head, ← sqTail]

/-- Taking a socket gives the first of the queue. -/
theorem Represents.takeSocket {sp : Socket} {rest : List Socket}
    (represents : Represents master tail (sp :: rest)) :
    ∃ place : Nat, takeSocket master = some (sp, master.taken place (place + rest.length)) ∧
      Represents (master.taken place (place + rest.length)) place rest := by
  have positive : 0 < master.queue.length :=
    Nat.lt_of_lt_of_le (Nat.succ_pos _) represents.holds.fits
  have notEmpty : master.sqHead > master.sqTail := by
    rw [represents.sqHead, represents.sqTail, List.length_cons]
    omega
  have cell : master.queue[(master.sqTail.tmod master.sqLen).toNat]? = some sp := by
    rw [represents.sqTail, represents.sqLen, cell_of_counter]
    exact represents.holds.head
  have advanced : master.sqTail + 1 = (tail + 1 : Nat) := by
    rw [represents.sqTail]
    rfl
  have turns : (master.sqTail + 1).toNat + 1 = tail + 2 := by omega
  obtain ⟨place, same, wrapped⟩ := wrapCounters_spec (tail + 2)
    { master with numIdle := master.numIdle - 1, sqTail := master.sqTail + 1 }
    (tail + 1) advanced represents.sqLen positive (by omega)
  have head : master.sqHead - (master.sqTail + 1) + place = place + rest.length := by
    rw [represents.sqHead, represents.sqTail, List.length_cons]
    omega
  dsimp only at wrapped
  rw [head] at wrapped
  refine ⟨place, ?_, represents.sqLen, rfl, rfl, represents.holds.pop.move same⟩
  rw [Agent.takeSocket, bind_of_some (ensure_of notEmpty)]
  dsimp only
  rw [bind_of_some cell, turns, bind_of_some wrapped]
  rfl

end Queue

section Steps

variable {system : System Socket} {tail : Nat} {queued : List Socket}

/-- A step of a worker that does nothing but go on. -/
inductive Moves : Op Socket → Nat → Phase Socket → Phase Socket → Prop
  | enters (worker : Nat) : Moves (.test worker false) worker .loop .entering
  | stops (worker : Nat) : Moves (.test worker true) worker .loop .leaving
  | sleepsAgain (worker : Nat) : Moves (.wake worker) worker .waiting .waiting
  | givesUp (worker : Nat) : Moves (.timeout worker) worker .waiting .leaving
  | finishes (worker : Nat) (sp : Socket) :
      Moves (.finish worker) worker (.processing sp) .loop

/-- A step of a worker that may take a socket, and how its phase counts in front of it. -/
inductive Takes : Op Socket → Nat → Phase Socket → Int → Prop
  | arrives (worker : Nat) : Takes (.get worker) worker .entering 0
  | wakes (worker : Nat) : Takes (.wake worker) worker .waiting 1

/-- The master thread is in `put_socket`. -/
def Puts (system : System Socket) (created : Bool) (op : Op Socket) : Prop :=
  (∃ sp, op = .put sp created ∧ system.producer = none) ∨
    (op = .resume created ∧ system.producer ≠ none)

/-- What a step does to a system with a queue. -/
inductive Effect (system : System Socket) (tail : Nat) (queued : List Socket) :
    Op Socket → System Socket → Prop
  | nothing (op : Op Socket) : Effect system tail queued op system
  | waits (op : Op Socket) (sp : Socket) :
      Effect system tail queued op { system with producer := some sp }
  | puts {op : Op Socket} {created : Bool} {sp : Socket} (called : Puts system created op)
      (room : ¬ system.master.Full)
      (stored : Represents (system.master.stored sp) tail (queued ++ [sp])) :
      Effect system tail queued op { system with
        master := startWorker created (system.master.stored sp)
        producer := none
        accepted := system.accepted ++ [sp] }
  | moves {op : Op Socket} {worker : Nat} {here next : Phase Socket}
      (present : system.master.workers[worker]? = some here) (goes : Moves op worker here next) :
      Effect system tail queued op { system with master := system.master.setPhase worker next }
  | sleeps {worker : Nat} (present : system.master.workers[worker]? = some .entering) :
      Effect system tail queued (.get worker) { system with
        master := { system.master.setPhase worker .waiting with
          numIdle := system.master.numIdle + 1 } }
  | takes {op : Op Socket} {worker : Nat} {here : Phase Socket} {counted : Int} {sp : Socket}
      {rest : List Socket} {place : Nat}
      (present : system.master.workers[worker]? = some here)
      (goes : Takes op worker here counted) (first : queued = sp :: rest)
      (remaining : Represents (system.master.taken place (place + rest.length)) place rest) :
      Effect system tail queued op { system with
        master := { (system.master.taken place (place + rest.length)).setPhase worker
          (.processing sp) with numIdle := system.master.numIdle - counted }
        handed := system.handed ++ [sp] }
  | leaves {worker : Nat} (present : system.master.workers[worker]? = some .leaving) :
      Effect system tail queued (.stop worker) { system with
        master := { system.master with
          workers := system.master.workers.eraseIdx worker
          numThreads := system.master.numThreads - 1
          numIdle := system.master.numIdle - 1 } }

/-- What the master thread does when it looks at the queue. -/
theorem tryPut_effect (represents : Represents system.master tail queued) {op : Op Socket}
    {created : Bool} (called : Puts system created op) (sp : Socket) :
    ∃ after, tryPut created sp system = some after ∧ Effect system tail queued op after := by
  by_cases full : system.master.Full
  · exact ⟨_, if_pos full, .waits op sp⟩
  · have room : queued.length < system.master.queue.length :=
      Nat.lt_of_not_le (mt represents.full_iff.mpr full)
    refine ⟨_, ?_, .puts called full (represents.stored room sp)⟩
    rw [tryPut, if_neg full, bind_of_some (represents.putSocket room created sp)]
    rfl

/-- What a worker does that wakes. -/
theorem wake_effect (represents : Represents system.master tail queued) {worker : Nat}
    (present : system.master.workers[worker]? = some .waiting) :
    ∃ after, tryTake worker system = some after ∧
      Effect system tail queued (.wake worker) after := by
  cases queued with
  | nil =>
    exact ⟨_, if_pos (represents.empty_iff.mpr rfl), .moves present (.sleepsAgain worker)⟩
  | cons sp rest =>
    obtain ⟨place, took, remaining⟩ := represents.takeSocket
    have notEmpty : ¬ system.master.Empty := mt represents.empty_iff.mp (List.cons_ne_nil sp rest)
    refine ⟨_, ?_, .takes present (.wakes worker) rfl remaining⟩
    rw [tryTake, if_neg notEmpty, bind_of_some took]
    rfl

/-- What a worker does that calls for a socket. -/
theorem get_effect (represents : Represents system.master tail queued) {worker : Nat}
    (present : system.master.workers[worker]? = some .entering) :
    ∃ after, tryTake worker { system with
        master := { system.master with numIdle := system.master.numIdle + 1 } } = some after ∧
      Effect system tail queued (.get worker) after := by
  have counted : Represents { system.master with numIdle := system.master.numIdle + 1 } tail
      queued := ⟨represents.sqLen, represents.sqTail, represents.sqHead, represents.holds⟩
  cases queued with
  | nil => exact ⟨_, if_pos (counted.empty_iff.mpr rfl), .sleeps present⟩
  | cons sp rest =>
    obtain ⟨place, took, remaining⟩ := counted.takeSocket
    have notEmpty := mt counted.empty_iff.mp (List.cons_ne_nil sp rest)
    have back : system.master.numIdle + 1 - 1 = system.master.numIdle - 0 := by omega
    have moved : Represents (system.master.taken place (place + rest.length)) place rest :=
      ⟨remaining.sqLen, remaining.sqTail, remaining.sqHead, remaining.holds⟩
    have effect : Effect system tail (sp :: rest) (.get worker) _ :=
      .takes present (.arrives worker) rfl moved
    rw [← back] at effect
    refine ⟨_, ?_, effect⟩
    rw [tryTake, if_neg notEmpty, bind_of_some took]
    rfl

/-- Every step has one of the effects. -/
theorem perform_effect (threads : system.master.numThreads = system.master.workers.length)
    (represents : Represents system.master tail queued) (op : Op Socket) :
    ∃ after, perform system op = some after ∧ Effect system tail queued op after := by
  have elsewhere : ∃ after, some system = some after ∧ Effect system tail queued op after :=
    ⟨system, rfl, .nothing op⟩
  cases op with
  | put sp created =>
    rw [perform]
    split_ifs with free
    · exact tryPut_effect represents (.inl ⟨sp, rfl, Option.isNone_iff_eq_none.mp free⟩) sp
    · exact elsewhere
  | resume created =>
    rw [perform]
    split
    · rename_i sp waits
      exact tryPut_effect represents (.inr ⟨rfl, by simp [waits]⟩) sp
    · exact elsewhere
  | test worker stop =>
    rw [perform]
    split
    · rename_i present
      cases stop with
      | false => exact ⟨_, rfl, .moves present (.enters worker)⟩
      | true => exact ⟨_, rfl, .moves present (.stops worker)⟩
    · exact elsewhere
  | get worker =>
    rw [perform]
    split
    · exact get_effect represents ‹_›
    · exact elsewhere
  | wake worker =>
    rw [perform]
    split
    · exact wake_effect represents ‹_›
    · exact elsewhere
  | timeout worker =>
    rw [perform]
    split
    · exact ⟨_, rfl, .moves ‹_› (.givesUp worker)⟩
    · exact elsewhere
  | finish worker =>
    rw [perform]
    split
    · exact ⟨_, rfl, .moves ‹_› (.finishes worker _)⟩
    · exact elsewhere
  | stop worker =>
    rw [perform]
    split
    · rename_i present
      have inside := (List.getElem?_eq_some_iff.mp present).1
      have stays : system.master.numThreads - 1 ≥ 0 := by omega
      exact ⟨_, bind_of_some (bind_of_some (ensure_of stays)), .leaves present⟩
    · exact elsewhere

/-- Starting a worker counts it. -/
theorem startWorker_threads {master : Master Socket} (created : Bool)
    (threads : master.numThreads = master.workers.length) :
    (startWorker created master).numThreads = (startWorker created master).workers.length := by
  rw [startWorker]
  split_ifs
  · show master.numThreads + 1 = _
    rw [threads, List.length_cons]
    rfl
  · exact threads
  · exact threads

/-- The counted threads stay the workers. -/
theorem Effect.threads {op : Op Socket} {after : System Socket}
    (effect : Effect system tail queued op after)
    (threads : system.master.numThreads = system.master.workers.length) :
    after.master.numThreads = after.master.workers.length := by
  cases effect with
  | nothing => exact threads
  | waits => exact threads
  | puts called room stored => exact startWorker_threads _ threads
  | moves present goes => exact threads.trans (by rw [Master.setPhase, List.length_set])
  | sleeps present => exact threads.trans (by rw [Master.setPhase, List.length_set])
  | takes present goes first remaining =>
    exact threads.trans (by rw [Master.setPhase, List.length_set]; rfl)
  | leaves present =>
    have inside := (List.getElem?_eq_some_iff.mp present).1
    show system.master.numThreads - 1 = _
    rw [List.length_eraseIdx_of_lt inside]
    omega

/-- There is a queue after each step, and the sockets given to workers followed by it are
the sockets that were put. -/
theorem Effect.queue {op : Op Socket} {after : System Socket}
    (effect : Effect system tail queued op after)
    (represents : Represents system.master tail queued)
    (history : system.handed ++ queued = system.accepted) :
    ∃ place rest, Represents after.master place rest ∧ after.handed ++ rest = after.accepted := by
  obtain ⟨sqLen, sqTail, sqHead, holds⟩ := id represents
  cases effect with
  | nothing => exact ⟨tail, queued, represents, history⟩
  | waits => exact ⟨tail, queued, represents, history⟩
  | puts called room stored =>
    refine ⟨tail, _, stored.startWorker _, ?_⟩
    rw [← history, List.append_assoc]
  | moves present goes => exact ⟨tail, queued, ⟨sqLen, sqTail, sqHead, holds⟩, history⟩
  | sleeps present => exact ⟨tail, queued, ⟨sqLen, sqTail, sqHead, holds⟩, history⟩
  | takes present goes first remaining =>
    refine ⟨_, _, ⟨remaining.sqLen, remaining.sqTail, remaining.sqHead, remaining.holds⟩, ?_⟩
    rw [← history, first, List.append_assoc]
    rfl
  | leaves present => exact ⟨tail, queued, ⟨sqLen, sqTail, sqHead, holds⟩, history⟩

end Steps

namespace System

/-- The counted threads are the workers, and the queue is the sockets that were put and not
yet given to a worker. -/
structure Consistent (system : System Socket) : Prop where
  threads : system.master.numThreads = system.master.workers.length
  queue : ∃ tail queued, Represents system.master tail queued ∧
    system.handed ++ queued = system.accepted

/-- The counters are in their order, not further apart than the array is long, and the
sockets given to workers are the first ones of those that were put. -/
def IsFifo (system : System Socket) : Prop :=
  0 ≤ system.master.sqTail ∧ system.master.sqTail ≤ system.master.sqHead ∧
    system.master.sqHead ≤ system.master.sqTail + system.master.sqLen ∧
    system.handed <+: system.accepted ∧
    system.accepted.length - system.handed.length =
      system.master.sqHead - system.master.sqTail

variable {system : System Socket}

/-- Every step keeps a system consistent. -/
theorem Consistent.step (consistent : system.Consistent) (op : Op Socket) :
    ∃ answer after, step system op = some (answer, after) ∧ after.Consistent := by
  obtain ⟨threads, tail, queued, represents, history⟩ := consistent
  obtain ⟨after, performed, effect⟩ := perform_effect threads represents op
  refine ⟨(), after, ?_, effect.threads threads, effect.queue represents history⟩
  rw [Agent.step, performed]
  rfl

/-- A consistent system is a bounded queue. -/
theorem Consistent.isFifo (consistent : system.Consistent) : system.IsFifo := by
  obtain ⟨tail, queued, represents, history⟩ := consistent.queue
  have fits := represents.holds.fits
  have length : system.accepted.length = system.handed.length + queued.length := by
    rw [← history, List.length_append]
  rw [IsFifo, represents.sqTail, represents.sqHead, represents.sqLen]
  refine ⟨?_, ?_, ?_, ⟨queued, history⟩, ?_⟩ <;> omega

end System

/-- A master with an empty queue, and with any workers. -/
structure Master.Fresh (master : Master Socket) : Prop where
  sqLen : master.sqLen = master.queue.length
  sqHead : master.sqHead = 0
  sqTail : master.sqTail = 0
  threads : master.numThreads = master.workers.length

/-- The system around a fresh master is consistent. -/
theorem start_consistent {master : Master Socket} (fresh : master.Fresh) :
    (start master).Consistent where
  threads := fresh.threads
  queue := ⟨0, [], ⟨fresh.sqLen, fresh.sqTail, fresh.sqHead, .empty _ _⟩, rfl⟩

/-- In every order of steps of the master thread and of any number of workers no step fails,
and the sockets go through a bounded queue. -/
theorem queue_is_fifo {master : Master Socket} (fresh : master.Fresh) (ops : List (Op Socket)) :
    Always step System.IsFifo (start master) ops := by
  have consistent : Always step System.Consistent (start master) ops :=
    always_of_kept System.Consistent (fun _ op consistent => consistent.step op) ops _
      (start_consistent fresh)
  exact always_mono (fun _ => System.Consistent.isFifo) ops _ consistent

/-- A queue of two sockets with a worker that takes the one that is put. -/
theorem queue_is_fifo_two :
    Always step System.IsFifo (start (masterNew 1 [0, 0]))
      [.put 7 true, .test 0 false, .get 0] :=
  queue_is_fifo ⟨rfl, rfl, rfl, rfl⟩ _

end Ezcfg.Agent

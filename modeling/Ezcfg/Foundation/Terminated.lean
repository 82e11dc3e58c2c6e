import Mathlib.Data.List.Basic
import Mathlib.Data.List.TakeWhile

/-!
# Reading a text up to its terminator

A pointer into a terminated text is the bytes that can be read from there, the terminator
last. Reading where nothing is left and moving past the terminator have no result. On the
bytes of a text with its terminator behind them, the operations that a test or a bound
keeps inside come to the same ones on the bytes alone.
-/

namespace Foundation

/-- A text with its terminator. -/
def terminated (text : List UInt8) : List UInt8 := text ++ [0]

/-- `*p` -/
def readByte (p : List UInt8) : Option UInt8 := p.head?

/-- `p += bytes`, up to the terminator and no further. -/
def advance (bytes : Nat) (p : List UInt8) : Option (List UInt8) :=
  if bytes < p.length then some (p.drop bytes) else none

/-- `while (test (*p)) p++` -/
def scan (test : UInt8 → Bool) : List UInt8 → Option (List UInt8)
  | [] => none
  | byte :: rest => if test byte then scan test rest else some (byte :: rest)

/-- `strchr`: reads up to the byte or the terminator. -/
def strchr (wanted : UInt8) : List UInt8 → Option (Option (List UInt8))
  | [] => none
  | byte :: rest =>
    if byte = wanted then some (some (byte :: rest))
    else if byte = 0 then some none
    else strchr wanted rest

/-- Whether the letters are read in front; reads up to the first difference. -/
def startsWith : List UInt8 → List UInt8 → Option Bool
  | [], _ => some true
  | _ :: _, [] => none
  | letter :: letters, byte :: rest =>
    if byte = letter then startsWith letters rest else some false

section Terminated

variable (text : List UInt8)

/-- A text with its terminator is one byte longer. -/
@[simp] theorem length_terminated : (terminated text).length = text.length + 1 := by
  simp [terminated]

/-- Reading gives the first byte or the terminator. -/
theorem readByte_terminated : readByte (terminated text) = some (text.headD 0) := by
  cases text <;> rfl

/-- Moving as far as the terminator. -/
theorem advance_terminated {text : List UInt8} {bytes : Nat} (inside : bytes ≤ text.length) :
    advance bytes (terminated text) = some (terminated (text.drop bytes)) := by
  rw [advance, length_terminated, if_pos (by omega), terminated,
    List.drop_append_of_le_length inside]
  rfl

/-- A move has a result only where it stays in the text. -/
theorem advance_terminated_none {text : List UInt8} {bytes : Nat} (outside : text.length < bytes) :
    advance bytes (terminated text) = none := by
  rw [advance, length_terminated, if_neg (by omega)]

/-- A scan for which the terminator fails the test stops inside. -/
theorem scan_terminated {test : UInt8 → Bool} (stops : test 0 = false) :
    scan test (terminated text) = some (terminated (text.dropWhile test)) := by
  induction text with
  | nil => simp [terminated, scan, stops]
  | cons byte rest inductionHypothesis =>
    by_cases holds : test byte
    · simpa [terminated, scan, holds] using inductionHypothesis
    · simp [terminated, scan, holds]

/-- A byte that is there is found, and where it is not the search ends at the terminator. -/
theorem strchr_terminated {text : List UInt8} {wanted : UInt8} (nonzero : wanted ≠ 0)
    (nonul : (0 : UInt8) ∉ text) :
    strchr wanted (terminated text) =
      some (if wanted ∈ text then some (terminated (text.dropWhile (· ≠ wanted))) else none) := by
  induction text with
  | nil => simp [terminated, strchr, nonzero.symm]
  | cons byte rest inductionHypothesis =>
    simp only [List.mem_cons, not_or] at nonul
    by_cases here : byte = wanted
    · simp [terminated, strchr, here]
    · have later := inductionHypothesis nonul.2
      rw [terminated] at later
      simp [terminated, strchr, here, Ne.symm here, Ne.symm nonul.1, later]

/-- Letters are compared inside the text, as none of them is the terminator. -/
theorem startsWith_terminated {letters : List UInt8} (nonul : (0 : UInt8) ∉ letters) :
    startsWith letters (terminated text) = some (decide (letters <+: text)) := by
  induction letters generalizing text with
  | nil => simp [startsWith]
  | cons letter letters inductionHypothesis =>
    simp only [List.mem_cons, not_or] at nonul
    cases text with
    | nil => simp [terminated, startsWith, nonul.1]
    | cons byte rest =>
      have later := inductionHypothesis rest nonul.2
      rw [terminated] at later
      by_cases same : byte = letter
      · simp [terminated, startsWith, same, later]
      · simp [terminated, startsWith, same, Ne.symm same]

end Terminated

end Foundation

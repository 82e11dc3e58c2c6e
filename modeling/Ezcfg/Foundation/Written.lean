import Ezcfg.Foundation.CString

/-!
# Bytes that have been written

An object that is allocated has no contents until they are written. A string in it is read
byte by byte up to its terminator, and reading a byte that was never written, or one behind
the object, has no result.
-/

namespace Foundation

/-- The bytes of an object; one is none until it is written. -/
abbrev Area := List (Option UInt8)

namespace Area

/-- `malloc` -/
def fresh (size : Nat) : Area := List.replicate size none

/-- A string with its terminator, as `strdup` makes it. -/
def ofString (bytes : List UInt8) : Area := bytes.map some ++ [some 0]

/-- The string at the start of an object. -/
def string : Area → Option (List UInt8)
  | [] => none
  | none :: _ => none
  | some byte :: rest => if byte = 0 then some [] else do
    let tail ← string rest
    return byte :: tail

/-- `strcmp` of the strings at the start of two objects. -/
def strcmp : Area → Area → Option Ordering
  | some a :: as, some b :: bs =>
    if a < b then some .lt
    else if b < a then some .gt
    else if a = 0 then some .eq
    else strcmp as bs
  | _, _ => none

/-- `memcpy` of the first bytes of an object. -/
def copy (area : Area) (size : Nat) : Option Area :=
  if size ≤ area.length then some (area.take size) else none

/-- No string can be read from a new object. -/
@[simp] theorem string_fresh (size : Nat) : string (fresh size) = none := by
  cases size <;> rfl

/-- New objects cannot be compared. -/
@[simp] theorem strcmp_fresh (size : Nat) (other : Area) : strcmp (fresh size) other = none := by
  cases size <;> rfl

/-- A string is read as far as it has been written with its terminator. -/
theorem string_append (bytes : List UInt8) (rest : Area) (nonul : (0 : UInt8) ∉ bytes) :
    string (bytes.map some ++ rest) = (string rest).map (bytes ++ ·) := by
  induction bytes with
  | nil => simp
  | cons byte tail inductionHypothesis =>
    obtain ⟨nonzero, proper⟩ : 0 ≠ byte ∧ 0 ∉ tail := by simpa using nonul
    rw [List.map_cons, List.cons_append, string, if_neg (Ne.symm nonzero),
      inductionHypothesis proper]
    cases string rest <;> rfl

/-- A string is read up to its terminator, whatever follows. -/
theorem string_terminated (bytes : List UInt8) (rest : Area) (nonul : (0 : UInt8) ∉ bytes) :
    string (bytes.map some ++ some 0 :: rest) = some bytes := by
  rw [string_append bytes _ nonul]
  simp [string]

/-- What `strdup` makes is read back. -/
theorem string_ofString {bytes : List UInt8} (nonul : (0 : UInt8) ∉ bytes) :
    string (ofString bytes) = some bytes :=
  string_terminated bytes [] nonul

/-- A string that is read has been written with its terminator at the start of the object. -/
theorem string_some {area : Area} {bytes : List UInt8} (read : string area = some bytes) :
    (0 : UInt8) ∉ bytes ∧ ∃ rest, area = bytes.map some ++ some 0 :: rest := by
  induction area generalizing bytes with
  | nil => cases read
  | cons first rest inductionHypothesis =>
    cases first with
    | none => cases read
    | some byte =>
      by_cases zero : byte = 0
      · subst zero
        obtain rfl : [] = bytes := Option.some.inj read
        exact ⟨List.not_mem_nil, rest, rfl⟩
      · rw [string, if_neg zero] at read
        obtain ⟨tail, found, same⟩ := Option.bind_eq_some_iff.mp read
        obtain rfl : byte :: tail = bytes := Option.some.inj same
        obtain ⟨proper, behind, rfl⟩ := inductionHypothesis found
        exact ⟨by simp [Ne.symm zero, proper], behind, rfl⟩

end Area

end Foundation

import Ezcfg.Values
import Ezcfg.Foundation.Written

/-!
# Pairs of a name and a value

A pair has two strings and, by the comments on the structure, their lengths with the
terminators. `ezcfg_nv_pair_new` allocates the strings and sets the lengths, and copies neither
the name nor the value.
-/

namespace Ezcfg.NvPairs

open Foundation

/-- `struct ezcfg_nv_pair`; either string may be NULL. -/
structure NvPair where
  n : Option Area
  v : Option Area
  nlen : Int
  vlen : Int
deriving DecidableEq

/-- What the memory allocator grants `ezcfg_nv_pair_new`. -/
structure NewGrants where
  pair : Bool
  name : Bool
  value : Bool

/-- The block of `ezcfg_nv_pair_new` for one of its strings, with the length it sets; none when
the allocation is refused. -/
def newString (text : Option CString) (granted : Bool) : Option (Option Area × Int) :=
  match text with
  | none => some (none, 0)
  | some text =>
    let len := text.length
    if granted then some (some (Area.fresh (len + 1)), len + 1) else none

/-- `ezcfg_nv_pair_new`; none for NULL -/
def ezcfgNvPairNew (name value : Option CString) (grants : NewGrants) : Option NvPair := do
  if !grants.pair then none
  let (n, nlen) ← newString name grants.name
  let (v, vlen) ← newString value grants.value
  return ⟨n, v, nlen, vlen⟩

/-- `ezcfg_nv_pair_cmp_n` -/
def ezcfgNvPairCmpN (nvp1 nvp2 : NvPair) : Option Ordering := do
  let n1 ← nvp1.n
  let n2 ← nvp2.n
  Area.strcmp n1 n2

/-- A string can be read, and the length is its own with the terminator. -/
def Measures (string : Option Area) (len : Int) : Prop :=
  ∀ area, string = some area → ∃ bytes, area.string = some bytes ∧ len = bytes.length + 1

/-- The lengths of a pair are those of its strings. -/
def Follows (nvp : NvPair) : Prop := Measures nvp.n nvp.nlen ∧ Measures nvp.v nvp.vlen

/-- An object holds a copy of a string, or there is neither. -/
def Copies (string : Option Area) (text : Option CString) : Prop :=
  match text with
  | none => string = none
  | some text => ∃ area, string = some area ∧ area.string = some text.bytes

/-- A pair carries a name and a value, with their lengths. -/
def Carries (nvp : NvPair) (name value : Option CString) : Prop :=
  Copies nvp.n name ∧ Copies nvp.v value ∧ Follows nvp

/-- `ezcfg_nv_pair_new` is refused memory that it asks for. -/
def Refused (name value : Option CString) (grants : NewGrants) : Prop :=
  grants.pair = false ∨ (name ≠ none ∧ grants.name = false) ∨
    (value ≠ none ∧ grants.value = false)

/-- A string of a new pair holds the text that it is for only when there is none. -/
theorem newString_copies_iff {text : Option CString} {granted : Bool} {string : Option Area}
    {len : Int} (made : newString text granted = some (string, len)) :
    Copies string text ∧ Measures string len ↔ text = none := by
  cases text with
  | none =>
    cases made
    exact ⟨fun _ => rfl, fun _ => ⟨rfl, nofun⟩⟩
  | some text =>
    cases granted with
    | false => cases made
    | true =>
      cases made
      refine ⟨fun copies => ?_, nofun⟩
      obtain ⟨⟨area, is, read⟩, -⟩ := copies
      obtain rfl := Option.some.inj is
      rw [Area.string_fresh] at read
      cases read

/-- A string is made if it is not refused. -/
theorem newString_eq_none_iff (text : Option CString) (granted : Bool) :
    newString text granted = none ↔ text ≠ none ∧ granted = false := by
  cases text with
  | none => simp [newString]
  | some text => cases granted <;> simp [newString]

/-- A pair is made if it is not refused. -/
theorem ezcfgNvPairNew_eq_none_iff (name value : Option CString) (grants : NewGrants) :
    ezcfgNvPairNew name value grants = none ↔ Refused name value grants := by
  rw [Refused, ← newString_eq_none_iff, ← newString_eq_none_iff, ezcfgNvPairNew]
  cases grants.pair with
  | false => simp
  | true =>
    cases newString name grants.name with
    | none => simp
    | some first => cases newString value grants.value <;> simp

/-- A pair that is made has both strings made. -/
theorem ezcfgNvPairNew_some {name value : Option CString} {grants : NewGrants} {nvp : NvPair}
    (made : ezcfgNvPairNew name value grants = some nvp) :
    newString name grants.name = some (nvp.n, nvp.nlen) ∧
      newString value grants.value = some (nvp.v, nvp.vlen) := by
  rw [ezcfgNvPairNew] at made
  cases first : newString name grants.name with
  | none => cases granted : grants.pair <;> simp [first, granted] at made
  | some start =>
    cases second : newString value grants.value with
    | none => cases granted : grants.pair <;> simp [first, second, granted] at made
    | some others =>
      cases granted : grants.pair with
      | false => simp [granted] at made
      | true =>
        simp only [first, second, granted, Bool.not_true, Bool.false_eq_true, if_false,
          Option.bind_eq_bind, Option.bind_some, Option.pure_def, Option.some.injEq] at made
        subst made
        exact ⟨rfl, rfl⟩

/-- A new pair carries its name and its value only when both are NULL. -/
theorem ezcfgNvPairNew_carries_iff {name value : Option CString} {grants : NewGrants}
    {nvp : NvPair} (made : ezcfgNvPairNew name value grants = some nvp) :
    Carries nvp name value ↔ name = none ∧ value = none := by
  obtain ⟨first, second⟩ := ezcfgNvPairNew_some made
  rw [← newString_copies_iff first, ← newString_copies_iff second]
  constructor
  · rintro ⟨names, values, measuresName, measuresValue⟩
    exact ⟨⟨names, measuresName⟩, values, measuresValue⟩
  · rintro ⟨⟨names, measuresName⟩, values, measuresValue⟩
    exact ⟨names, values, measuresName, measuresValue⟩

/-- Nor does it follow the lengths that it has, when a name is given. -/
theorem not_follows_of_new {name : CString} {value : Option CString} {grants : NewGrants}
    {nvp : NvPair} (made : ezcfgNvPairNew (some name) value grants = some nvp) :
    ¬ Follows nvp := by
  obtain ⟨first, -⟩ := ezcfgNvPairNew_some made
  rintro ⟨measures, -⟩
  rw [newString] at first
  cases granted : grants.name with
  | false => simp [granted] at first
  | true =>
    simp only [granted, if_true, Option.some.injEq, Prod.mk.injEq] at first
    obtain ⟨bytes, read, -⟩ := measures _ first.1.symm
    rw [Area.string_fresh] at read
    cases read

end Ezcfg.NvPairs

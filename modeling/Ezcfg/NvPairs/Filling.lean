import Ezcfg.MetaNvram.Buffer
import Ezcfg.RamNvram.Table
import Ezcfg.NvPairs.Building
import Ezcfg.NvPairs.Text

/-!
# Pairs that are filled from the stores

`ezcfg_common_get_nvram_entries` looks the name of each pair up, first in the RAM store and then
in the META store, and replaces the value. The length of the value stays what it was. The whole
use of pairs is then put together: making them, building them from a text, filling them and
writing them as a text.
-/

namespace Ezcfg.NvPairs

open Foundation Foundation.Json Json

/-- The stores of a context; either may be missing. -/
structure Stores where
  nvram : Option RamNvram.Ram
  metaNvram : Option MetaNvram.Buffer

/-- Whether the copies of a value are granted. -/
structure CopyGrants where
  nvram : Bool
  metaNvram : Bool

/-- The lookups for one name. The code comes with the value that `data->v` is left with; without
a store the assertion of its lookup fails. -/
def lookUp (stores : Stores) (grants : CopyGrants) (name : CString) :
    Option (Int × Option (List UInt8)) := do
  let nvram ← stores.nvram
  let (ret, v) ← RamNvram.nvramGetEntryValue nvram name grants.nvram none
  if ret = retOk then return (ret, v.map CString.bytes)
  let metaNvram ← stores.metaNvram
  let (ret, v) ← MetaNvram.metaNvramGetEntryValue metaNvram name grants.metaNvram
  if ret = retOk then return (ret, v) else return (retFail, v)

/-- One round of the loop. -/
def getEntry (stores : Stores) (grants : CopyGrants) (data : NvPair) : Option (Int × NvPair) :=
  match data.n with
  | none => some (retFail, data)
  | some n => do
    let name ← n.string
    let name ← CString.ofBytes name
    let (ret, v) ← lookUp stores grants name
    return (ret, { data with v := v.map Area.ofString })

/-- The loop over the list. The code comes with the pairs that were filled, in front, and those
that were not. -/
def getEntries (stores : Stores) :
    List (NvPair × CopyGrants) → Option (Int × List NvPair × List NvPair)
  | [] => some (retOk, [], [])
  | (data, grants) :: rest => do
    let (ret, data) ← getEntry stores grants data
    if ret ≠ retOk then return (retFail, [], data :: rest.map Prod.fst)
    let (ret, filled, others) ← getEntries stores rest
    return (ret, data :: filled, others)

/-- `ezcfg_common_get_nvram_entries` -/
def ezcfgCommonGetNvramEntries (stores : Stores) (list : List (NvPair × CopyGrants)) :
    Option (Int × List NvPair) := do
  let (ret, filled, others) ← getEntries stores list
  return (ret, filled ++ others)

/-- The call has a result, and the pairs that it fills have their strings. -/
def FillsFollowing (stores : Stores) (list : List (NvPair × CopyGrants)) : Prop :=
  ∃ ret filled others, getEntries stores list = some (ret, filled, others) ∧
    ∀ nvp ∈ filled, Follows nvp

/-- The name of a pair. -/
def nameOf (data : NvPair) : Option CString := do
  let n ← data.n
  let name ← n.string
  CString.ofBytes name

/-- For each pair up to the first without a name or a value the lookups have a result; and the
pairs that are found have the length of their name, and that of the value looked up, already. -/
def LengthsFit (stores : Stores) : List (NvPair × CopyGrants) → Prop
  | [] => True
  | (data, grants) :: rest => data.n = none ∨ ∃ name ret v, nameOf data = some name ∧
      lookUp stores grants name = some (ret, v) ∧ (ret = retOk →
        data.nlen = name.length + 1 ∧ (∀ bytes, v = some bytes → data.vlen = bytes.length + 1) ∧
          LengthsFit stores rest)

/-- A value that is looked up is a string. -/
theorem lookUp_nonul {stores : Stores} {grants : CopyGrants} {name : CString} {ret : Int}
    {bytes : List UInt8} (found : lookUp stores grants name = some (ret, some bytes)) :
    (0 : UInt8) ∉ bytes := by
  obtain ⟨nvram, -, found⟩ := Option.bind_eq_some_iff.mp found
  obtain ⟨⟨code, value⟩, -, found⟩ := Option.bind_eq_some_iff.mp found
  by_cases ok : code = retOk
  · simp only [ok, if_true, Option.pure_def, Option.some.injEq, Prod.mk.injEq] at found
    obtain ⟨held, -, rfl⟩ := Option.map_eq_some_iff.mp found.2
    exact held.nonul
  · simp only [ok, if_false] at found
    obtain ⟨buffer, -, found⟩ := Option.bind_eq_some_iff.mp found
    obtain ⟨⟨code', value'⟩, looked, found⟩ := Option.bind_eq_some_iff.mp found
    have same : value' = some bytes := by
      split at found <;> exact (Prod.mk.inj (Option.some.inj found)).2
    subst same
    obtain ⟨⟨p, equal⟩, -, looked⟩ := Option.bind_eq_some_iff.mp looked
    cases equal with
    | false => cases (Prod.mk.inj (Option.some.inj looked)).2
    | true =>
      obtain ⟨value, read, looked⟩ := Option.bind_eq_some_iff.mp looked
      cases granted : grants.metaNvram with
      | false =>
        rw [granted] at looked
        cases (Prod.mk.inj (Option.some.inj looked)).2
      | true =>
        rw [granted] at looked
        obtain rfl := Option.some.inj (Prod.mk.inj (Option.some.inj looked)).2
        exact (ByteArea.stringAt_eq_some read).1

/-- A pair with a name is filled with what the lookups leave. -/
theorem getEntry_named {stores : Stores} {grants : CopyGrants} {data : NvPair} {n : Area}
    (has : data.n = some n) :
    getEntry stores grants data = (nameOf data).bind fun name =>
      (lookUp stores grants name).map fun (ret, v) =>
        (ret, { data with v := v.map Area.ofString }) := by
  rw [getEntry, nameOf, has]
  cases read : n.string with
  | none => simp [read]
  | some bytes =>
    cases name : CString.ofBytes bytes with
    | none => simp [read, name]
    | some name' =>
      cases found : lookUp stores grants name' <;> simp [read, name, found]

/-- A pair that is filled follows its lengths when they fit the name and the value. -/
theorem follows_filled {data : NvPair} {name : CString} (is : nameOf data = some name)
    {v : Option (List UInt8)} (nonul : ∀ bytes, v = some bytes → (0 : UInt8) ∉ bytes) :
    Follows { data with v := v.map Area.ofString } ↔
      data.nlen = name.length + 1 ∧ ∀ bytes, v = some bytes → data.vlen = bytes.length + 1 := by
  obtain ⟨n, has, is⟩ := Option.bind_eq_some_iff.mp is
  obtain ⟨bytes, read, is⟩ := Option.bind_eq_some_iff.mp is
  have same : bytes = name.bytes := by
    rw [CString.ofBytes] at is
    split at is
    · exact congrArg CString.bytes (Option.some.inj is)
    · cases is
  subst same
  constructor
  · rintro ⟨names, values⟩
    constructor
    · obtain ⟨bytes, read', length⟩ := names n has
      obtain rfl := Option.some.inj (read.symm.trans read')
      exact length
    · rintro bytes rfl
      obtain ⟨bytes', read', length⟩ := values _ rfl
      obtain rfl := Option.some.inj ((Area.string_ofString (nonul _ rfl)).symm.trans read')
      exact length
  · rintro ⟨names, values⟩
    constructor
    · intro area is
      obtain rfl := Option.some.inj (has.symm.trans is)
      exact ⟨name.bytes, read, names⟩
    · intro area is
      obtain ⟨bytes, rfl, rfl⟩ := Option.map_eq_some_iff.mp is
      exact ⟨bytes, Area.string_ofString (nonul _ rfl), values bytes rfl⟩

/-- The pairs that are filled follow their lengths exactly when these fit beforehand: they are
not set again. -/
theorem fillsFollowing_iff (stores : Stores) (list : List (NvPair × CopyGrants)) :
    FillsFollowing stores list ↔ LengthsFit stores list := by
  induction list with
  | nil => exact iff_of_true ⟨retOk, [], [], rfl, nofun⟩ trivial
  | cons first rest inductionHypothesis =>
    obtain ⟨data, grants⟩ := first
    rw [LengthsFit, FillsFollowing, getEntries]
    cases has : data.n with
    | none =>
      refine iff_of_true ⟨retFail, [], data :: rest.map Prod.fst, ?_, nofun⟩ (.inl rfl)
      simp [getEntry, has, retFail, retOk]
    | some n =>
      rw [getEntry_named has]
      cases named : nameOf data with
      | none => simp
      | some name =>
        cases looked : lookUp stores grants name with
        | none => simp [looked]
        | some outcome =>
          obtain ⟨ret, v⟩ := outcome
          by_cases ok : ret = retOk
          · have nonul : ∀ bytes, v = some bytes → (0 : UInt8) ∉ bytes := by
              rintro bytes rfl
              exact lookUp_nonul looked
            have fits := follows_filled named nonul
            subst ok
            simp only [looked, Option.bind_some, Option.map_some, Option.bind_eq_bind, ne_eq,
              not_true_eq_false, if_false, reduceCtorEq, false_or]
            constructor
            · rintro ⟨ret, filled, others, run, follows⟩
              obtain ⟨⟨ret', filled', others'⟩, later, same⟩ := Option.bind_eq_some_iff.mp run
              obtain ⟨rfl, rfl, rfl⟩ : ret' = ret ∧ _ :: filled' = filled ∧ others' = others := by
                simpa using same
              obtain ⟨length, value⟩ := fits.mp (follows _ List.mem_cons_self)
              refine ⟨name, retOk, v, rfl, looked, fun _ => ⟨length, value, ?_⟩⟩
              exact inductionHypothesis.mp ⟨ret', filled', others', later,
                fun nvp member => follows nvp (List.mem_cons_of_mem _ member)⟩
            · rintro ⟨name', ret, v', same, looked', fit⟩
              obtain rfl := Option.some.inj same
              obtain ⟨rfl, rfl⟩ := Prod.mk.inj (Option.some.inj (looked.symm.trans looked'))
              obtain ⟨length, value, later⟩ := fit rfl
              obtain ⟨ret, filled, others, run, follows⟩ := inductionHypothesis.mpr later
              refine ⟨ret, _ :: filled, others, by rw [run]; rfl, ?_⟩
              intro nvp member
              rcases List.mem_cons.mp member with rfl | behind
              · exact fits.mpr ⟨length, value⟩
              · exact follows nvp behind
          · refine iff_of_true ?_ (.inr ⟨name, ret, v, rfl, looked, fun found => absurd found ok⟩)
            refine ⟨retFail, [], { data with v := v.map Area.ofString } :: rest.map Prod.fst, ?_, nofun⟩
            simp [looked, ok]

/-! ## Every use of pairs -/

/-- What is done with pairs. -/
inductive Use where
  | new (name value : Option CString) (grants : NewGrants)
  | build (json : Json) (value : Value) (parsed : Parsed json value) (grants : ListGrants)
  | fill (stores : Stores) (list : List (NvPair × CopyGrants))
  | write (list : List NvPair) (granted : Bool)

/-- The pairs carry their strings and lengths, and a text is written by those lengths. -/
def Carried : Use → Prop
  | .new name value grants =>
    ∀ nvp, ezcfgNvPairNew name value grants = some nvp → Carries nvp name value
  | .build json _ _ grants => BuildsFollowing grants json
  | .fill stores list => FillsFollowing stores list
  | .write list granted => TextReads list granted

/-- A pair is made of nothing, or refused; a list is not built; the lengths of pairs to be filled
fit already; and of a text some pair does not follow its lengths, or it is refused. -/
def Spared : Use → Prop
  | .new name value grants => (name = none ∧ value = none) ∨ Refused name value grants
  | .build _ value _ grants => StopsEarly grants value
  | .fill stores list => LengthsFit stores list
  | .write list granted => ¬ (granted = true ∧ (∀ nvp ∈ list, Follows nvp) ∧
      ∃ settings, list.mapM strings = some settings)

/-- Pairs carry their strings and lengths only where none is copied. -/
theorem carried_iff (use : Use) : Carried use ↔ Spared use := by
  cases use with
  | new name value grants =>
    rw [Carried, Spared, ← ezcfgNvPairNew_eq_none_iff]
    cases made : ezcfgNvPairNew name value grants with
    | none => simp
    | some nvp => simpa using ezcfgNvPairNew_carries_iff made
  | build json value parsed grants => exact buildsFollowing_iff parsed grants
  | fill stores list => exact fillsFollowing_iff stores list
  | write list granted => exact textReads_iff list granted

/-- The name of one letter. -/
def letter : CString := CString.single 0x69 (by decide)

/-- A pair that is made of a letter alone does not carry it. -/
theorem not_carried : ¬ ∀ use, Carried use := by
  intro carried
  have holds := carried (.new (some letter) none ⟨true, true, true⟩)
  obtain ⟨⟨area, is, read⟩, -⟩ := holds ⟨some (Area.fresh 2), none, 2, 0⟩ rfl
  obtain rfl := Option.some.inj is
  cases read

end Ezcfg.NvPairs

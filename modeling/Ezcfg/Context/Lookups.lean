import Ezcfg.Context.Cleanup
import Ezcfg.NvPairs.Filling
import Ezcfg.RamNvram.Accounting

/-!
# One name and a list of names

`ezcfg_common_get_nvram_entry_value` looks a name up in the RAM store, if there is one, and then
in the META store. `ezcfg_common_get_nvram_entries` does it for each pair of a list, and takes
the RAM store to be there. The contexts are those that `ezcfg_new` returns, and what they become
when entries of the RAM store are set.
-/

namespace Ezcfg.Context

open Foundation MetaNvram NvPairs
open RamNvram (Ram nvramGetEntryValue)

/-- The lookup in the RAM store; without the store it fails. -/
def getNvramValue (nvram : Option Ram) (name : CString) (granted : Bool) :
    Option (Int × Option (List UInt8)) :=
  match nvram with
  | some nvram => do
    let (ret, v) ← nvramGetEntryValue nvram name granted none
    return (ret, v.map CString.bytes)
  | none => some (retFail, none)

/-- `ezcfg_common_get_nvram_entry_value`; without a META buffer the assertion of its lookup
fails. -/
def ezcfgCommonGetNvramEntryValue (stores : Stores) (grants : CopyGrants) (name : CString) :
    Option (Int × Option (List UInt8)) := do
  let (ret, v) ← getNvramValue stores.nvram name grants.nvram
  if ret = retOk then return (ret, v)
  let metaNvram ← stores.metaNvram
  metaNvramGetEntryValue metaNvram name grants.metaNvram

/-! ## The stores of a context -/

/-- The stores of a context. -/
def storesOf (world : World) (ezcfg : Ptr) : Option Stores := do
  match ← world.heap.read ezcfg with
  | .context none nvram => some ⟨nvram, none⟩
  | .context (some p) nvram =>
    match ← world.heap.read p with
    | .buffer buffer => some ⟨nvram, some buffer⟩
    | _ => none
  | _ => none

/-- The stores of a context that is returned, and what they become when entries of the RAM store
are set. -/
inductive Reached : Stores → Prop
  | created {steps : Steps} {text : Option Json.Text} {start after : World} {ezcfg : Ptr}
      {stores : Stores} (idle : Idle start)
      (made : ezcfgNew steps text start = some (some ezcfg, after))
      (holds : storesOf after ezcfg = some stores) : Reached stores
  | set {nvram after : Ram} {metaNvram : Option Buffer} {name value : CString}
      {grants : RamNvram.Grants} {ret : Int} (reached : Reached ⟨some nvram, metaNvram⟩)
      (changed : RamNvram.nvramSetEntry nvram name value grants = some (ret, after)) :
      Reached ⟨some after, metaNvram⟩

/-- The META buffer holds strings; and where there is a RAM store, its slots hold entries and the
META buffer is there. -/
structure Sound (stores : Stores) : Prop where
  strings : ∀ buffer, stores.metaNvram = some buffer → HoldsStrings buffer
  entries : ∀ ram, stores.nvram = some ram →
    ∃ live tail entries, RamNvram.Represents ram live tail entries ∧ 0 < ram.nvram.nodeListSize
  both : stores.nvram ≠ none → ∃ buffer, stores.metaNvram = some buffer

/-- A context is returned where the text is NULL, or the stores are made. -/
theorem new_returned {steps : Steps} {text : Option Json.Text} {start after : World} {ezcfg : Ptr}
    (idle : Idle start) (made : ezcfgNew steps text start = some (some ezcfg, after)) :
    storesOf after ezcfg = some ⟨none, none⟩ ∨
      ∃ metaNvram nvram, after.heap.read ezcfg = some (.context (some metaNvram) nvram) ∧
        Stocked start.counted after metaNvram nvram := by
  have released {world : World} {p : Option Ptr}
      (made : (world.free p).bind (fun left => some (none, left)) =
        some (some ezcfg, after)) : False := by
    obtain ⟨left, -, same⟩ := Option.bind_eq_some_iff.mp made
    cases same
  by_cases context : steps.context = true
  case neg =>
    rw [new_refused context text idle] at made
    cases made
  by_cases lock : steps.lock = true
  case neg =>
    rw [new_not_locked context lock text idle] at made
    exact (released made).elim
  by_cases unlock : steps.unlock = true
  case neg =>
    rw [new_not_unlocked context lock unlock text idle] at made
    exact (released made).elim
  cases text with
  | none =>
    left
    rw [new_counts context lock unlock none idle] at made
    obtain ⟨same, rfl⟩ := Prod.mk.inj (Option.some.inj made)
    obtain rfl := Option.some.inj same
    rw [storesOf]
    exact bind_of_some (Heap.read_alloc start.heap (.context none none))
  | some text =>
    right
    by_cases fillable : Fillable steps text
    · obtain ⟨metaNvram, nvram, world, done, -, read, ⟨fresh, held, empty⟩⟩ :=
        new_fills context lock unlock fillable idle
      obtain ⟨same, rfl⟩ := Prod.mk.inj (Option.some.inj (done.symm.trans made))
      obtain rfl := Option.some.inj same
      exact ⟨metaNvram, nvram, read, fresh, held, empty⟩
    · rw [new_asserts context lock unlock fillable idle] at made
      cases made

/-- The stores that are reached are sound. -/
theorem sound_of_reached {stores : Stores} (reached : Reached stores) : Sound stores := by
  induction reached with
  | created idle made holds =>
    rcases new_returned idle made with bare | ⟨metaNvram, nvram, read, ⟨-, stored, empty⟩⟩
    · obtain rfl := Option.some.inj (bare.symm.trans holds)
      refine ⟨?_, ?_, ?_⟩
      · intro buffer is
        cases is
      · intro ram is
        cases is
      · intro is
        exact absurd rfl is
    · obtain ⟨buffer, live, held⟩ := stored
      rw [storesOf, bind_of_some read] at holds
      dsimp only at holds
      rw [bind_of_some live] at holds
      obtain rfl := Option.some.inj holds
      refine ⟨?_, ?_, ?_⟩
      · intro other is
        rw [← Option.some.inj is]
        exact held
      · intro ram is
        obtain ⟨size, positive, rfl⟩ := empty ram is
        obtain ⟨nodes, tail, entries, image, -, large⟩ := RamNvram.fresh_counted size positive
        exact ⟨nodes, tail, entries, image, large⟩
      · intro _
        exact ⟨buffer, rfl⟩
  | set reached changed inductionHypothesis =>
    obtain ⟨strings, stored, both⟩ := inductionHypothesis
    refine ⟨strings, ?_, ?_⟩
    · intro ram is
      obtain rfl := Option.some.inj is
      obtain ⟨live, tail, entries, image, positive⟩ := stored _ rfl
      obtain ⟨ret, after, done, live', tail', entries', result, size, -⟩ :=
        RamNvram.set_keeps image positive _ _ _
      obtain ⟨-, rfl⟩ := Prod.mk.inj (Option.some.inj (done.symm.trans changed))
      refine ⟨live', tail', entries', result, ?_⟩
      rw [size]
      exact positive
    · intro _
      apply both
      intro none
      cases none

/-! ## Lookups -/

/-- A lookup in a RAM store whose slots hold entries has a result. -/
theorem ram_get_ends {ram : Ram} {live tail : List RamNvram.NvramNode}
    {entries : List RamNvram.Entry} (image : RamNvram.Represents ram live tail entries)
    (name : CString) (granted : Bool) : Ends (nvramGetEntryValue ram name granted none) := by
  obtain ⟨i, ⟨found, inside⟩ | ⟨missed, -⟩⟩ := image.lists.find_ends name
  · have points := image.lists.points.get (image.lists.length_eq ▸ inside) inside
    have inLive : i < live.length := image.lists.length_eq ▸ inside
    have slot : ram.nvram.nodeList[i]? = some live[i] := by
      rw [image.layout, List.getElem?_append_left inLive, List.getElem?_eq_getElem inLive]
    simp only [List.get_eq_getElem] at points
    rw [nvramGetEntryValue, bind_of_some found]
    generalize entries[i] = entry at points
    generalize live[i] = np at points slot
    cases points with
    | intro nameLive valueLive =>
      simp only [if_true, Int.toNat_natCast, slot, Option.bind_eq_bind, Option.bind_some, valueLive]
      cases granted with
      | true =>
        left
        exact ⟨_, rfl⟩
      | false =>
        right
        rfl
  · right
    rw [nvramGetEntryValue, missed]
    rfl

/-- With a RAM store the lookup of a pair is the lookup of its name, and it ends. -/
theorem lookUp_eq {stores : Stores} (sound : Sound stores) (present : stores.nvram ≠ none)
    (grants : CopyGrants) (name : CString) :
    lookUp stores grants name = ezcfgCommonGetNvramEntryValue stores grants name ∧
      Ends (ezcfgCommonGetNvramEntryValue stores grants name) := by
  obtain ⟨nvram, metaNvram⟩ := stores
  obtain ⟨ram, rfl⟩ := Option.ne_none_iff_exists'.mp present
  obtain ⟨buffer, rfl⟩ := sound.both present
  obtain ⟨live, tail, entries, image, -⟩ := sound.entries ram rfl
  rw [lookUp, ezcfgCommonGetNvramEntryValue, bind_of_some rfl]
  rcases ram_get_ends image name grants.nvram with ⟨value, got⟩ | missed
  · have first : getNvramValue (some ram) name grants.nvram = some (retOk, some value.bytes) := by
      rw [getNvramValue]
      exact bind_of_some got
    rw [bind_of_some got, bind_of_some first]
    constructor
    · rfl
    · left
      exact ⟨value.bytes, rfl⟩
  · have first : getNvramValue (some ram) name grants.nvram = some (retFail, none) := by
      rw [getNvramValue]
      exact bind_of_some missed
    rw [bind_of_some missed, bind_of_some first]
    dsimp only
    rw [if_neg (by decide), bind_of_some rfl, if_neg (by decide), bind_of_some rfl]
    rcases get_ends (sound.strings buffer rfl) name grants.metaNvram with ⟨value, found⟩ | none
    · rw [bind_of_some found, found]
      constructor
      · rfl
      · left
        exact ⟨value, rfl⟩
    · rw [bind_of_some none, none]
      constructor
      · rfl
      · right
        rfl

/-! ## Lists of names -/

/-- The lookup of the name of a pair succeeds, and the pair is left with the value. -/
def Filled (stores : Stores) (entry : NvPairs.NvPair × CopyGrants) (data : NvPairs.NvPair) : Prop :=
  ∃ name value, nameOf entry.1 = some name ∧
    ezcfgCommonGetNvramEntryValue stores entry.2 name = some (retOk, some value) ∧
    data = { entry.1 with v := some (Area.ofString value) }

/-- No assertion fails, in the lookups of the names or in that of the list; and this succeeds
just when those do, with their values. -/
def BatchAgrees (stores : Stores) (list : List (NvPairs.NvPair × CopyGrants)) : Prop :=
  (∀ entry ∈ list, ∀ name, nameOf entry.1 = some name →
    ezcfgCommonGetNvramEntryValue stores entry.2 name ≠ none) ∧
  ∃ ret after, ezcfgCommonGetNvramEntries stores list = some (ret, after) ∧
    (ret = retOk ↔ ∀ entry ∈ list, ∃ data, Filled stores entry data) ∧
    (ret = retOk → List.Forall₂ (Filled stores) list after)

/-- A pair is filled where the lookup of its name succeeds. -/
theorem getEntry_cases {stores : Stores} (sound : Sound stores) (present : stores.nvram ≠ none)
    (entry : NvPairs.NvPair × CopyGrants) {name : CString} (named : nameOf entry.1 = some name) :
    (∃ data, getEntry stores entry.2 entry.1 = some (retOk, data) ∧ Filled stores entry data) ∨
      (∃ data, getEntry stores entry.2 entry.1 = some (retFail, data)) ∧
        ∀ data, ¬ Filled stores entry data := by
  obtain ⟨same, ends⟩ := lookUp_eq sound present entry.2 name
  obtain ⟨n, has, -⟩ := Option.bind_eq_some_iff.mp named
  rw [getEntry_named has, named, Option.bind_some, same]
  rcases ends with ⟨value, found⟩ | missed
  · left
    refine ⟨{ entry.1 with v := some (Area.ofString value) }, ?_, name, value, named, found, rfl⟩
    rw [found]
    rfl
  · right
    constructor
    · rw [missed]
      exact ⟨_, rfl⟩
    · rintro data ⟨name', value, named', found, -⟩
      obtain rfl := Option.some.inj (named.symm.trans named')
      rw [missed] at found
      cases found

/-- With a RAM store the list is filled up to the first name that is not found. -/
theorem getEntries_cases {stores : Stores} (sound : Sound stores) (present : stores.nvram ≠ none)
    {list : List (NvPairs.NvPair × CopyGrants)} (named : ∀ entry ∈ list, nameOf entry.1 ≠ none) :
    (∃ filled, getEntries stores list = some (retOk, filled, []) ∧
        List.Forall₂ (Filled stores) list filled) ∨
      (∃ filled others, getEntries stores list = some (retFail, filled, others)) ∧
        ∃ entry ∈ list, ∀ data, ¬ Filled stores entry data := by
  induction list with
  | nil =>
    left
    exact ⟨[], rfl, .nil⟩
  | cons first rest inductionHypothesis =>
    obtain ⟨name, is⟩ := Option.ne_none_iff_exists'.mp (named first List.mem_cons_self)
    have later : ∀ entry ∈ rest, nameOf entry.1 ≠ none := by
      intro entry member
      exact named entry (List.mem_cons_of_mem first member)
    rcases getEntry_cases sound present first is with ⟨data, got, fills⟩ | ⟨⟨data, got⟩, fails⟩
    · rcases inductionHypothesis later with ⟨filled, run, all⟩ | ⟨⟨filled, others, run⟩, fails⟩
      · left
        refine ⟨data :: filled, ?_, .cons fills all⟩
        rw [getEntries, bind_of_some got]
        dsimp only
        rw [if_neg (by decide), bind_of_some run]
        rfl
      · right
        constructor
        · refine ⟨data :: filled, others, ?_⟩
          rw [getEntries, bind_of_some got]
          dsimp only
          rw [if_neg (by decide), bind_of_some run]
          rfl
        · obtain ⟨entry, member, none⟩ := fails
          exact ⟨entry, List.mem_cons_of_mem first member, none⟩
    · right
      constructor
      · refine ⟨[], data :: rest.map Prod.fst, ?_⟩
        rw [getEntries, bind_of_some got]
        dsimp only
        rw [if_pos (by decide)]
        rfl
      · exact ⟨first, List.mem_cons_self, fails⟩

/-- Where a list is filled, each of its pairs is. -/
theorem filled_of_all {stores : Stores} {list : List (NvPairs.NvPair × CopyGrants)}
    {filled : List NvPairs.NvPair} (all : List.Forall₂ (Filled stores) list filled) :
    ∀ entry ∈ list, ∃ data, Filled stores entry data := by
  induction all with
  | nil =>
    intro entry member
    cases member
  | cons fills _ inductionHypothesis =>
    intro entry member
    rcases List.mem_cons.mp member with rfl | later
    · exact ⟨_, fills⟩
    · exact inductionHypothesis entry later

/-- A context that is made without a text has no stores. -/
theorem bare_reached : Reached ⟨none, none⟩ := by
  have made : ezcfgNew allSucceed none World.fresh =
      some (some 0, { World.fresh.counted with thisEzcfg := some 0 }) := rfl
  exact .created ⟨rfl, rfl, rfl⟩ made rfl

/-- A pair for the name of one letter. -/
def letterPair : NvPairs.NvPair := ⟨some (Area.ofString letter.bytes), none, 2, 0⟩

/-- The brackets are no terminators. -/
theorem brackets_nonul : (0 : UInt8) ∉ ([0x7b, 0x7d] : List UInt8) := by decide

/-- Two brackets are no long text. -/
theorem brackets_short : ([0x7b, 0x7d] : List UInt8).length < 2 ^ 31 := by decide

/-- The text of an empty object. -/
def emptyObject : Json.Text := ⟨[0x7b, 0x7d], brackets_nonul, brackets_short⟩

end Ezcfg.Context

import Ezcfg.Foundation.Runs
import Ezcfg.RamNvram.Operations

/-!
# The table as a finite map

The map a table should stand for is kept beside it: it changes with every call
that reports success. `demand` says what each call must answer, `MapsTo` relates
the two, and one step lemma for each call keeps the relation as long as the
search does not miss and a removal leaves at most one live slot behind the
removed one. The map is then followed along every run of such calls.

Allocations succeed here; what a refused one leaves behind is in the layout
invariant.
-/

namespace Ezcfg.RamNvram

open Foundation
open Foundation.SortedTable (keys Sorted rank valueOf)

/-- A finite map from names to values. -/
abbrev Contents := CString → Option CString

/-- What a call must answer, given the map before it. -/
def demand (contents : Contents) (ram : Ram) : Request → Answer → Ram → Prop
  | .set name _, answer, after =>
    (answer.ret = retFail ↔
      contents name = none ∧ ram.nvram.nodeListUsed = ram.nvram.nodeListSize) ∧
    (answer.ret = retFail → after = ram)
  | .unset name, answer, _ => answer.ret = retOk ↔ contents name ≠ none
  | .get name, answer, _ =>
    match contents name with
    | some value => answer.ret = retOk ∧ answer.value = some value
    | none => answer.ret = retFail

instance (contents : Contents) (ram : Ram) (request : Request) (answer : Answer) (after : Ram) :
    Decidable (demand contents ram request answer after) :=
  match request with
  | .set name _ => inferInstanceAs (Decidable
      ((answer.ret = retFail ↔
        contents name = none ∧ ram.nvram.nodeListUsed = ram.nvram.nodeListSize) ∧
      (answer.ret = retFail → after = ram)))
  | .unset name => inferInstanceAs (Decidable (answer.ret = retOk ↔ contents name ≠ none))
  | .get name =>
    match looked : contents name with
    | some value => decidable_of_iff (answer.ret = retOk ∧ answer.value = some value)
        (by simp only [demand, looked])
    | none => decidable_of_iff (answer.ret = retFail) (by simp only [demand, looked])

/-- The map after a call: sets and unsets count when they report success. -/
def update (contents : Contents) : Request → Answer → Contents
  | .set name value, answer =>
    if answer.ret = retOk then Function.update contents name (some value) else contents
  | .unset name, answer =>
    if answer.ret = retOk then Function.update contents name none else contents
  | .get _, _ => contents

/-- One call for which every allocation succeeds. -/
def Ram.call (ram : Ram) (request : Request) : Option (Answer × Ram) := ram.serve .full request

/-- Every call of a run on a new table is answered as the finite map demands. -/
def FollowsMap (nodeListSize : Nat) (requests : List Request) : Prop :=
  Follows Ram.call demand update (fun _ => none) (Ram.fresh nodeListSize) requests

instance (nodeListSize : Nat) (requests : List Request) :
    Decidable (FollowsMap nodeListSize requests) :=
  inferInstanceAs (Decidable (Follows Ram.call demand update _ _ _))

/-- The live names, none when one of them cannot be read. -/
def Ram.names (ram : Ram) : List CString := ram.liveNames.getD []

/-- A name that is present sits in a slot the halving reaches. -/
def Finds (names : List CString) (name : CString) : Prop :=
  name ∈ names → Probed 0 names.length (rank names name)

instance (names : List CString) (name : CString) : Decidable (Finds names name) :=
  inferInstanceAs (Decidable (_ → _))

/-- A name that is absent has an insertion point the halving lands on. -/
def Inserts (names : List CString) (name : CString) : Prop :=
  name ∉ names → names = [] ∨ Lands 0 names.length (rank names name)

instance (names : List CString) (name : CString) : Decidable (Inserts names name) :=
  inferInstanceAs (Decidable (_ → _))

/-- The calls that behave as on a finite map: the search reaches the wanted slot,
an insertion has its place, and a removal leaves at most one live slot behind. -/
def mapSafe (ram : Ram) : Request → Prop
  | .set name _ => Finds ram.names name ∧
      (Inserts ram.names name ∨ ram.nvram.nodeListUsed = ram.nvram.nodeListSize)
  | .unset name => Finds ram.names name ∧
      (name ∈ ram.names → ram.names.length ≤ rank ram.names name + 2)
  | .get name => Finds ram.names name

instance (ram : Ram) (request : Request) : Decidable (mapSafe ram request) :=
  match request with
  | .set name _ => inferInstanceAs (Decidable (Finds ram.names name ∧
      (Inserts ram.names name ∨ ram.nvram.nodeListUsed = ram.nvram.nodeListSize)))
  | .unset name => inferInstanceAs (Decidable (Finds ram.names name ∧
      (name ∈ ram.names → ram.names.length ≤ rank ram.names name + 2)))
  | .get name => inferInstanceAs (Decidable (Finds ram.names name))

/-- The table holds its entries in order, and they are the map. -/
def MapsTo (contents : Contents) (ram : Ram) : Prop :=
  ∃ live tail entries, Represents ram live tail entries ∧ Sorted entries ∧
    contents = valueOf entries ∧ 0 < ram.nvram.nodeListSize

/-- A represented table has the names of its entries. -/
theorem Represents.names_eq {ram : Ram} {live tail : List NvramNode} {entries : List Entry}
    (image : Represents ram live tail entries) : ram.names = keys entries := by
  simp only [Ram.names, image.lists.liveNames_eq, Option.getD_some]

/-- A new table stands for the empty map. -/
theorem fresh_mapsTo (nodeListSize : Nat) (positive : 0 < nodeListSize) :
    MapsTo (fun _ => none) (Ram.fresh nodeListSize) := by
  refine ⟨[], List.replicate nodeListSize .empty, [], ⟨rfl, rfl, .nil, by simp [owned]⟩,
    .nil, rfl, ?_⟩
  simpa [Nvram.nodeListSize, Ram.fresh] using positive

/-- No operation changes the size of the table. -/
theorem size_kept {before after : Ram} {live live' tail tail' : List NvramNode}
    {entries entries' : List Entry} (image : Represents before live tail entries)
    (result : Represents after live' tail' entries')
    (same : entries'.length + tail'.length = entries.length + tail.length) :
    after.nvram.nodeListSize = before.nvram.nodeListSize := by
  rw [image.lists.size_eq, result.lists.size_eq, same]

/-- A call to set answers as the map demands. -/
theorem set_step {contents : Contents} {ram : Ram} (name value : CString)
    (linked : MapsTo contents ram) (safe : mapSafe ram (.set name value)) :
    ∃ answer after, ram.call (.set name value) = some (answer, after) ∧
      demand contents ram (.set name value) answer after ∧
      MapsTo (update contents (.set name value) answer) after := by
  obtain ⟨live, tail, entries, image, sorted, rfl, positive⟩ := linked
  obtain ⟨finds, inserts⟩ := safe
  rw [image.names_eq] at finds inserts
  simp only [Finds, Inserts, SortedTable.keys_length, SortedTable.keys_eq_nil_iff] at finds inserts
  by_cases present : name ∈ keys entries
  · have held : valueOf entries name ≠ none := fun gone =>
      (SortedTable.valueOf_eq_none_iff entries name).mp gone present
    rcases image.set_present sorted present (finds present) value .full with
      ⟨after, live', done, result⟩ | ⟨refused, -⟩
    · refine ⟨⟨retOk, none⟩, after, by simp [Ram.call, Ram.serve, done], ?_, ?_⟩
      · simp [demand, held, retOk, retFail]
      · refine ⟨live', tail, _, result, ?_, ?_, ?_⟩
        · rw [Sorted, SortedTable.keys_set sorted present value]
          exact sorted
        · simp only [update, if_true, SortedTable.valueOf_set sorted present value]
        · rwa [size_kept image result (by simp)]
    · exact absurd rfl refused
  · have missing : valueOf entries name = none :=
      (SortedTable.valueOf_eq_none_iff entries name).mpr present
    cases tail with
    | nil =>
      have full : ram.nvram.nodeListUsed = ram.nvram.nodeListSize := by
        rw [image.lists.used_eq, image.lists.size_eq]
        rfl
      have inUse := image.in_use positive
      obtain ⟨i, missed⟩ := (image.lists.find_absent sorted present).1
      have refused := image.set_full missed inUse value .full
      refine ⟨⟨retFail, none⟩, ram, by simp [Ram.call, Ram.serve, refused], ?_, ?_⟩
      · simp [demand, missing, full]
      · exact ⟨live, [], entries, image, sorted, by simp [update, retOk, retFail], positive⟩
    | cons spare rest =>
      have roomy : ram.nvram.nodeListUsed ≠ ram.nvram.nodeListSize := by
        rw [image.lists.used_eq, image.lists.size_eq, List.length_cons]
        omega
      have lands := (inserts.resolve_right roomy) present
      rcases image.set_absent sorted present lands value .full with
        ⟨after, live', done, result⟩ | ⟨refused, -⟩
      · refine ⟨⟨retOk, none⟩, after, by simp [Ram.call, Ram.serve, done], ?_, ?_⟩
        · simp [demand, roomy, retOk, retFail]
        · refine ⟨live', rest, _, result, SortedTable.sorted_insertIdx sorted present value, ?_, ?_⟩
          · simp only [update, if_true, SortedTable.valueOf_insertIdx sorted present value]
          · rwa [size_kept image result (by
              rw [List.length_insertIdx_of_le_length (SortedTable.rank_le_entries entries name),
                List.length_cons]
              omega)]
      · exact absurd rfl refused

/-- A call to unset answers as the map demands. -/
theorem unset_step {contents : Contents} {ram : Ram} (name : CString)
    (linked : MapsTo contents ram) (safe : mapSafe ram (.unset name)) :
    ∃ answer after, ram.call (.unset name) = some (answer, after) ∧
      demand contents ram (.unset name) answer after ∧
      MapsTo (update contents (.unset name) answer) after := by
  obtain ⟨live, tail, entries, image, sorted, rfl, positive⟩ := linked
  obtain ⟨finds, near⟩ := safe
  rw [image.names_eq] at finds near
  simp only [Finds, SortedTable.keys_length] at finds near
  by_cases present : name ∈ keys entries
  · have held : valueOf entries name ≠ none := fun gone =>
      (SortedTable.valueOf_eq_none_iff entries name).mp gone present
    have probed := finds present
    obtain ⟨after, live', ghost, done, result, -⟩ :=
      image.unset_present sorted present probed (near present)
    refine ⟨⟨retOk, none⟩, after, by simp [Ram.call, Ram.serve, done], ?_, ?_⟩
    · simp [demand, held]
    · refine ⟨live', ghost :: tail, _, result, SortedTable.sorted_eraseIdx sorted _, ?_, ?_⟩
      · simp only [update, if_true, SortedTable.valueOf_eraseIdx sorted present]
      · rwa [size_kept image result (by
          have bounds := probed_bounds probed
          rw [List.length_eraseIdx_of_lt bounds.2, List.length_cons]
          omega)]
  · have missing : valueOf entries name = none :=
      (SortedTable.valueOf_eq_none_iff entries name).mpr present
    have refused := image.unset_absent sorted present
    refine ⟨⟨retFail, none⟩, ram, by simp [Ram.call, Ram.serve, refused], ?_, ?_⟩
    · simp [demand, missing, retOk, retFail]
    · exact ⟨live, tail, entries, image, sorted, by simp [update, retOk, retFail], positive⟩

/-- A lookup answers as the map demands and changes nothing. -/
theorem get_step {contents : Contents} {ram : Ram} (name : CString)
    (linked : MapsTo contents ram) (safe : mapSafe ram (.get name)) :
    ∃ answer after, ram.call (.get name) = some (answer, after) ∧
      demand contents ram (.get name) answer after ∧
      MapsTo (update contents (.get name) answer) after := by
  obtain ⟨live, tail, entries, image, sorted, rfl, positive⟩ := linked
  have finds : Finds (keys entries) name := image.names_eq ▸ safe
  simp only [Finds, SortedTable.keys_length] at finds
  have still : MapsTo (valueOf entries) ram := ⟨live, tail, entries, image, sorted, rfl, positive⟩
  by_cases present : name ∈ keys entries
  · have looked := image.get_present sorted present (finds present) none
    refine ⟨⟨retOk, valueOf entries name⟩, ram, by simp [Ram.call, Ram.serve, Grants.full, looked],
      ?_, still⟩
    cases value : valueOf entries name with
    | none => exact absurd present ((SortedTable.valueOf_eq_none_iff entries name).mp value)
    | some value => simp [demand, value]
  · have missing : valueOf entries name = none :=
      (SortedTable.valueOf_eq_none_iff entries name).mpr present
    have missed := image.get_absent sorted present true none
    refine ⟨⟨retFail, none⟩, ram, by simp [Ram.call, Ram.serve, Grants.full, missed], ?_, still⟩
    simp [demand, missing]

/-- Every safe call answers as the map demands and keeps the relation. -/
theorem call_step {contents : Contents} {ram : Ram} (request : Request)
    (linked : MapsTo contents ram) (safe : mapSafe ram request) :
    ∃ answer after, ram.call request = some (answer, after) ∧
      demand contents ram request answer after ∧ MapsTo (update contents request answer) after := by
  cases request with
  | set name value => exact set_step name value linked safe
  | unset name => exact unset_step name linked safe
  | get name => exact get_step name linked safe

/-- A table of any size behaves as a finite map along every run of safe calls. -/
theorem followsMap_of_safe (nodeListSize : Nat) (positive : 1 ≤ nodeListSize)
    (requests : List Request) (safe : Guarded Ram.call mapSafe (Ram.fresh nodeListSize) requests) :
    FollowsMap nodeListSize requests := by
  refine follows_of_guarded MapsTo ?_ requests _ _ (fresh_mapsTo nodeListSize positive) safe
  intro contents ram request linked permitted
  exact call_step request linked permitted

/-- A name set after a smaller one is put in front of it and never found again. -/
theorem not_followsMap : ¬ FollowsMap 4
    [.set (.single 97 (by decide)) (.single 120 (by decide)),
      .set (.single 98 (by decide)) (.single 121 (by decide)),
      .get (.single 98 (by decide))] := by
  decide +kernel

theorem followsMap_replaced : FollowsMap 4
    [.set (.single 98 (by decide)) (.single 120 (by decide)),
      .set (.single 97 (by decide)) (.single 121 (by decide)),
      .get (.single 98 (by decide)), .unset (.single 98 (by decide)),
      .set (.single 97 (by decide)) (.single 122 (by decide)),
      .get (.single 97 (by decide)), .get (.single 98 (by decide))] :=
  followsMap_of_safe 4 (by decide) _ (by decide +kernel)

end Ezcfg.RamNvram

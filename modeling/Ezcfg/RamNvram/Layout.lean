import Ezcfg.RamNvram.FiniteMap

/-!
# The layout of the table along runs

The destructor and the listing stop at the first slot without a name, so they
rely on three facts kept together: the live names increase, there are as many as
the counter says, and the slots behind them are empty. `WellFormed` states them
on the table itself; `Compact` is the same through the entries, and is what one
change keeps.

Any copy may be refused memory. Such a change is refused as a whole and keeps the
layout, wherever the search ended.
-/

namespace Ezcfg.RamNvram

open Foundation
open Foundation.SortedTable (keys Sorted rank)

/-- One set or unset call, with what the memory allocator grants it. -/
inductive Change where
  | set (name value : CString) (grants : Grants)
  | unset (name : CString)
deriving DecidableEq

/-- Perform one change. -/
def Ram.change (ram : Ram) : Change → Option (Int × Ram)
  | .set name value grants => nvramSetEntry ram name value grants
  | .unset name => nvramUnsetEntry ram name

/-- What every reachable table should look like. -/
structure WellFormed (ram : Ram) : Prop where
  bounded : ram.nvram.nodeListUsed ≤ ram.nvram.nodeListSize
  named : ram.liveNames.isSome
  counted : ram.names.length = ram.nvram.nodeListUsed
  increasing : ram.names.Pairwise fun first second => strcmp first.bytes second.bytes = .lt
  emptied : ∀ np ∈ ram.nvram.nodeList.drop ram.nvram.nodeListUsed,
    np.name = none ∧ np.value = none
  visited : visitedSlots ram = List.range ram.nvram.nodeListUsed
  deleted : (localNvramDel ram).isSome

instance (ram : Ram) : Decidable (WellFormed ram) :=
  decidable_of_iff
    (ram.nvram.nodeListUsed ≤ ram.nvram.nodeListSize ∧ ram.liveNames.isSome ∧
      ram.names.length = ram.nvram.nodeListUsed ∧
      ram.names.Pairwise (fun first second => strcmp first.bytes second.bytes = .lt) ∧
      (∀ np ∈ ram.nvram.nodeList.drop ram.nvram.nodeListUsed, np.name = none ∧ np.value = none) ∧
      visitedSlots ram = List.range ram.nvram.nodeListUsed ∧ (localNvramDel ram).isSome)
    ⟨fun ⟨bounded, named, counted, increasing, emptied, visited, deleted⟩ =>
      ⟨bounded, named, counted, increasing, emptied, visited, deleted⟩,
      fun formed => ⟨formed.bounded, formed.named, formed.counted, formed.increasing,
        formed.emptied, formed.visited, formed.deleted⟩⟩

/-- The changes that keep the layout: a set that finds its name, inserts it in its
place, meets a full table or is refused memory; an unset that does not find its
name, or finds it in the last live slot. -/
def layoutSafe (ram : Ram) : Change → Prop
  | .set name _ grants => (Finds ram.names name ∧ Inserts ram.names name) ∨
      ram.nvram.nodeListUsed = ram.nvram.nodeListSize ∨
      ¬ (grants.name = true ∧ grants.value = true)
  | .unset name => name ∈ ram.names → Probed 0 ram.names.length (rank ram.names name) →
      rank ram.names name + 1 = ram.names.length

instance (ram : Ram) (change : Change) : Decidable (layoutSafe ram change) :=
  match change with
  | .set name _ grants => inferInstanceAs (Decidable
      ((Finds ram.names name ∧ Inserts ram.names name) ∨
        ram.nvram.nodeListUsed = ram.nvram.nodeListSize ∨
        ¬ (grants.name = true ∧ grants.value = true)))
  | .unset _ => inferInstanceAs (Decidable (_ → _ → _))

/-- The live slots hold ordered entries and the slots behind them are empty. -/
def Compact (ram : Ram) : Prop :=
  ∃ live tail entries, Represents ram live tail entries ∧ Sorted entries ∧
    (∀ np ∈ tail, np = .empty) ∧ 0 < ram.nvram.nodeListSize

/-- Nodes that hold entries have names. -/
theorem named_of_holds {memory : Memory} {nodes : List NvramNode} {entries : List Entry}
    (holds : List.Forall₂ (Holds memory) nodes entries) : ∀ np ∈ nodes, np.name.isSome = true := by
  induction holds with
  | nil => simp
  | cons here _ inductionHypothesis =>
    intro np member
    rcases List.mem_cons.mp member with rfl | later
    · cases here with
      | intro nameLive valueLive room sized => rfl
    · exact inductionHypothesis np later

/-- The visited slots are the live ones when the slots behind them are empty. -/
theorem takeWhile_named {live tail : List NvramNode}
    (named : ∀ np ∈ live, np.name.isSome = true) (empties : ∀ np ∈ tail, np = .empty) :
    (live ++ tail).takeWhile (fun np => np.name.isSome) = live := by
  rw [List.takeWhile_append_of_pos named]
  cases tail with
  | nil => simp
  | cons np rest =>
    obtain rfl := empties np List.mem_cons_self
    simp [NvramNode.empty]

/-- A compact table has the layout on which the destructor and the listing rely. -/
theorem wellFormed_of_compact {ram : Ram} (compact : Compact ram) : WellFormed ram := by
  obtain ⟨live, tail, entries, image, sorted, empties, -⟩ := compact
  have dropped : ram.nvram.nodeList.drop ram.nvram.nodeListUsed = tail := by
    rw [image.layout, image.used, List.drop_left]
  constructor
  · rw [image.lists.used_eq, image.lists.size_eq]
    exact Nat.le_add_right _ _
  · rw [image.lists.liveNames_eq]
    rfl
  · rw [image.names_eq, image.lists.used_eq, SortedTable.keys_length]
  · rw [image.names_eq]
    exact sorted
  · rw [dropped]
    intro np member
    obtain rfl := empties np member
    exact ⟨rfl, rfl⟩
  · rw [visitedSlots, image.layout, takeWhile_named (named_of_holds image.holds) empties,
      image.used]
  · obtain ⟨after, cleaned⟩ := cleanSlots_spec live tail image.holds image.distinct empties
    rw [localNvramDel, image.layout, cleaned]
    rfl

/-- A new table is compact. -/
theorem fresh_compact (nodeListSize : Nat) (positive : 0 < nodeListSize) :
    Compact (Ram.fresh nodeListSize) := by
  refine ⟨[], List.replicate nodeListSize .empty, [], ⟨rfl, rfl, .nil, by simp [owned]⟩,
    .nil, fun np member => List.eq_of_mem_replicate member, ?_⟩
  simpa [Nvram.nodeListSize, Ram.fresh] using positive

/-- A permitted set keeps the layout, whether it succeeds or not. -/
theorem set_compact {ram : Ram} (name value : CString) (grants : Grants) (compact : Compact ram)
    (safe : layoutSafe ram (.set name value grants)) :
    ∃ ret after, ram.change (.set name value grants) = some (ret, after) ∧ Compact after := by
  obtain ⟨live, tail, entries, image, sorted, empties, positive⟩ := compact
  have still : ∀ after, Represents after live tail entries → Compact after := fun after result =>
    ⟨live, tail, entries, result, sorted, empties, by rwa [size_kept image result rfl]⟩
  simp only [layoutSafe, image.names_eq, Finds, Inserts, SortedTable.keys_length,
    SortedTable.keys_eq_nil_iff] at safe
  by_cases found : name ∈ keys entries ∧ Probed 0 entries.length (rank (keys entries) name)
  · obtain ⟨present, probed⟩ := found
    rcases image.set_present sorted present probed value grants with
      ⟨after, live', done, result⟩ | ⟨-, failed⟩
    · refine ⟨retOk, after, done, live', tail, _, result, ?_, empties, ?_⟩
      · rw [Sorted, SortedTable.keys_set sorted present value]
        exact sorted
      · rwa [size_kept image result (by simp)]
    · exact ⟨retFail, ram, failed, still ram image⟩
  · obtain ⟨i, missed⟩ := image.lists.find_missed sorted found
    rcases safe with ⟨finds, inserts⟩ | full | refused
    · have absent : name ∉ keys entries := fun present => found ⟨present, finds present⟩
      cases tail with
      | nil =>
        have inUse := image.in_use positive
        exact ⟨retFail, ram, image.set_full missed inUse value grants, still ram image⟩
      | cons spare rest =>
        rcases image.set_absent sorted absent (inserts absent) value grants with
          ⟨after, live', done, result⟩ | ⟨-, after, failed, result⟩
        · refine ⟨retOk, after, done, live', rest, _, result,
            SortedTable.sorted_insertIdx sorted absent value,
            fun np member => empties np (List.mem_cons_of_mem _ member), ?_⟩
          rwa [size_kept image result (by
            rw [List.length_insertIdx_of_le_length (SortedTable.rank_le_entries entries name),
              List.length_cons]
            omega)]
        · exact ⟨retFail, after, failed, still after result⟩
    · have none_behind : tail = [] := by
        rw [image.lists.used_eq, image.lists.size_eq] at full
        exact List.length_eq_zero_iff.mp (by omega)
      subst none_behind
      have inUse := image.in_use positive
      exact ⟨retFail, ram, image.set_full missed inUse value grants, still ram image⟩
    · obtain ⟨after, failed, result⟩ := image.set_refused missed value grants refused
      exact ⟨retFail, after, failed, still after result⟩

/-- A permitted unset keeps the layout, whether it succeeds or not. -/
theorem unset_compact {ram : Ram} (name : CString) (compact : Compact ram)
    (safe : layoutSafe ram (.unset name)) :
    ∃ ret after, ram.change (.unset name) = some (ret, after) ∧ Compact after := by
  obtain ⟨live, tail, entries, image, sorted, empties, positive⟩ := compact
  simp only [layoutSafe, image.names_eq, SortedTable.keys_length] at safe
  by_cases found : name ∈ keys entries ∧ Probed 0 entries.length (rank (keys entries) name)
  · obtain ⟨present, probed⟩ := found
    have last := safe present probed
    obtain ⟨after, live', ghost, done, result, emptied⟩ :=
      image.unset_present sorted present probed (by omega)
    refine ⟨retOk, after, done, live', ghost :: tail, _, result,
      SortedTable.sorted_eraseIdx sorted _, ?_, ?_⟩
    · intro np member
      rcases List.mem_cons.mp member with rfl | later
      · exact emptied last
      · exact empties np later
    · rwa [size_kept image result (by
        have bounds := probed_bounds probed
        rw [List.length_eraseIdx_of_lt bounds.2, List.length_cons]
        omega)]
  · obtain ⟨i, missed⟩ := image.lists.find_missed sorted found
    refine ⟨retFail, ram, ?_, live, tail, entries, image, sorted, empties, positive⟩
    simp only [Ram.change, nvramUnsetEntry, missed, Option.bind_eq_bind, Option.bind_some,
      Bool.false_eq_true, if_false]

/-- Every table that a new one becomes by permitted changes is well formed. -/
theorem wellFormed_of_safe (nodeListSize : Nat) (positive : 1 ≤ nodeListSize)
    (changes : List Change)
    (safe : Guarded Ram.change layoutSafe (Ram.fresh nodeListSize) changes) :
    Always Ram.change WellFormed (Ram.fresh nodeListSize) changes := by
  refine always_mono (fun _ => wellFormed_of_compact) changes _ ?_
  refine always_of_guarded Compact ?_ changes _ (fresh_compact nodeListSize positive) safe
  intro ram change compact permitted
  cases change with
  | set name value grants => exact set_compact name value grants compact permitted
  | unset name => exact unset_compact name compact permitted

/-- Removing the middle of three names leaves the last one in two slots. -/
theorem not_wellFormed : ¬ Always Ram.change WellFormed (Ram.fresh 4)
    [.set (.single 99 (by decide)) (.single 120 (by decide)) .full,
      .set (.single 97 (by decide)) (.single 121 (by decide)) .full,
      .set (.single 98 (by decide)) (.single 122 (by decide)) .full,
      .unset (.single 98 (by decide))] := by
  decide +kernel

theorem wellFormed_refused : Always Ram.change WellFormed (Ram.fresh 2)
    [.set (.single 98 (by decide)) (.single 120 (by decide)) .full,
      .set (.single 97 (by decide)) (.single 121 (by decide)) ⟨true, false⟩,
      .set (.single 97 (by decide)) (.single 121 (by decide)) .full,
      .set (.single 99 (by decide)) (.single 121 (by decide)) .full,
      .unset (.single 98 (by decide))] :=
  wellFormed_of_safe 2 (by decide) _ (by decide +kernel)

end Ezcfg.RamNvram

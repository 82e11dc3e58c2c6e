import Ezcfg.RamNvram.Layout
import Ezcfg.RamNvram.Removal

/-!
# The lengths kept in the table

Every live node keeps the lengths of its strings with their terminators, and the table keeps
their sum. A value that is written over a longer one leaves the old length in the node and in
the sum; insertion, reallocation and the removal of one entry keep both right, wherever the
search ends and whether the names are in order or not.
-/

namespace Ezcfg.RamNvram

open Foundation

/-- The live nodes have the lengths of their strings, and the total is their sum as a `size_t`
has it. -/
structure Accounted (ram : Ram) : Prop where
  lengths : ∀ np ∈ ram.nvram.nodeList.take ram.nvram.nodeListUsed,
    ∃ entry, np.entry ram.memory = some entry ∧ Measures np entry
  total : ram.nvram.totalSpaceUsed =
    BitVec.ofInt 32 (spaceOf (ram.nvram.nodeList.take ram.nvram.nodeListUsed))

instance (np : NvramNode) (entry : Entry) : Decidable (Measures np entry) :=
  inferInstanceAs (Decidable (_ ∧ _))

instance (ram : Ram) : Decidable (Accounted ram) :=
  decidable_of_iff
    ((∀ np ∈ ram.nvram.nodeList.take ram.nvram.nodeListUsed,
      (np.entry ram.memory).any fun entry => Measures np entry) ∧
        ram.nvram.totalSpaceUsed =
          BitVec.ofInt 32 (spaceOf (ram.nvram.nodeList.take ram.nvram.nodeListUsed)))
    ⟨fun ⟨lengths, total⟩ => ⟨fun np member => by
        obtain ⟨entry, read, measures⟩ := Option.any_eq_true _ _ |>.mp (lengths np member)
        exact ⟨entry, read, of_decide_eq_true measures⟩, total⟩,
      fun accounted => ⟨fun np member => by
        obtain ⟨entry, read, measures⟩ := accounted.lengths np member
        rw [read]
        exact decide_eq_true measures, accounted.total⟩⟩

/-- The changes that keep the lengths right: a set that does not find its name, or replaces a
value that is not longer; an unset that does not find its name, or finds it with at most one
live slot behind it. -/
def lengthSafe (ram : Ram) : Change → Bool
  | .set name value _ =>
    match findNvramEntryPosition ram name with
    | some (i, true) =>
      (ram.nvram.nodeList[i.toNat]?).all fun np => decide (np.vlen ≤ (value.length : Int) + 1)
    | _ => true
  | .unset name =>
    match findNvramEntryPosition ram name with
    | some (i, true) => decide ((ram.nvram.nodeListUsed : Int) ≤ i + 2)
    | _ => true

/-- The live slots hold entries and account for them. -/
def Counted (ram : Ram) : Prop :=
  ∃ live tail entries, Represents ram live tail entries ∧ Accounts ram live entries ∧
    0 < ram.nvram.nodeListSize

/-- The search of a table that lists entries ends at a live position or misses. -/
theorem Lists.find_ends {ram : Ram} {live tail : List NvramNode} {entries : List Entry}
    (image : Lists ram live tail entries) (name : CString) :
    ∃ i : Nat, (findNvramEntryPosition ram name = some ((i : Int), true) ∧ i < entries.length) ∨
      (findNvramEntryPosition ram name = some ((i : Int), false) ∧ i ≤ entries.length) := by
  have inside := halving_inside (Represents.verdict entries name) entries.length
    (entries.length + 1) 0 entries.length (entries.length / 2) (Nat.le_refl _) (Nat.div_le_self _ _)
  have ends := image.find_eq name
  generalize halving (Represents.verdict entries name) (entries.length + 1) 0 entries.length
    (entries.length / 2) = outcome at ends inside
  obtain ⟨i, hit⟩ := outcome
  cases hit with
  | true => exact ⟨i, .inl ⟨ends, image.found_inside ends⟩⟩
  | false => exact ⟨i, .inr ⟨ends, inside⟩⟩

/-- A table that holds entries and accounts for them is accounted for. -/
theorem accounted_of_counted {ram : Ram} (counted : Counted ram) : Accounted ram := by
  obtain ⟨live, tail, entries, image, accounts, -⟩ := counted
  have taken : ram.nvram.nodeList.take ram.nvram.nodeListUsed = live := by
    rw [image.layout, image.used, List.take_left]
  constructor
  · rw [taken]
    have points := image.lists.points
    have lengths := accounts.lengths
    clear accounts image taken
    induction points with
    | nil =>
      intro np member
      cases member
    | cons here _ inductionHypothesis =>
      obtain ⟨measures, others⟩ := List.forall₂_cons.mp lengths
      intro np member
      rcases List.mem_cons.mp member with rfl | later
      · refine ⟨_, ?_, measures⟩
        cases here with
        | intro nameLive valueLive =>
          simp [NvramNode.entry, NvramNode.nameText, nameLive, valueLive]
      · exact inductionHypothesis others np later
  · rw [taken]
    exact accounts.total

/-- A new table accounts for nothing. -/
theorem fresh_counted (nodeListSize : Nat) (positive : 0 < nodeListSize) :
    Counted (Ram.fresh nodeListSize) := by
  refine ⟨[], List.replicate nodeListSize .empty, [], ⟨rfl, rfl, .nil, by simp [owned]⟩,
    ⟨.nil, rfl⟩, ?_⟩
  simpa [Nvram.nodeListSize, Ram.fresh] using positive

section Steps

variable {ram : Ram} {live tail : List NvramNode} {entries : List Entry}

/-- The live slots still hold entries, the table is as large as before, and the entries are
accounted for if they were and the step is safe. -/
def Keeps (ram : Ram) (live : List NvramNode) (entries : List Entry) (safe : Prop)
    (after : Ram) : Prop :=
  ∃ live' tail' entries', Represents after live' tail' entries' ∧
    after.nvram.nodeListSize = ram.nvram.nodeListSize ∧
    (safe → Accounts ram live entries → Accounts after live' entries')

/-- A table that is left as it is keeps its entries. -/
theorem keeps_self (image : Represents ram live tail entries) (safe : Prop) :
    Keeps ram live entries safe ram := by
  refine ⟨live, tail, entries, image, rfl, ?_⟩
  intro _ accounts
  exact accounts

/-- An insertion keeps the entries, whether it succeeds or not. -/
theorem insert_keeps {spare : NvramNode} {rest : List NvramNode}
    (image : Represents ram live (spare :: rest) entries) {i : Nat} (bound : i ≤ entries.length)
    (name value : CString) (grants : Grants) (safe : Prop) :
    ∃ ret after, insertEntry ram i name value grants = some (ret, after) ∧
      Keeps ram live entries safe after := by
  rcases image.insertEntry_spec bound name value grants with
    ⟨after, live', done, result, counted⟩ | ⟨-, after, failed, result, counted⟩
  · refine ⟨retOk, after, done, live', rest, _, result, ?_, ?_⟩
    · apply size_kept image result
      rw [List.length_insertIdx_of_le_length bound, List.length_cons]
      omega
    · intro _ accounts
      exact counted accounts
  · refine ⟨retFail, after, failed, live, _, entries, result, size_kept image result rfl, ?_⟩
    intro _ accounts
    exact counted accounts

/-- A set keeps the entries, and the account where it is permitted. -/
theorem set_keeps (image : Represents ram live tail entries)
    (positive : 0 < ram.nvram.nodeListSize) (name value : CString) (grants : Grants) :
    ∃ ret after, nvramSetEntry ram name value grants = some (ret, after) ∧
      Keeps ram live entries (lengthSafe ram (.set name value grants) = true) after := by
  have roomy : ram.nvram.nodeListUsed ≠ ram.nvram.nodeListSize → ∃ spare rest,
      tail = spare :: rest := by
    intro free
    rw [image.lists.used_eq, image.lists.size_eq] at free
    apply List.exists_cons_of_ne_nil
    rintro rfl
    exact free rfl
  by_cases unused : ram.nvram.nodeListUsed = 0
  · obtain ⟨spare, rest, rfl⟩ := roomy (by omega)
    rw [set_first ram name value grants unused]
    exact insert_keeps image (Nat.zero_le _) name value grants _
  · obtain ⟨i, ⟨found, inside⟩ | ⟨missed, bound⟩⟩ := image.lists.find_ends name
    · have held := List.getElem?_eq_getElem inside
      have inLive : i < live.length := image.lists.length_eq ▸ inside
      have reduced : nvramSetEntry ram name value grants = replaceValue ram i value grants := by
        simp only [nvramSetEntry, unused, if_false, found, Option.bind_eq_bind, Option.bind_some,
          if_true, Int.toNat_natCast]
      have slot : ram.nvram.nodeList[i]? = some live[i] := by
        rw [image.layout, List.getElem?_append_left inLive, List.getElem?_eq_getElem inLive]
      rw [reduced]
      rcases image.replaceValue_spec held value grants with
        ⟨after, live', done, result, kept⟩ | ⟨-, failed⟩
      · refine ⟨retOk, after, done, live', tail, _, result, size_kept image result (by simp), ?_⟩
        intro safe accounts
        have measures := accounts.lengths.get inLive inside
        simp only [List.get_eq_getElem] at measures
        rw [lengthSafe, found] at safe
        simp only [Int.toNat_natCast, slot, Option.all_some, decide_eq_true_eq] at safe
        rw [measures.2] at safe
        exact kept accounts (by omega)
      · exact ⟨retFail, ram, failed, keeps_self image _⟩
    · rw [nvramSetEntry, if_neg unused, missed]
      simp only [Option.bind_eq_bind, Option.bind_some, Bool.false_eq_true, if_false,
        Int.toNat_natCast]
      by_cases full : ram.nvram.nodeListUsed = ram.nvram.nodeListSize
      · rw [if_pos full]
        exact ⟨retFail, ram, rfl, keeps_self image _⟩
      · obtain ⟨spare, rest, rfl⟩ := roomy full
        rw [if_neg full]
        exact insert_keeps image bound name value grants _

/-- A permitted set keeps the account. -/
theorem set_counted (name value : CString) (grants : Grants) (counted : Counted ram)
    (safe : lengthSafe ram (.set name value grants)) :
    ∃ ret after, ram.change (.set name value grants) = some (ret, after) ∧ Counted after := by
  obtain ⟨live, tail, entries, image, accounts, positive⟩ := counted
  obtain ⟨ret, after, done, live', tail', entries', result, size, kept⟩ :=
    set_keeps image positive name value grants
  exact ⟨ret, after, done, live', tail', entries', result, kept safe accounts, by rwa [size]⟩

/-- A permitted unset keeps the account. -/
theorem unset_counted (name : CString) (counted : Counted ram)
    (safe : lengthSafe ram (.unset name)) :
    ∃ ret after, ram.change (.unset name) = some (ret, after) ∧ Counted after := by
  obtain ⟨live, tail, entries, image, accounts, positive⟩ := counted
  obtain ⟨i, ⟨found, inside⟩ | ⟨missed, -⟩⟩ := image.lists.find_ends name
  · have near : entries.length ≤ i + 2 := by
      rw [lengthSafe, found, decide_eq_true_eq, image.lists.used_eq] at safe
      omega
    obtain ⟨after, live', ghost, done, result, -, kept⟩ :=
      image.remove_spec (List.getElem?_eq_getElem inside) near found
    refine ⟨retOk, after, done, live', ghost :: tail, _, result, kept accounts, ?_⟩
    rwa [size_kept image result (by
      rw [List.length_eraseIdx_of_lt inside, List.length_cons]
      omega)]
  · refine ⟨retFail, ram, ?_, live, tail, entries, image, accounts, positive⟩
    simp only [Ram.change, nvramUnsetEntry, missed, Option.bind_eq_bind, Option.bind_some,
      Bool.false_eq_true, if_false]

end Steps

/-- Every table that a new one becomes by permitted changes is accounted for. -/
theorem accounted_of_safe (nodeListSize : Nat) (positive : 1 ≤ nodeListSize)
    (changes : List Change)
    (safe : Guarded Ram.change (fun ram change => lengthSafe ram change = true)
      (Ram.fresh nodeListSize) changes) :
    Always Ram.change Accounted (Ram.fresh nodeListSize) changes := by
  refine always_mono (fun _ => accounted_of_counted) changes _ ?_
  refine always_of_guarded Counted ?_ changes _ (fresh_counted nodeListSize positive) safe
  intro ram change counted permitted
  cases change with
  | set name value grants => exact set_counted name value grants counted permitted
  | unset name => exact unset_counted name counted permitted

/-- A value written over a longer one leaves the old length. -/
theorem not_accounted : ¬ Always Ram.change Accounted (Ram.fresh 1)
    [.set (.single 97 (by decide)) (.single 120 (by decide)) .full,
      .set (.single 97 (by decide)) ⟨[], by decide, by decide⟩ .full] := by
  decide +kernel

/-- Changes that keep the account: one is refused memory, one gets a longer value. -/
theorem accounted_changes : Always Ram.change Accounted (Ram.fresh 2)
    [.set (.single 98 (by decide)) (.single 120 (by decide)) .full,
      .set (.single 97 (by decide)) (.single 121 (by decide)) ⟨true, false⟩,
      .set (.single 97 (by decide)) (.single 121 (by decide)) .full,
      .set (.single 98 (by decide)) ⟨[120, 121], by decide, by decide⟩ .full,
      .unset (.single 98 (by decide))] :=
  accounted_of_safe 2 (by decide) _ (by decide +kernel)

end Ezcfg.RamNvram

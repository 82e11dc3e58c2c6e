import Ezcfg.RamNvram.Updates

/-!
# The operations on a represented table with increasing names

One specification for each function of the source. The search is right only
where the halving reaches the slot of a present name, or lands on the insertion
point of an absent one, so these are the hypotheses; the cases in which an
operation refuses need none of them.
-/

namespace Ezcfg.RamNvram

open Foundation
open Foundation.SortedTable (keys Sorted rank valueOf)

/-- The first entry is an insertion at slot zero. -/
theorem set_first (ram : Ram) (name value : CString) (grants : Grants)
    (unused : ram.nvram.nodeListUsed = 0) :
    nvramSetEntry ram name value grants = insertEntry ram 0 name value grants := by
  obtain ⟨memory, nodeList, used, totalSpaceUsed⟩ := ram
  obtain rfl : used = 0 := unused
  rfl

/-- When a copy is refused memory, the other one is dropped and every block is as
it was. -/
theorem failExit_spec (ram : Ram) (name value : CString) (grants : Grants)
    (refused : ¬ (grants.name = true ∧ grants.value = true)) :
    ∃ tmpName tmpValue between memory after, strdup ram.memory grants.name name =
        (tmpName, between) ∧ strdup between grants.value value = (tmpValue, memory) ∧
      (tmpName = none ∨ tmpValue = none) ∧
      failExit ram memory tmpName tmpValue = some (retFail, { ram with memory := after }) ∧
      ∀ p, after.read p = ram.memory.read p := by
  obtain ⟨nameGranted, valueGranted⟩ := grants
  cases nameGranted with
  | false =>
    cases valueGranted with
    | false => exact ⟨none, none, _, _, ram.memory, rfl, rfl, .inl rfl, rfl, fun _ => rfl⟩
    | true =>
      obtain ⟨after, freed, kept⟩ := ram.memory.alloc_free ⟨value.length + 1, value⟩
      refine ⟨none, some (ram.memory.alloc ⟨value.length + 1, value⟩).1, _,
        (ram.memory.alloc ⟨value.length + 1, value⟩).2, after, rfl, rfl, .inl rfl, ?_, kept⟩
      simp only [failExit, free, Option.bind_eq_bind, Option.bind_some, freed]
  | true =>
    cases valueGranted with
    | false =>
      obtain ⟨after, freed, kept⟩ := ram.memory.alloc_free ⟨name.length + 1, name⟩
      refine ⟨some (ram.memory.alloc ⟨name.length + 1, name⟩).1, none, _,
        (ram.memory.alloc ⟨name.length + 1, name⟩).2, after, rfl, rfl, .inr rfl, ?_, kept⟩
      simp only [failExit, free, Option.bind_eq_bind, Option.bind_some, freed]
    | true => exact absurd ⟨rfl, rfl⟩ refused

/-- An insertion that is refused memory changes no block and no slot. -/
theorem insertEntry_refused (ram : Ram) (i : Nat) (name value : CString) (grants : Grants)
    (refused : ¬ (grants.name = true ∧ grants.value = true)) :
    ∃ after, insertEntry ram i name value grants =
        some (retFail, { ram with memory := after }) ∧
      ∀ p, after.read p = ram.memory.read p := by
  obtain ⟨tmpName, tmpValue, between, memory, after, nameCopy, valueCopy, missing, failed, kept⟩ :=
    failExit_spec ram name value grants refused
  refine ⟨after, ?_, kept⟩
  simp only [insertEntry, nameCopy, valueCopy]
  rw [← failed]
  rcases missing with rfl | rfl
  · rfl
  · cases tmpName with
    | none => rfl
    | some p => rfl

/-- Cleaning a node that points at an entry frees its two blocks and no other. -/
theorem nvramNodeClean_spec {memory : Memory} {np : NvramNode} {entry : Entry}
    (here : Points memory np entry) (distinct : np.owned.Nodup) :
    ∃ after, nvramNodeClean memory np = some (after, .empty) ∧
      ∀ r, r ∉ np.owned → after.read r = memory.read r := by
  cases here with
  | @intro p q name value nlen vlen nameLive valueLive =>
    have different : p ≠ q := by simpa [NvramNode.owned] using distinct
    obtain ⟨between, nameFreed, -, -, keptFirst⟩ := Heap.free_live nameLive
    have valueStill : between.read q = some value := by
      rw [keptFirst q different.symm, valueLive]
    obtain ⟨after, valueFreed, -, -, keptSecond⟩ := Heap.free_live valueStill
    refine ⟨after, ?_, fun r apart => ?_⟩
    · simp only [nvramNodeClean, free, nameFreed, valueFreed, Option.bind_eq_bind,
        Option.bind_some]
    · simp only [NvramNode.owned, Option.toList_some, List.cons_append, List.nil_append,
        List.mem_cons, List.not_mem_nil, or_false, not_or] at apart
      rw [keptSecond r apart.2, keptFirst r apart.1]

/-- What the loop makes of a removed slot and the live slots behind it: only the next
slot moves, and it moves in every turn. -/
def closed : List NvramNode → List NvramNode
  | [] => [.empty]
  | np :: rest => np :: np :: rest

/-- Moving the next slot down once more changes nothing. -/
theorem closeGap_repeat (before rest : List NvramNode) (hole np : NvramNode) (rounds : Nat) :
    closeGap before.length (rounds + 1) (before ++ hole :: np :: rest) =
      some (before ++ np :: np :: rest) := by
  induction rounds generalizing hole with
  | zero => simp [closeGap, storeNode]
  | succ rounds inductionHypothesis =>
    have next : (before ++ hole :: np :: rest)[before.length + 1]? = some np := by simp
    have stored : storeNode (before ++ hole :: np :: rest) before.length np =
        some (before ++ np :: np :: rest) := by
      simp [storeNode]
    rw [closeGap, bind_of_some next, bind_of_some stored]
    exact inductionHypothesis np

/-- What the loop does behind a removed slot. -/
theorem closeGap_spec (before behind tail : List NvramNode) :
    closeGap before.length behind.length (before ++ .empty :: behind ++ tail) =
      some (before ++ closed behind ++ tail) := by
  cases behind with
  | nil => rfl
  | cons np rest =>
    have moved := closeGap_repeat before (rest ++ tail) .empty np rest.length
    simpa [closed] using moved

/-- Closing the gap in front of at most one live slot moves that slot down. -/
theorem closed_near {behind : List NvramNode} (near : behind.length ≤ 1) :
    ∃ ghost, closed behind = behind ++ [ghost] ∧ (behind = [] → ghost = .empty) := by
  cases behind with
  | nil => exact ⟨.empty, rfl, fun _ => rfl⟩
  | cons np rest =>
    obtain rfl : rest = [] := by
      rw [List.length_cons] at near
      exact List.length_eq_zero_iff.mp (by omega)
    exact ⟨np, rfl, by simp⟩

/-- Removing the name found in the slot of a node frees its strings, closes the gap as far
as the loop does, and leaves all other owned strings. -/
theorem Lists.unset_step {ram : Ram} {before behind tail : List NvramNode} {np : NvramNode}
    {entries : List Entry} (image : Lists ram (before ++ np :: behind) tail entries)
    {name : CString} (found : findNvramEntryPosition ram name = some ((before.length : Int), true)) :
    ∃ memory, nvramUnsetEntry ram name = some (retOk, ⟨memory, before ++ closed behind ++ tail,
        (before ++ behind).length, ram.nvram.totalSpaceUsed - BitVec.ofInt 32 np.nlen -
          BitVec.ofInt 32 np.vlen⟩) ∧
      ∀ r ∈ owned (before ++ behind), memory.read r = ram.memory.read r := by
  have bound : before.length < (before ++ np :: behind).length := by simp
  have bound' : before.length < entries.length := image.length_eq ▸ bound
  have here := image.points.get bound bound'
  simp only [List.get_eq_getElem, List.getElem_append_right (Nat.le_refl _), Nat.sub_self,
    List.getElem_cons_zero] at here
  have apart := (owned_middle before behind np).nodup_iff.mp image.distinct
  obtain ⟨mine, -, separate⟩ := List.nodup_append.mp apart
  obtain ⟨memory, cleaned, kept⟩ := nvramNodeClean_spec here mine
  refine ⟨memory, ?_, fun r member => kept r fun own => separate r own r member rfl⟩
  have slot : ram.nvram.nodeList[before.length]? = some np := by
    rw [image.layout]
    simp
  have stored : storeNode ram.nvram.nodeList before.length .empty =
      some (before ++ .empty :: behind ++ tail) := by
    simp [storeNode, image.layout]
  have rounds : ram.nvram.nodeListUsed - 1 - before.length = behind.length := by
    rw [image.used, List.length_append, List.length_cons]
    omega
  have used : ram.nvram.nodeListUsed - 1 = (before ++ behind).length := by
    rw [image.used]
    simp only [List.length_append, List.length_cons]
    omega
  simp only [nvramUnsetEntry, found, Option.bind_eq_bind, Option.bind_some, if_true,
    Int.toNat_natCast, slot, cleaned, stored, rounds, closeGap_spec]
  rw [used]

/-- The destructor frees the blocks of every entry once when the slots behind the
live ones are empty. -/
theorem cleanSlots_spec (nodes empties : List NvramNode) {memory : Memory} {entries : List Entry}
    (holds : List.Forall₂ (Holds memory) nodes entries) (distinct : (owned nodes).Nodup)
    (unnamed : ∀ np ∈ empties, np = .empty) :
    ∃ after, cleanSlots memory (nodes ++ empties) = some after := by
  induction nodes generalizing memory entries with
  | nil =>
    cases empties with
    | nil => exact ⟨memory, rfl⟩
    | cons np rest =>
      obtain rfl := unnamed np List.mem_cons_self
      exact ⟨memory, rfl⟩
  | cons np nodes inductionHypothesis =>
    cases holds with
    | cons here later =>
      rw [owned_cons] at distinct
      obtain ⟨mine, others, separate⟩ := List.nodup_append.mp distinct
      obtain ⟨between, cleaned, kept⟩ := nvramNodeClean_spec here.points mine
      have named : np.name.isNone = false := by
        cases here with
        | intro nameLive valueLive room sized => rfl
      have remaining := holds_frame later fun r member block live => by
        rw [kept r fun own => separate r own r member rfl, live]
      obtain ⟨after, finished⟩ := inductionHypothesis remaining others
      refine ⟨after, ?_⟩
      simp only [List.cons_append, cleanSlots, named, Bool.false_eq_true, if_false, cleaned,
        Option.bind_eq_bind, Option.bind_some, finished]

namespace Represents

variable {ram : Ram} {live tail : List NvramNode} {entries : List Entry}

/-- A new entry takes its place and the first slot behind the live ones, unless a
copy is refused memory. -/
theorem insertEntry_spec {spare : NvramNode} {rest : List NvramNode}
    (image : Represents ram live (spare :: rest) entries) {i : Nat} (bound : i ≤ entries.length)
    (name value : CString) (grants : Grants) :
    (∃ after live', insertEntry ram i name value grants = some (retOk, after) ∧
      Represents after live' rest (entries.insertIdx i (name, value)) ∧
      (Accounts ram live entries → Accounts after live' (entries.insertIdx i (name, value)))) ∨
    (grants ≠ .full ∧ ∃ after, insertEntry ram i name value grants = some (retFail, after) ∧
      Represents after live (spare :: rest) entries ∧
      (Accounts ram live entries → Accounts after live entries)) := by
  by_cases full : grants.name = true ∧ grants.value = true
  · obtain ⟨p, q, between, memory, nameCopy, valueCopy, extension, pNew, qNew, different,
      nameRead, valueRead⟩ := fresh_pair ram.memory name value
    have extended := image.extend_memory extension
    obtain ⟨nodeList, after, live', shifted, filled, represents, counted⟩ :=
      extended.place_spec bound different nameRead valueRead
        (image.new_not_owned pNew) (image.new_not_owned qNew)
    refine .inl ⟨after, live', ?_, represents, fun accounts =>
      counted ⟨accounts.lengths, accounts.total⟩⟩
    simp only [insertEntry, full.1, full.2, nameCopy, valueCopy, shifted, Option.bind_eq_bind,
      Option.bind_some, filled]
  · obtain ⟨after, failed, kept⟩ := insertEntry_refused ram i name value grants full
    refine .inr ⟨?_, _, failed, image.extend_memory fun p _ live => (kept p).trans live,
      fun accounts => ⟨accounts.lengths, accounts.total⟩⟩
    rintro rfl
    exact full ⟨rfl, rfl⟩

/-- Setting a name that the search finds replaces its value in place, unless the
copy of the value is refused memory. -/
theorem set_present (image : Represents ram live tail entries) (sorted : Sorted entries)
    {name : CString} (present : name ∈ keys entries)
    (probed : Probed 0 entries.length (rank (keys entries) name))
    (value : CString) (grants : Grants) :
    (∃ after live', nvramSetEntry ram name value grants = some (retOk, after) ∧
      Represents after live' tail (entries.set (rank (keys entries) name) (name, value))) ∨
    (grants ≠ .full ∧ nvramSetEntry ram name value grants = some (retFail, ram)) := by
  have inUse : ram.nvram.nodeListUsed ≠ 0 := by
    have bounds := probed_bounds probed
    rw [image.lists.used_eq]
    omega
  have found := (image.lists.find_present sorted present).1 probed
  obtain ⟨entry, held, named⟩ : ∃ entry, entries[rank (keys entries) name]? = some entry ∧
      entry.1 = name := by
    have atRank := (SortedTable.mem_iff_at_rank name sorted).mp present
    simpa only [keys, List.getElem?_map, Option.map_eq_some_iff] using atRank
  have reduced : nvramSetEntry ram name value grants =
      replaceValue ram (rank (keys entries) name) value grants := by
    simp only [nvramSetEntry, inUse, if_false, found, Option.bind_eq_bind, Option.bind_some,
      if_true, Int.toNat_natCast]
  rw [reduced]
  rcases image.replaceValue_spec held value grants with
    ⟨after, live', stored, result, -⟩ | ⟨refused, failed⟩
  · rw [named] at result
    exact .inl ⟨after, live', stored, result⟩
  · refine .inr ⟨?_, failed⟩
    rintro rfl
    cases refused

/-- A set whose search misses is refused when the table is full. -/
theorem set_full (image : Represents ram live [] entries) {name : CString} {i : Int}
    (missed : findNvramEntryPosition ram name = some (i, false)) (inUse : entries ≠ [])
    (value : CString) (grants : Grants) :
    nvramSetEntry ram name value grants = some (retFail, ram) := by
  have used : ram.nvram.nodeListUsed ≠ 0 := by
    rw [image.lists.used_eq]
    exact List.length_eq_zero_iff.not.mpr inUse
  have full : ram.nvram.nodeListUsed = ram.nvram.nodeListSize := by
    rw [image.lists.used_eq, image.lists.size_eq]
    rfl
  rw [nvramSetEntry, if_neg used, missed]
  simp only [Option.bind_eq_bind, Option.bind_some, full, if_true, Bool.false_eq_true, if_false]

/-- A set whose search misses and that is refused memory keeps the entries. -/
theorem set_refused (image : Represents ram live tail entries) {name : CString} {i : Int}
    (missed : findNvramEntryPosition ram name = some (i, false)) (value : CString)
    (grants : Grants) (refused : ¬ (grants.name = true ∧ grants.value = true)) :
    ∃ after, nvramSetEntry ram name value grants = some (retFail, after) ∧
      Represents after live tail entries := by
  by_cases unused : ram.nvram.nodeListUsed = 0
  · rw [set_first ram name value grants unused]
    obtain ⟨after, failed, kept⟩ := insertEntry_refused ram 0 name value grants refused
    exact ⟨_, failed, image.extend_memory fun p _ live => (kept p).trans live⟩
  · rw [nvramSetEntry, if_neg unused, missed]
    simp only [Option.bind_eq_bind, Option.bind_some, Bool.false_eq_true, if_false]
    by_cases full : ram.nvram.nodeListUsed = ram.nvram.nodeListSize
    · exact ⟨ram, by simp only [full, if_true], image⟩
    · rw [if_neg full]
      obtain ⟨after, failed, kept⟩ := insertEntry_refused ram i.toNat name value grants refused
      exact ⟨_, failed, image.extend_memory fun p _ live => (kept p).trans live⟩

/-- Setting an absent name while slots are free inserts it at its rank, if the
search lands there or the table is empty. -/
theorem set_absent {spare : NvramNode} {rest : List NvramNode}
    (image : Represents ram live (spare :: rest) entries) (sorted : Sorted entries)
    {name : CString} (absent : name ∉ keys entries)
    (lands : entries = [] ∨ Lands 0 entries.length (rank (keys entries) name))
    (value : CString) (grants : Grants) :
    (∃ after live', nvramSetEntry ram name value grants = some (retOk, after) ∧
      Represents after live' rest
        (entries.insertIdx (rank (keys entries) name) (name, value))) ∨
    (grants ≠ .full ∧ ∃ after, nvramSetEntry ram name value grants = some (retFail, after) ∧
      Represents after live (spare :: rest) entries) := by
  have bound := SortedTable.rank_le_entries entries name
  have reduced : nvramSetEntry ram name value grants =
      insertEntry ram (rank (keys entries) name) name value grants := by
    rcases lands with rfl | lands
    · exact set_first ram name value grants image.lists.used_eq
    · have landed := (image.lists.find_absent sorted absent).2 lands
      have inUse : ram.nvram.nodeListUsed ≠ 0 := by
        have bounds := lands_bounds lands
        rw [image.lists.used_eq]
        omega
      have roomy : ram.nvram.nodeListUsed ≠ ram.nvram.nodeListSize := by
        rw [image.lists.used_eq, image.lists.size_eq, List.length_cons]
        omega
      simp only [nvramSetEntry, inUse, if_false, landed, Option.bind_eq_bind, Option.bind_some,
        roomy, Bool.false_eq_true, Int.toNat_natCast]
  rw [reduced]
  rcases image.insertEntry_spec bound name value grants with
    ⟨after, live', stored, result, -⟩ | ⟨refused, after, failed, result, -⟩
  · exact .inl ⟨after, live', stored, result⟩
  · exact .inr ⟨refused, after, failed, result⟩

/-- A lookup hands out a copy of the value of a name that the search finds. -/
theorem get_present (image : Represents ram live tail entries) (sorted : Sorted entries)
    {name : CString} (present : name ∈ keys entries)
    (probed : Probed 0 entries.length (rank (keys entries) name)) (old : Option CString) :
    nvramGetEntryValue ram name true old = some (retOk, valueOf entries name) := by
  obtain ⟨first, value, second, rfl, position, before, -⟩ :=
    SortedTable.split_present sorted present
  have found := (image.lists.find_present sorted present).1 probed
  have looked : valueOf (first ++ (name, value) :: second) name = some value :=
    SortedTable.valueOf_middle first second name value before
  rw [looked]
  rw [← position] at found
  have held : (first ++ (name, value) :: second)[first.length]? = some (name, value) := by simp
  obtain ⟨lower, np, upper, -, -, liveParts, -, lowerLength, -, -, here, -⟩ :=
    image.cut_entry held
  have slot : ram.nvram.nodeList[first.length]? = some np := by
    rw [image.layout, liveParts, ← lowerLength]
    simp
  cases here with
  | intro nameLive valueLive room sized =>
    simp only [nvramGetEntryValue, found, Option.bind_eq_bind, Option.bind_some, if_true,
      Int.toNat_natCast, slot, valueLive]

/-- A lookup of an absent name fails and hands out nothing new. -/
theorem get_absent (image : Represents ram live tail entries) (sorted : Sorted entries)
    {name : CString} (absent : name ∉ keys entries) (granted : Bool) (old : Option CString) :
    nvramGetEntryValue ram name granted old = some (retFail, old) := by
  obtain ⟨i, missed⟩ := (image.lists.find_absent sorted absent).1
  simp only [nvramGetEntryValue, missed, Option.bind_eq_bind, Option.bind_some,
    Bool.false_eq_true, if_false]

/-- Removing an absent name fails. -/
theorem unset_absent (image : Represents ram live tail entries) (sorted : Sorted entries)
    {name : CString} (absent : name ∉ keys entries) :
    nvramUnsetEntry ram name = some (retFail, ram) := by
  obtain ⟨i, missed⟩ := (image.lists.find_absent sorted absent).1
  simp only [nvramUnsetEntry, missed, Option.bind_eq_bind, Option.bind_some,
    Bool.false_eq_true, if_false]

/-- Removing the entry found at position `i`, with at most one live slot behind it.
The slot that becomes free is empty only if it was the last one; otherwise it keeps
the pointers that were copied down. -/
theorem remove_spec (image : Represents ram live tail entries) {name : CString} {i : Nat}
    {entry : Entry} (held : entries[i]? = some entry) (near : entries.length ≤ i + 2)
    (found : findNvramEntryPosition ram name = some ((i : Int), true)) :
    ∃ after live' ghost, nvramUnsetEntry ram name = some (retOk, after) ∧
      Represents after live' (ghost :: tail) (entries.eraseIdx i) ∧
      (i + 1 = entries.length → ghost = .empty) ∧
      (Accounts ram live entries → Accounts after live' (entries.eraseIdx i)) := by
  obtain ⟨before, np, behind, first, second, rfl, rfl, rfl, firstLength, holdsBefore, here,
    holdsBehind⟩ := image.cut_entry held
  have behindLength := holdsBehind.length_eq
  simp only [List.length_append, List.length_cons, firstLength] at near ⊢
  obtain ⟨memory, done, kept⟩ := image.lists.unset_step found
  obtain ⟨ghost, closedEq, emptied⟩ := closed_near (show behind.length ≤ 1 by omega)
  have layout : before ++ closed behind ++ tail = before ++ behind ++ ghost :: tail := by
    rw [closedEq]
    simp
  rw [layout] at done
  have erased : (first ++ entry :: second).eraseIdx before.length = first ++ second := by
    rw [← firstLength, List.eraseIdx_append_of_length_le (Nat.le_refl _), Nat.sub_self,
      List.eraseIdx_cons_zero]
  have distinct : (owned (before ++ behind)).Nodup :=
    (List.nodup_append.mp ((owned_middle before behind np).nodup_iff.mp image.distinct)).2.1
  have holds := List.rel_append holdsBefore holdsBehind
  rw [erased]
  refine ⟨_, before ++ behind, ghost, done, ⟨rfl, rfl, ?_, distinct⟩, fun last => emptied ?_, ?_⟩
  · exact holds_frame holds fun r member block live => (kept r member).trans live
  · exact List.length_eq_zero_iff.mp (by omega)
  · intro accounts
    obtain ⟨lower, -, upper⟩ := accounts.cut firstLength.symm
    exact ⟨List.rel_append lower upper, spaceOf_removed accounts.total⟩

/-- Removing a name that the search finds, with at most one live slot behind it,
erases its entry. -/
theorem unset_present (image : Represents ram live tail entries) (sorted : Sorted entries)
    {name : CString} (present : name ∈ keys entries)
    (probed : Probed 0 entries.length (rank (keys entries) name))
    (near : entries.length ≤ rank (keys entries) name + 2) :
    ∃ after live' ghost, nvramUnsetEntry ram name = some (retOk, after) ∧
      Represents after live' (ghost :: tail) (entries.eraseIdx (rank (keys entries) name)) ∧
      (rank (keys entries) name + 1 = entries.length → ghost = .empty) :=
  have ⟨after, live', ghost, done, result, emptied, _⟩ :=
    image.remove_spec (List.getElem?_eq_getElem (probed_bounds probed).2) near
      ((image.lists.find_present sorted present).1 probed)
  ⟨after, live', ghost, done, result, emptied⟩

end Represents

end Ezcfg.RamNvram

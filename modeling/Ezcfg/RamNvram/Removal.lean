import Ezcfg.RamNvram.Operations

/-!
# Removing one entry

The loop that closes the gap behind a removed entry moves the same slot in every turn. With
at most one live slot behind the removed one this removes exactly one entry; with more, the
next entry is there twice and the last one is gone.
-/

namespace Ezcfg.RamNvram

open Foundation
open Foundation.SortedTable (keys Sorted)

/-- Exactly the entry at position `i` has been removed: the others are in order, the counter
and the total are reduced, and no string of another node has been released. -/
structure Removed (ram after : Ram) (live : List NvramNode) (entries : List Entry) (i : Nat) :
    Prop where
  entries : after.liveEntries = some (entries.eraseIdx i)
  used : after.nvram.nodeListUsed + 1 = ram.nvram.nodeListUsed
  total : ∀ np, live[i]? = some np → after.nvram.totalSpaceUsed =
    ram.nvram.totalSpaceUsed - BitVec.ofInt 32 np.nlen - BitVec.ofInt 32 np.vlen
  kept : ∀ j np, j ≠ i → live[j]? = some np → ∀ p ∈ np.owned,
    after.memory.read p = ram.memory.read p

/-- Nodes that point at entries read as these. -/
theorem entries_of_points {memory : Memory} {nodes : List NvramNode} {entries : List Entry}
    (points : List.Forall₂ (Points memory) nodes entries) :
    nodes.mapM (NvramNode.entry memory) = some entries := by
  induction points with
  | nil => rfl
  | cons here _ inductionHypothesis =>
    cases here with
    | intro nameLive valueLive =>
      simp [NvramNode.entry, NvramNode.nameText, nameLive, valueLive, inductionHypothesis]

/-- When all nodes can be read, each reads as the entry at its position. -/
theorem entry_at {memory : Memory} {nodes : List NvramNode} {entries : List Entry}
    (read : nodes.mapM (NvramNode.entry memory) = some entries) {i : Nat} {np : NvramNode}
    (here : nodes[i]? = some np) : entries[i]? = np.entry memory := by
  induction nodes generalizing entries i with
  | nil => cases here
  | cons head rest inductionHypothesis =>
    rw [List.mapM_cons] at read
    obtain ⟨first, firstRead, read⟩ := Option.bind_eq_some_iff.mp read
    obtain ⟨others, othersRead, read⟩ := Option.bind_eq_some_iff.mp read
    obtain rfl := Option.some.inj read
    cases i with
    | zero =>
      obtain rfl := Option.some.inj here
      exact firstRead.symm
    | succ i => exact inductionHypothesis othersRead here

/-- Memory in which the owned strings are as before points at the same entries. -/
theorem points_frame {memory after : Memory} {nodes : List NvramNode} {entries : List Entry}
    (points : List.Forall₂ (Points memory) nodes entries)
    (kept : ∀ r ∈ owned nodes, after.read r = memory.read r) :
    List.Forall₂ (Points after) nodes entries := by
  induction points with
  | nil => exact .nil
  | cons here _ inductionHypothesis =>
    rw [owned_cons] at kept
    refine .cons ?_ (inductionHypothesis fun r member => kept r (List.mem_append_right _ member))
    cases here with
    | intro nameLive valueLive =>
      refine .intro ((kept _ ?_).trans nameLive) ((kept _ ?_).trans valueLive) <;>
        simp [NvramNode.owned]

namespace Lists

variable {ram : Ram} {live tail : List NvramNode} {entries : List Entry}

/-- A found name is at a live position. -/
theorem found_inside (image : Lists ram live tail entries) {name : CString} {i : Nat}
    (found : findNvramEntryPosition ram name = some ((i : Int), true)) : i < entries.length := by
  rw [image.find_eq name] at found
  injection found with found
  injection found with place hit
  have sound := halving_hit_sound _ _ _ _ _ _ (Prod.ext (Int.ofNat.inj place) hit)
  exact sound.2.2

/-- A table is cut at a live position. -/
theorem cut_at (image : Lists ram live tail entries) {i : Nat} (inside : i < entries.length) :
    ∃ before np behind first entry second, live = before ++ np :: behind ∧ before.length = i ∧
      entries = first ++ entry :: second ∧ first.length = i ∧
      List.Forall₂ (Points ram.memory) before first ∧
      List.Forall₂ (Points ram.memory) behind second := by
  have lower := List.forall₂_take i image.points
  have upper := List.forall₂_drop i image.points
  have inLive : i < live.length := image.length_eq ▸ inside
  rw [List.drop_eq_getElem_cons inLive, List.drop_eq_getElem_cons inside] at upper
  obtain ⟨here, behind⟩ := List.forall₂_cons.mp upper
  refine ⟨live.take i, live[i], live.drop (i + 1), entries.take i, entries[i],
    entries.drop (i + 1), ?_, List.length_take_of_le inLive.le, ?_,
    List.length_take_of_le inside.le, lower, behind⟩
  · rw [← List.drop_eq_getElem_cons inLive, List.take_append_drop]
  · rw [← List.drop_eq_getElem_cons inside, List.take_append_drop]

/-- What is removed when at most one entry is behind the found one. -/
theorem unset_near (image : Lists ram live tail entries) {name : CString} {i : Nat}
    (found : findNvramEntryPosition ram name = some ((i : Int), true))
    (near : entries.length ≤ i + 2) :
    ∃ after, nvramUnsetEntry ram name = some (retOk, after) ∧
      Removed ram after live entries i := by
  obtain ⟨before, np, behind, first, entry, second, rfl, rfl, rfl, firstLength, lower, upper⟩ :=
    image.cut_at (image.found_inside found)
  obtain ⟨memory, done, kept⟩ := image.unset_step found
  have behindLength := upper.length_eq
  simp only [List.length_append, List.length_cons] at near
  obtain ⟨ghost, closedEq, -⟩ := closed_near (show behind.length ≤ 1 by omega)
  refine ⟨_, done, ?_, ?_, ?_, ?_⟩
  · have taken : (before ++ closed behind ++ tail).take (before ++ behind).length =
        before ++ behind := by
      rw [closedEq, ← List.append_assoc before, List.append_assoc _ [ghost], List.take_left]
    rw [Ram.liveEntries, taken, ← firstLength, List.eraseIdx_append_of_length_le (Nat.le_refl _),
      Nat.sub_self, List.eraseIdx_cons_zero]
    exact entries_of_points (points_frame (List.rel_append lower upper) kept)
  · rw [image.used]
    simp only [List.length_append, List.length_cons]
    omega
  · intro other here
    rw [List.getElem?_append_right (Nat.le_refl _), Nat.sub_self, List.getElem?_cons_zero] at here
    rw [Option.some.inj here]
  · intro j other different here p member
    apply kept
    refine List.mem_flatMap.mpr ⟨other, ?_, member⟩
    rcases Nat.lt_or_gt_of_ne different with below | above
    · rw [List.getElem?_append_left below] at here
      exact List.mem_append_left _ (List.mem_of_getElem? here)
    · obtain ⟨further, rfl⟩ := Nat.exists_eq_add_of_lt above
      rw [List.getElem?_append_right (by omega), Nat.add_assoc, Nat.add_sub_cancel_left,
        List.getElem?_cons_succ] at here
      exact List.mem_append_right _ (List.mem_of_getElem? here)

/-- When more entries are behind the found one, the next of them is there twice. -/
theorem unset_far (image : Lists ram live tail entries) (sorted : Sorted entries)
    {name : CString} {i : Nat}
    (found : findNvramEntryPosition ram name = some ((i : Int), true))
    (far : i + 2 < entries.length) {after : Ram}
    (done : nvramUnsetEntry ram name = some (retOk, after)) :
    after.liveEntries ≠ some (entries.eraseIdx i) := by
  obtain ⟨before, np, behind, first, entry, second, rfl, rfl, rfl, firstLength, lower, upper⟩ :=
    image.cut_at (image.found_inside found)
  obtain ⟨memory, result, kept⟩ := image.unset_step found
  rw [result] at done
  obtain rfl := (Prod.mk.inj (Option.some.inj done)).2
  have still := points_frame (List.rel_append lower upper) kept
  rw [List.length_append, List.length_cons] at far
  cases upper with
  | nil => simp [firstLength] at far
  | @cons next nextEntry behind second _ upper =>
    cases upper with
    | nil => simp [firstLength] at far
    | @cons last lastEntry behind second _ upper =>
      intro same
      rw [← firstLength, List.eraseIdx_append_of_length_le (Nat.le_refl _), Nat.sub_self,
        List.eraseIdx_cons_zero] at same
      -- the slot behind the moved one still has the moved node
      have slot : ((before ++ closed (next :: last :: behind) ++ tail).take
          (before ++ next :: last :: behind).length)[before.length + 1]? = some next := by
        rw [List.getElem?_take_of_lt (by simp), List.append_assoc,
          List.getElem?_append_right (Nat.le_add_right _ 1), Nat.add_sub_cancel_left]
        rfl
      have twice := entry_at same slot
      have points : Points memory next nextEntry := by
        have upper' := List.forall₂_drop before.length still
        rw [List.drop_left, ← firstLength, List.drop_left] at upper'
        exact (List.forall₂_cons.mp upper').1
      rw [← firstLength, List.getElem?_append_right (Nat.le_add_right _ 1), Nat.add_sub_cancel_left] at twice
      have lastRead : next.entry memory = some lastEntry := twice.symm
      have nextRead : next.entry memory = some nextEntry := by
        cases points with
        | intro nameLive valueLive =>
          simp [NvramNode.entry, NvramNode.nameText, nameLive, valueLive]
      rw [nextRead] at lastRead
      obtain rfl := Option.some.inj lastRead
      have increasing : (nextEntry.1 :: nextEntry.1 :: keys second).Pairwise (· < ·) := by
        have part : List.Sublist (nextEntry :: nextEntry :: second)
            (first ++ entry :: nextEntry :: nextEntry :: second) :=
          (List.sublist_cons_self entry _).trans (List.sublist_append_right first _)
        exact sorted.sublist (part.map Prod.fst)
      exact lt_irrefl _ (List.rel_of_pairwise_cons increasing List.mem_cons_self)

/-- A found name is removed exactly when at most one live entry is behind it. -/
theorem removed_iff (image : Lists ram live tail entries) (sorted : Sorted entries)
    {name : CString} {i : Nat}
    (found : findNvramEntryPosition ram name = some ((i : Int), true)) :
    (∃ after, nvramUnsetEntry ram name = some (retOk, after) ∧ Removed ram after live entries i) ↔
      entries.length ≤ i + 2 := by
  constructor
  · rintro ⟨after, done, removed⟩
    by_contra far
    exact image.unset_far sorted found (by omega) done removed.entries
  · intro near
    exact image.unset_near found near

end Lists

/-- The strings of a block that holds one byte. -/
def blockOf (byte : UInt8) (proper : byte ≠ 0) : Option Block := some ⟨2, .single byte proper⟩

/-- `'a'` is not NUL. -/
theorem byteA_ne : (97 : UInt8) ≠ 0 := by decide

/-- `'b'` is not NUL. -/
theorem byteB_ne : (98 : UInt8) ≠ 0 := by decide

/-- `'c'` is not NUL. -/
theorem byteC_ne : (99 : UInt8) ≠ 0 := by decide

/-- `'d'` is not NUL. -/
theorem byteD_ne : (100 : UInt8) ≠ 0 := by decide

/-- A full table of four slots in which `a` to `d` are set to themselves, `d` first. -/
def fourEntries : Ram :=
  ⟨[blockOf 100 byteD_ne, blockOf 100 byteD_ne, blockOf 97 byteA_ne, blockOf 97 byteA_ne,
      blockOf 98 byteB_ne, blockOf 98 byteB_ne, blockOf 99 byteC_ne, blockOf 99 byteC_ne],
    ⟨[⟨some 2, some 3, 2, 2⟩, ⟨some 4, some 5, 2, 2⟩, ⟨some 6, some 7, 2, 2⟩,
      ⟨some 0, some 1, 2, 2⟩], 4, 16⟩⟩

/-- The entry of a byte that is set to itself. -/
def selfEntry (byte : UInt8) (proper : byte ≠ 0) : Entry := (.single byte proper, .single byte proper)

/-- The entries of the table. -/
def selfEntries : List Entry :=
  [selfEntry 97 byteA_ne, selfEntry 98 byteB_ne, selfEntry 99 byteC_ne, selfEntry 100 byteD_ne]

/-- The table lists them. -/
theorem fourEntries_lists : Lists fourEntries fourEntries.nvram.nodeList [] selfEntries := by
  have points : ∀ (p q : Ptr) (byte : UInt8) (proper : byte ≠ 0),
      fourEntries.memory.read p = blockOf byte proper →
      fourEntries.memory.read q = blockOf byte proper →
      Points fourEntries.memory ⟨some p, some q, 2, 2⟩ (selfEntry byte proper) := by
    intro p q byte proper nameLive valueLive
    exact .intro nameLive valueLive
  constructor
  · rfl
  · rfl
  · exact .cons (points _ _ _ _ rfl rfl) (.cons (points _ _ _ _ rfl rfl)
      (.cons (points _ _ _ _ rfl rfl) (.cons (points _ _ _ _ rfl rfl) .nil)))
  · decide

/-- The names are in order. -/
theorem selfEntries_sorted : Sorted selfEntries := by
  unfold Sorted selfEntries selfEntry keys
  simp only [List.map_cons, List.map_nil, List.pairwise_cons, List.Pairwise.nil, CString.lt_iff]
  decide

/-- The last entry but one is removed from the table and the last one moves down. -/
theorem removed_third : ∃ after, nvramUnsetEntry fourEntries (.single 99 (by decide)) =
    some (retOk, after) ∧ Removed fourEntries after fourEntries.nvram.nodeList selfEntries 2 :=
  (fourEntries_lists.removed_iff selfEntries_sorted (by decide +kernel)).mpr (by decide)

/-- Removing the first of four entries loses the last one. -/
theorem not_removed : ¬ ∀ (ram : Ram) (live tail : List NvramNode) (entries : List Entry)
    (name : CString) (i : Nat), Lists ram live tail entries → Sorted entries →
      findNvramEntryPosition ram name = some ((i : Int), true) →
      ∃ after, nvramUnsetEntry ram name = some (retOk, after) ∧
        Removed ram after live entries i := by
  intro removes
  have found : findNvramEntryPosition fourEntries (.single 97 (by decide)) =
      some (((0 : Nat) : Int), true) := by
    decide +kernel
  obtain ⟨after, done, removed⟩ :=
    removes fourEntries _ [] _ _ 0 fourEntries_lists selfEntries_sorted found
  exact fourEntries_lists.unset_far selfEntries_sorted found (by decide) done removed.entries

end Ezcfg.RamNvram

import Mathlib.Data.List.Induction
import Ezcfg.RamNvram.Image

/-!
# What the operations do to a represented table

Each operation is described once, by what it does to the list of entries at the
position the search returned. Replacement keeps the position, insertion shifts
the later slots, and removal closes the gap correctly when at most one live slot
follows: the loop of the source copies into the removed slot only.

The memory facts are the same in all cases: blocks just allocated are new, and a
freed or overwritten block is owned by the touched node alone.
-/

namespace Ezcfg.RamNvram

open Foundation
open Foundation.SortedTable (keys Sorted rank valueOf insertIdx_between)

/-- The blocks of a node in the middle can be listed first. -/
theorem owned_middle (first second : List NvramNode) (np : NvramNode) :
    (owned (first ++ np :: second)).Perm (np.owned ++ owned (first ++ second)) := by
  rw [owned_append, owned_cons, owned_append]
  exact List.perm_append_comm_assoc _ _ _

/-- A node with two blocks in the middle of a table owns them alone. -/
theorem distinct_middle {first second : List NvramNode} {p q : Ptr} {nlen vlen : Int}
    (distinct : (owned (first ++ ⟨some p, some q, nlen, vlen⟩ :: second)).Nodup) :
    p ≠ q ∧ (∀ r ∈ owned first, r ≠ p ∧ r ≠ q) ∧ (∀ r ∈ owned second, r ≠ p ∧ r ≠ q) ∧
      (owned (first ++ second)).Nodup := by
  have listed := (owned_middle first second _).nodup_iff.mp distinct
  simp only [NvramNode.owned, Option.toList_some, List.cons_append, List.nil_append,
    List.nodup_cons, List.mem_cons, owned_append, List.mem_append, not_or] at listed
  obtain ⟨⟨different, pFirst, pSecond⟩, ⟨qFirst, qSecond⟩, rest⟩ := listed
  refine ⟨different, fun r member => ⟨?_, ?_⟩, fun r member => ⟨?_, ?_⟩, ?_⟩
  · rintro rfl; exact pFirst member
  · rintro rfl; exact qFirst member
  · rintro rfl; exact pSecond member
  · rintro rfl; exact qSecond member
  · rwa [owned_append]

/-- Two new blocks can be given to a node in the middle of a table. -/
theorem distinct_fill {first second : List NvramNode} {p q : Ptr} {nlen vlen : Int}
    (distinct : (owned (first ++ second)).Nodup) (different : p ≠ q)
    (pNew : p ∉ owned (first ++ second)) (qNew : q ∉ owned (first ++ second)) :
    (owned (first ++ ⟨some p, some q, nlen, vlen⟩ :: second)).Nodup := by
  rw [(owned_middle first second _).nodup_iff]
  simpa [NvramNode.owned] using ⟨⟨different, pNew⟩, qNew, distinct⟩

namespace Represents

variable {ram : Ram} {live tail : List NvramNode} {entries : List Entry}

/-- A table is cut at any live position together with its entries. -/
theorem cut (image : Represents ram live tail entries) {i : Nat} (bound : i ≤ entries.length) :
    ∃ before behind first second, live = before ++ behind ∧ entries = first ++ second ∧
      before.length = i ∧ first.length = i ∧
      List.Forall₂ (Holds ram.memory) before first ∧
      List.Forall₂ (Holds ram.memory) behind second :=
  ⟨live.take i, live.drop i, entries.take i, entries.drop i,
    (List.take_append_drop _ _).symm, (List.take_append_drop _ _).symm,
    List.length_take_of_le (image.lists.length_eq ▸ bound), List.length_take_of_le bound,
    List.forall₂_take i image.holds, List.forall₂_drop i image.holds⟩

/-- A table is cut around the node that holds a given entry. -/
theorem cut_entry (image : Represents ram live tail entries) {i : Nat} {entry : Entry}
    (held : entries[i]? = some entry) :
    ∃ before np behind first second, live = before ++ np :: behind ∧
      entries = first ++ entry :: second ∧ before.length = i ∧ first.length = i ∧
      List.Forall₂ (Holds ram.memory) before first ∧ Holds ram.memory np entry ∧
      List.Forall₂ (Holds ram.memory) behind second := by
  obtain ⟨bound, exact⟩ := List.getElem?_eq_some_iff.mp held
  obtain ⟨before, behind, first, second, liveParts, parts, beforeLength, firstLength,
    holdsBefore, holdsBehind⟩ := image.cut (Nat.le_of_lt bound)
  cases holdsBehind with
  | nil => simp [parts, firstLength] at bound
  | @cons np other behind second here later =>
    have same : other = entry := by simpa [parts, firstLength] using exact
    exact ⟨before, np, behind, first, second, liveParts, same ▸ parts, beforeLength,
      firstLength, holdsBefore, same ▸ here, later⟩

/-- Blocks that are not live are owned by no live slot. -/
theorem new_not_owned (image : Represents ram live tail entries) {p : Ptr}
    (dead : ram.memory.read p = none) : p ∉ owned live := by
  intro member
  obtain ⟨block, read⟩ := owned_live image.lists.points p member
  rw [dead] at read
  cases read

/-- A memory that still holds every live block represents the same entries. -/
theorem extend_memory (image : Represents ram live tail entries) {memory : Memory}
    (extension : memory.Extends ram.memory) :
    Represents { ram with memory := memory } live tail entries :=
  ⟨image.layout, image.used, holds_frame image.holds fun p _ block => extension p block,
    image.distinct⟩

/-- A value shorter than the block it replaces is written over it. The block is
owned by this node alone, so no other entry changes. -/
theorem overwrite_spec (image : Represents ram live tail entries) {i : Nat} {entry : Entry}
    (held : entries[i]? = some entry) (value : CString) (grants : Grants)
    {np : NvramNode} (slot : live[i]? = some np) (fits : (value.length : Int) < np.vlen) :
    ∃ after, replaceValue ram i value grants = some (retOk, after) ∧
      Represents after live tail (entries.set i (entry.1, value)) ∧
      (Accounts ram live entries → entry.2.length ≤ value.length →
        Accounts after live (entries.set i (entry.1, value))) := by
  obtain ⟨before, node, behind, first, second, rfl, rfl, beforeLength, firstLength,
    holdsBefore, here, holdsBehind⟩ := image.cut_entry held
  subst beforeLength
  obtain rfl : node = np := by simpa using slot
  cases here with
  | @intro p q name old nlen vlen nameLive valueLive room sized =>
    obtain ⟨different, apartBefore, apartBehind, -⟩ := distinct_middle image.distinct
    have large : value.length + 1 ≤ old.size := by
      simp only [sized] at fits
      omega
    obtain ⟨memory, written, -, stored, kept⟩ :=
      Heap.write_live valueLive { old with text := value }
    have found : ram.nvram.nodeList[before.length]? = some ⟨some p, some q, nlen, vlen⟩ := by
      simp [image.layout]
    refine ⟨{ ram with memory := memory }, ?_, ⟨image.layout, image.used, ?_, image.distinct⟩, ?_⟩
    · simp only [replaceValue, found, Option.bind_eq_bind, Option.bind_some, fits, if_true,
        sprintf, valueLive, large, written]
    · rw [← firstLength, List.set_append_right _ _ (Nat.le_refl _), Nat.sub_self,
        List.set_cons_zero]
      refine List.rel_append (holds_frame holdsBefore fun r member block live => ?_)
        (.cons ?_ (holds_frame holdsBehind fun r member block live => ?_))
      · rw [kept r (apartBefore r member).2, live]
      · exact .intro (by rw [kept p different, nameLive]) stored large sized
      · rw [kept r (apartBehind r member).2, live]
    · intro accounts longer
      obtain ⟨lower, ⟨nameLength, valueLength⟩, upper⟩ := accounts.cut firstLength.symm
      -- the block has no room for a longer value, so the value has the old length
      have same : vlen = (value.length : Int) + 1 := by
        dsimp only at fits valueLength longer
        omega
      refine ⟨?_, accounts.total⟩
      rw [← firstLength, List.set_append_right _ _ (Nat.le_refl _), Nat.sub_self,
        List.set_cons_zero]
      exact List.rel_append lower (.cons ⟨nameLength, same⟩ upper)

/-- A longer value gets a block of its own, and the old block is freed. -/
theorem reallocate_spec (image : Represents ram live tail entries) {i : Nat} {entry : Entry}
    (held : entries[i]? = some entry) (value : CString) (grants : Grants)
    (granted : grants.value = true) {np : NvramNode} (slot : live[i]? = some np)
    (outgrown : ¬ (value.length : Int) < np.vlen) :
    ∃ after live', replaceValue ram i value grants = some (retOk, after) ∧
      Represents after live' tail (entries.set i (entry.1, value)) ∧
      (Accounts ram live entries → Accounts after live' (entries.set i (entry.1, value))) := by
  obtain ⟨before, node, behind, first, second, rfl, rfl, beforeLength, firstLength,
    holdsBefore, here, holdsBehind⟩ := image.cut_entry held
  subst beforeLength
  obtain rfl : node = np := by simpa using slot
  cases here with
  | @intro p q name old nlen vlen nameLive valueLive room sized =>
    obtain ⟨different, apartBefore, apartBehind, apart⟩ := distinct_middle image.distinct
    let copy : Block := ⟨value.length + 1, value⟩
    let tmp := (ram.memory.alloc copy).1
    have extension := ram.memory.alloc_extends copy
    have fresh : ram.memory.read tmp = none := ram.memory.alloc_fresh copy
    have apartTmp : ∀ r block, ram.memory.read r = some block → tmp ≠ r := by
      rintro r block live rfl
      rw [fresh] at live
      cases live
    obtain ⟨memory, freed, -, -, kept⟩ := Heap.free_live (extension q old valueLive)
    have survives : ∀ r block, r ≠ q → ram.memory.read r = some block →
        memory.read r = some block := by
      intro r block other live
      rw [kept r other]
      exact extension r block live
    have found : ram.nvram.nodeList[before.length]? = some ⟨some p, some q, nlen, vlen⟩ := by
      simp [image.layout]
    have bound : before.length < ram.nvram.nodeList.length := by simp [image.layout]
    refine ⟨⟨memory, ram.nvram.nodeList.set before.length
      ⟨some p, some tmp, nlen, (value.length : Int) + 1⟩, ram.nvram.nodeListUsed,
      ram.nvram.totalSpaceUsed - BitVec.ofInt 32 vlen +
        BitVec.ofInt 32 ((value.length : Int) + 1)⟩,
      before ++ ⟨some p, some tmp, nlen, (value.length : Int) + 1⟩ :: behind, ?_,
      ⟨?_, ?_, ?_, ?_⟩, ?_⟩
    · simp only [replaceValue, found, Option.bind_eq_bind, Option.bind_some, outgrown, if_false,
        strdup, granted, if_true, free, copy, freed, storeNode, bound, tmp]
    · simp [image.layout]
    · simpa using image.used
    · rw [← firstLength, List.set_append_right _ _ (Nat.le_refl _), Nat.sub_self,
        List.set_cons_zero]
      refine List.rel_append (holds_frame holdsBefore fun r member block =>
          survives r block (apartBefore r member).2)
        (.cons ?_ (holds_frame holdsBehind fun r member block =>
          survives r block (apartBehind r member).2))
      have stored : memory.read tmp = some copy := by
        rw [kept tmp (apartTmp q old valueLive)]
        exact ram.memory.read_alloc copy
      exact .intro (survives p name different nameLive) stored (Nat.lt_succ_self _) rfl
    · have newTmp : tmp ∉ owned (before ++ behind) := by
        intro member
        refine image.new_not_owned fresh ?_
        rw [(owned_middle before behind _).mem_iff]
        exact List.mem_append_right _ member
      have nameApart : p ∉ owned (before ++ behind) := by
        rw [owned_append, List.mem_append, not_or]
        exact ⟨fun member => (apartBefore p member).1 rfl,
          fun member => (apartBehind p member).1 rfl⟩
      exact distinct_fill apart (apartTmp p name nameLive).symm nameApart newTmp
    · intro accounts
      obtain ⟨lower, ⟨nameLength, -⟩, upper⟩ := accounts.cut firstLength.symm
      refine ⟨?_, spaceOf_changed accounts.total⟩
      rw [← firstLength, List.set_append_right _ _ (Nat.le_refl _), Nat.sub_self,
        List.set_cons_zero]
      exact List.rel_append lower (.cons ⟨nameLength, rfl⟩ upper)

/-- A new value for entry `i` is stored unless its copy is refused memory, which
leaves the table as it was. -/
theorem replaceValue_spec (image : Represents ram live tail entries) {i : Nat} {entry : Entry}
    (held : entries[i]? = some entry) (value : CString) (grants : Grants) :
    (∃ after live', replaceValue ram i value grants = some (retOk, after) ∧
      Represents after live' tail (entries.set i (entry.1, value)) ∧
      (Accounts ram live entries → entry.2.length ≤ value.length →
        Accounts after live' (entries.set i (entry.1, value)))) ∨
    (grants.value = false ∧ replaceValue ram i value grants = some (retFail, ram)) := by
  have bound : i < live.length := image.lists.length_eq ▸ (List.getElem?_eq_some_iff.mp held).1
  have slot := List.getElem?_eq_getElem bound
  by_cases fits : (value.length : Int) < live[i].vlen
  · obtain ⟨after, done, represents⟩ := image.overwrite_spec held value grants slot fits
    exact .inl ⟨after, live, done, represents⟩
  · cases granted : grants.value with
    | true =>
      obtain ⟨after, live', done, represents, counted⟩ :=
        image.reallocate_spec held value grants granted slot fits
      exact .inl ⟨after, live', done, represents, fun accounts _ => counted accounts⟩
    | false =>
      have found : ram.nvram.nodeList[i]? = some live[i] := by
        rw [image.layout, List.getElem?_append_left bound, slot]
      refine .inr ⟨rfl, ?_⟩
      simp [replaceValue, found, fits, strdup, granted]

/-- Shifting the slots from `first.length` on by one overwrites one slot behind
them and leaves a slot to fill. The last slot moves first, so the induction takes
the shifted slots from their end. -/
theorem shiftUp_spec (first second tail : List NvramNode) (spare : NvramNode) :
    ∃ hole, shiftUp first.length (first.length + second.length) (first ++ second ++ spare :: tail) =
      some (first ++ hole :: second ++ tail) := by
  induction second using List.reverseRecOn generalizing spare tail with
  | nil =>
    refine ⟨spare, ?_⟩
    cases first with
    | nil => simp [shiftUp]
    | cons head rest => simp [shiftUp]
  | append_singleton second last inductionHypothesis =>
    obtain ⟨hole, shifted⟩ := inductionHypothesis (last :: tail) last
    refine ⟨hole, ?_⟩
    have before : first.length < first.length + second.length + 1 := by omega
    have source : (first ++ (second ++ [last]) ++ spare :: tail)[first.length + second.length]? =
        some last := by
      rw [← List.append_assoc, List.append_assoc (first ++ second), ← List.length_append]
      simp
    have target : (first ++ (second ++ [last]) ++ spare :: tail).set
        (first.length + second.length + 1) last = first ++ second ++ last :: last :: tail := by
      have split : first ++ (second ++ [last]) ++ spare :: tail =
          (first ++ second ++ [last]) ++ spare :: tail := by simp
      have position : first.length + second.length + 1 = (first ++ second ++ [last]).length := by
        simp only [List.length_append, List.length_singleton]
      rw [split, position, List.set_append_right _ _ (Nat.le_refl _), Nat.sub_self]
      simp
    have inside : first.length + second.length + 1 <
        (first ++ (second ++ [last]) ++ spare :: tail).length := by
      simp only [List.length_append, List.length_cons, List.length_nil]
      omega
    rw [List.length_append, List.length_singleton, ← Nat.add_assoc, shiftUp, if_pos before]
    simp only [source, Option.bind_eq_bind, Option.bind_some, storeNode, inside, if_true, target,
      shifted]
    simp

/-- Two copies made one after the other are new, distinct blocks. -/
theorem fresh_pair (memory : Memory) (name value : CString) :
    ∃ p q between after, strdup memory true name = (some p, between) ∧
      strdup between true value = (some q, after) ∧ after.Extends memory ∧
      memory.read p = none ∧ memory.read q = none ∧ p ≠ q ∧
      after.read p = some ⟨name.length + 1, name⟩ ∧
      after.read q = some ⟨value.length + 1, value⟩ := by
  let nameBlock : Block := ⟨name.length + 1, name⟩
  let valueBlock : Block := ⟨value.length + 1, value⟩
  let between := (memory.alloc nameBlock).2
  have nameRead : between.read (memory.alloc nameBlock).1 = some nameBlock :=
    memory.read_alloc nameBlock
  have fresh : between.read (between.alloc valueBlock).1 = none := between.alloc_fresh valueBlock
  have earlier := memory.alloc_extends nameBlock
  have later := between.alloc_extends valueBlock
  refine ⟨(memory.alloc nameBlock).1, (between.alloc valueBlock).1, between,
    (between.alloc valueBlock).2, rfl, rfl, Heap.extends_trans later earlier,
    memory.alloc_fresh nameBlock, ?_, ?_, later _ _ nameRead, between.read_alloc valueBlock⟩
  · cases old : memory.read (between.alloc valueBlock).1 with
    | none => rfl
    | some block =>
      rw [earlier _ block old] at fresh
      cases fresh
  · intro same
    rw [← same, nameRead] at fresh
    cases fresh

/-- Filling the slot opened by the shift inserts an entry. -/
theorem place_spec {spare : NvramNode} {rest : List NvramNode}
    (image : Represents ram live (spare :: rest) entries) {i : Nat} (bound : i ≤ entries.length)
    {p q : Ptr} {name value : CString} (different : p ≠ q)
    (nameRead : ram.memory.read p = some ⟨name.length + 1, name⟩)
    (valueRead : ram.memory.read q = some ⟨value.length + 1, value⟩)
    (pNew : p ∉ owned live) (qNew : q ∉ owned live) :
    ∃ nodeList after live', shiftUp i ram.nvram.nodeListUsed ram.nvram.nodeList = some nodeList ∧
      fillSlot ram.memory { ram.nvram with nodeList := nodeList } i (filledNode p q name value) =
        some (retOk, after) ∧
      Represents after live' rest (entries.insertIdx i (name, value)) ∧
      (Accounts ram live entries → Accounts after live' (entries.insertIdx i (name, value))) := by
  obtain ⟨before, behind, first, second, rfl, rfl, beforeLength, firstLength,
    holdsBefore, holdsBehind⟩ := image.cut bound
  subst beforeLength
  obtain ⟨hole, shifted⟩ := shiftUp_spec before behind rest spare
  rw [← List.length_append, ← image.used, ← image.layout] at shifted
  have inside : before.length < (before ++ hole :: behind ++ rest).length := by simp
  have filled : (before ++ hole :: behind ++ rest).set before.length (filledNode p q name value) =
      before ++ filledNode p q name value :: behind ++ rest := by simp
  let after : Ram := ⟨ram.memory, before ++ filledNode p q name value :: behind ++ rest,
    ram.nvram.nodeListUsed + 1, ram.nvram.totalSpaceUsed +
      BitVec.ofInt 32 (filledNode p q name value).nlen +
      BitVec.ofInt 32 (filledNode p q name value).vlen⟩
  refine ⟨before ++ hole :: behind ++ rest, after,
    before ++ filledNode p q name value :: behind, shifted, ?_, ⟨rfl, ?_, ?_, ?_⟩, ?_⟩
  · simp only [fillSlot, storeNode, inside, if_true, filled, Option.bind_eq_bind,
      Option.bind_some, after]
  · simp only [after, image.used, List.length_append, List.length_cons]
    omega
  · rw [← firstLength, insertIdx_between]
    exact List.rel_append holdsBefore
      (.cons (.intro nameRead valueRead (Nat.lt_succ_self _) rfl) holdsBehind)
  · exact distinct_fill image.distinct different pNew qNew
  · intro accounts
    have lower := List.forall₂_take before.length accounts.lengths
    have upper := List.forall₂_drop before.length accounts.lengths
    rw [List.take_left, ← firstLength, List.take_left] at lower
    rw [List.drop_left, ← firstLength, List.drop_left] at upper
    refine ⟨?_, spaceOf_filled accounts.total _⟩
    rw [← firstLength, insertIdx_between]
    exact List.rel_append lower (.cons ⟨rfl, rfl⟩ upper)

end Represents

end Ezcfg.RamNvram

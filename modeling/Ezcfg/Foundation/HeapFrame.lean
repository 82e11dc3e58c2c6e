import Mathlib.Data.List.Nodup
import Ezcfg.Foundation.Heap

/-!
# What is live besides an earlier heap

A computation allocates cells, changes them and frees them, and leaves all others alone. The cells
that it has at some time are named once each; they were not live before. When it has none left,
everything reads as before.
-/

namespace Foundation.Heap

universe u

variable {α : Type u} {start heap : Heap α} {owned : List Ptr} {p : Ptr}

/-- Exactly the cells of the list are live besides those of an earlier heap. -/
structure Besides (start heap : Heap α) (owned : List Ptr) : Prop where
  nodup : owned.Nodup
  fresh : ∀ p ∈ owned, start.read p = none
  live : ∀ p ∈ owned, (heap.read p).isSome
  others : ∀ p, p ∉ owned → heap.read p = start.read p
  grown : start.length ≤ heap.length

/-- Nothing is live besides. -/
theorem besides_refl (start : Heap α) : Besides start start [] where
  nodup := List.nodup_nil
  fresh _ member := absurd member List.not_mem_nil
  live _ member := absurd member List.not_mem_nil
  others _ _ := rfl
  grown := Nat.le_refl _

/-- Nothing is live behind the last cell. -/
theorem read_beyond (heap : Heap α) (beyond : heap.length ≤ p) : heap.read p = none := by
  rw [read, List.getElem?_eq_none beyond]
  rfl

/-- Other cells than a new one read as before. -/
theorem read_alloc_other (heap : Heap α) (cell : α) (other : p ≠ (heap.alloc cell).1) :
    (heap.alloc cell).2.read p = heap.read p := by
  rcases Nat.lt_or_ge p heap.length with inside | beyond
  · rw [alloc, read, read, List.getElem?_append_left inside]
  · have above : heap.length < p := Nat.lt_of_le_of_ne beyond (Ne.symm other)
    have outside : (heap.alloc cell).2.length ≤ p := by
      change (heap ++ [some cell]).length ≤ p
      rw [List.length_append, List.length_singleton]
      omega
    rw [read_beyond _ outside, read_beyond heap beyond]

/-- A new cell is live besides. -/
theorem Besides.alloc (besides : Besides start heap owned) (cell : α) :
    Besides start (heap.alloc cell).2 ((heap.alloc cell).1 :: owned) where
  nodup := by
    rw [List.nodup_cons]
    refine ⟨?_, besides.nodup⟩
    intro member
    have live := besides.live _ member
    rw [alloc_fresh] at live
    cases live
  fresh p member := by
    obtain rfl | member := List.mem_cons.mp member
    · exact read_beyond start besides.grown
    · exact besides.fresh p member
  live p member := by
    by_cases same : p = (heap.alloc cell).1
    · rw [same, read_alloc]
      rfl
    · rw [read_alloc_other heap cell same]
      exact besides.live p ((List.mem_cons.mp member).resolve_left same)
  others p absent := by
    rw [List.mem_cons, not_or] at absent
    rw [read_alloc_other heap cell absent.1]
    exact besides.others p absent.2
  grown := by
    change start.length ≤ (heap ++ [some cell]).length
    rw [List.length_append]
    exact Nat.le_trans besides.grown (Nat.le_add_right _ _)

/-- A cell that is live besides can be written. -/
theorem Besides.write (besides : Besides start heap owned) (member : p ∈ owned) (cell : α) :
    ∃ after, heap.write p cell = some after ∧ Besides start after owned ∧
      after.read p = some cell ∧ ∀ q, q ≠ p → after.read q = heap.read q := by
  obtain ⟨old, live⟩ := Option.isSome_iff_exists.mp (besides.live p member)
  obtain ⟨after, done, size, written, others⟩ := write_live live cell
  refine ⟨after, done, ⟨besides.nodup, besides.fresh, ?_, ?_, ?_⟩, written, others⟩
  · intro q memberToo
    by_cases same : q = p
    · rw [same, written]
      rfl
    · rw [others q same]
      exact besides.live q memberToo
  · intro q absent
    rw [others q fun same => absent (same ▸ member)]
    exact besides.others q absent
  · rw [size]
    exact besides.grown

/-- A cell that is freed is not live besides. -/
theorem Besides.free (besides : Besides start heap (p :: owned)) :
    ∃ after, heap.free p = some after ∧ Besides start after owned ∧
      ∀ q, q ≠ p → after.read q = heap.read q := by
  obtain ⟨old, live⟩ := Option.isSome_iff_exists.mp (besides.live p List.mem_cons_self)
  obtain ⟨after, done, size, gone, others⟩ := free_live live
  obtain ⟨apart, distinct⟩ := List.nodup_cons.mp besides.nodup
  refine ⟨after, done, ⟨distinct, ?_, ?_, ?_, ?_⟩, others⟩
  · exact fun q member => besides.fresh q (List.mem_cons_of_mem _ member)
  · intro q member
    rw [others q fun same => apart (same ▸ member)]
    exact besides.live q (List.mem_cons_of_mem _ member)
  · intro q absent
    by_cases same : q = p
    · rw [same, gone]
      exact (besides.fresh p List.mem_cons_self).symm
    · rw [others q same]
      apply besides.others
      rw [List.mem_cons, not_or]
      exact ⟨same, absent⟩
  · rw [size]
    exact besides.grown

/-- When nothing is left everything reads as before. -/
theorem Besides.restored (besides : Besides start heap []) (p : Ptr) :
    heap.read p = start.read p :=
  besides.others p List.not_mem_nil

end Foundation.Heap

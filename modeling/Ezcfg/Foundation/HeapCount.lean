import Ezcfg.Foundation.Heap

/-!
# The number of live cells

An allocation makes one more cell live, a release one less, and a write none.
-/

namespace Foundation.Heap

universe u
variable {α : Type u} {heap after : Heap α} {p : Ptr}

/-- How many cells are live. -/
def count (heap : Heap α) : Nat := heap.countP Option.isSome

theorem count_alloc (cell : α) : (heap.alloc cell).2.count = heap.count + 1 := by
  simp [count, alloc]

/-- What replacing a live cell makes of the count. -/
theorem count_set {cell : Option α} (live : (heap.read p).isSome = true) :
    count (heap.set p cell) + 1 = heap.count + if cell.isSome then 1 else 0 := by
  obtain ⟨old, read⟩ := Option.isSome_iff_exists.mp live
  have inside := live_bound read
  have here : heap[p].isSome = true := by
    rw [Heap.read, Option.join_eq_some_iff, List.getElem?_eq_getElem inside] at read
    rw [Option.some.inj read]
    rfl
  have any : 0 < heap.countP Option.isSome :=
    List.countP_pos_iff.mpr ⟨heap[p], List.getElem_mem inside, here⟩
  rw [count, List.countP_set inside, if_pos here, count]
  omega

theorem count_write {cell : α} (written : heap.write p cell = some after) :
    after.count = heap.count := by
  rw [write] at written
  split at written
  · cases written
    exact Nat.succ.inj (count_set ‹_›)
  · cases written

theorem count_free (freed : heap.free p = some after) : after.count + 1 = heap.count := by
  rw [free] at freed
  split at freed
  · cases freed
    exact count_set ‹_›
  · cases freed

end Foundation.Heap

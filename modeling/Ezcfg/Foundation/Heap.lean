/-!
# A heap of separately allocated cells

An address names one allocation. A cell is live from its allocation until it is
freed; addresses are never handed out again, so a pointer kept past the free of
its cell stays dangling. Reading, writing or freeing an address that is not live
has no result, which is how undefined behaviour appears in a model built on this
heap: the operation that would cause it returns none.
-/

namespace Foundation

universe u

/-- The name of one allocation. -/
abbrev Ptr := Nat

/-- Allocation order is address order; a freed cell stays in place as none. -/
abbrev Heap (α : Type u) := List (Option α)

namespace Heap

variable {α : Type u}

/-- The contents of a live cell. -/
def read (heap : Heap α) (p : Ptr) : Option α := heap[p]?.join

/-- A new live cell behind all earlier ones. -/
def alloc (heap : Heap α) (cell : α) : Ptr × Heap α := (heap.length, heap ++ [some cell])

/-- Replace the contents of a live cell. -/
def write (heap : Heap α) (p : Ptr) (cell : α) : Option (Heap α) :=
  if (heap.read p).isSome then some (heap.set p (some cell)) else none

/-- Release a live cell. -/
def free (heap : Heap α) (p : Ptr) : Option (Heap α) :=
  if (heap.read p).isSome then some (heap.set p none) else none

/-- `second` still holds every cell that `first` holds. -/
def Extends (second first : Heap α) : Prop :=
  ∀ p cell, first.read p = some cell → second.read p = some cell

/-- A live address is below the number of allocations made so far. -/
theorem live_bound {heap : Heap α} {p : Ptr} {cell : α} (live : heap.read p = some cell) :
    p < heap.length := by
  refine Nat.lt_of_not_le fun beyond => ?_
  simp [read, List.getElem?_eq_none beyond] at live

/-- The new cell is live at the address handed out. -/
@[simp] theorem read_alloc (heap : Heap α) (cell : α) :
    (heap.alloc cell).2.read (heap.alloc cell).1 = some cell := by
  simp [read, alloc]

/-- The address handed out was not live. -/
theorem alloc_fresh (heap : Heap α) (cell : α) : heap.read (heap.alloc cell).1 = none := by
  simp [read, alloc]

/-- An allocation keeps every live cell. -/
theorem alloc_extends (heap : Heap α) (cell : α) : (heap.alloc cell).2.Extends heap := by
  intro p old live
  have bound := live_bound live
  simpa only [read, alloc, List.getElem?_append_left bound] using live

theorem extends_trans {first second third : Heap α} (later : third.Extends second)
    (earlier : second.Extends first) : third.Extends first :=
  fun p cell live => later p cell (earlier p cell live)

/-- Writing a live cell succeeds, changes that cell and no other. -/
theorem write_live {heap : Heap α} {p : Ptr} {old : α} (live : heap.read p = some old)
    (cell : α) : ∃ after, heap.write p cell = some after ∧ after.length = heap.length ∧
      after.read p = some cell ∧ ∀ q, q ≠ p → after.read q = heap.read q := by
  have bound := live_bound live
  refine ⟨heap.set p (some cell), by simp [write, live], by simp, by simp [read, bound], ?_⟩
  intro q different
  simp [read, List.getElem?_set_ne different.symm]

/-- Freeing a live cell succeeds and leaves every other cell as it was. -/
theorem free_live {heap : Heap α} {p : Ptr} {old : α} (live : heap.read p = some old) :
    ∃ after, heap.free p = some after ∧ after.length = heap.length ∧
      after.read p = none ∧ ∀ q, q ≠ p → after.read q = heap.read q := by
  have bound := live_bound live
  refine ⟨heap.set p none, by simp [free, live], by simp, by simp [read, bound], ?_⟩
  intro q different
  simp [read, List.getElem?_set_ne different.symm]

/-- A cell released right after its allocation leaves every cell as it was. -/
theorem alloc_free (heap : Heap α) (cell : α) : ∃ after,
    (heap.alloc cell).2.free (heap.alloc cell).1 = some after ∧
      ∀ q, after.read q = heap.read q := by
  obtain ⟨after, freed, -, gone, kept⟩ := free_live (heap.read_alloc cell)
  refine ⟨after, freed, fun q => ?_⟩
  by_cases same : q = (heap.alloc cell).1
  · rw [same, gone, heap.alloc_fresh cell]
  · rw [kept q same]
    rcases Nat.lt_or_ge q heap.length with inside | beyond
    · simp only [read, alloc, List.getElem?_append_left inside]
    · have above : heap.length < q := Nat.lt_of_le_of_ne beyond (Ne.symm same)
      have outside : (heap ++ [some cell]).length ≤ q := by
        rw [List.length_append, List.length_singleton]
        omega
      simp only [read, alloc, List.getElem?_eq_none outside, List.getElem?_eq_none beyond]

/-- Only live cells can be freed: a second free has no result. -/
theorem free_dead {heap : Heap α} {p : Ptr} (dead : heap.read p = none) :
    heap.free p = none := by
  simp [free, dead]

/-- Exactly the cells of the list are live, and it names each of them once. -/
def Owns (heap : Heap α) (owned : List Ptr) : Prop :=
  owned.Nodup ∧ ∀ p, (heap.read p).isSome ↔ p ∈ owned

/-- An empty heap owns nothing. -/
theorem owns_nil : Owns ([] : Heap α) [] := ⟨List.nodup_nil, fun p => by simp [read]⟩

/-- What is owned has no order. -/
theorem Owns.perm {heap : Heap α} {owned other : List Ptr} (owns : heap.Owns owned)
    (same : owned.Perm other) : heap.Owns other :=
  ⟨same.nodup_iff.mp owns.1, fun p => (owns.2 p).trans same.mem_iff⟩

/-- A cell that is owned is live. -/
theorem Owns.live {heap : Heap α} {owned : List Ptr} (owns : heap.Owns owned) {p : Ptr}
    (member : p ∈ owned) : ∃ cell, heap.read p = some cell :=
  Option.isSome_iff_exists.mp ((owns.2 p).mpr member)

/-- A new cell is owned besides. -/
theorem Owns.alloc {heap : Heap α} {owned : List Ptr} (owns : heap.Owns owned) (cell : α) :
    (heap.alloc cell).2.Owns ((heap.alloc cell).1 :: owned) := by
  have fresh := alloc_fresh heap cell
  refine ⟨List.nodup_cons.mpr ⟨fun member => ?_, owns.1⟩, fun p => ?_⟩
  · obtain ⟨old, live⟩ := owns.live member
    rw [fresh] at live
    cases live
  · by_cases same : p = (heap.alloc cell).1
    · simp [same]
    · rw [List.mem_cons, ← owns.2 p]
      simp only [same, false_or]
      rcases Nat.lt_or_ge p heap.length with inside | beyond
      · simp only [read, Heap.alloc, List.getElem?_append_left inside]
      · have above : heap.length < p := Nat.lt_of_le_of_ne beyond (Ne.symm same)
        have outside : (heap ++ [some cell]).length ≤ p := by
          rw [List.length_append, List.length_singleton]
          omega
        simp only [read, Heap.alloc, List.getElem?_eq_none outside, List.getElem?_eq_none beyond]

/-- Writing changes nothing in what is owned. -/
theorem Owns.write {heap : Heap α} {owned : List Ptr} (owns : heap.Owns owned) {p : Ptr}
    (member : p ∈ owned) (cell : α) : ∃ after, heap.write p cell = some after ∧
      after.Owns owned ∧ after.read p = some cell ∧ ∀ q, q ≠ p → after.read q = heap.read q := by
  obtain ⟨old, live⟩ := owns.live member
  obtain ⟨after, done, -, written, others⟩ := write_live live cell
  refine ⟨after, done, ⟨owns.1, fun q => ?_⟩, written, others⟩
  by_cases same : q = p
  · simp [same, written, member]
  · rw [others q same, owns.2 q]

/-- A cell that is freed is owned no longer. -/
theorem Owns.free {heap : Heap α} {owned : List Ptr} {p : Ptr} (owns : heap.Owns (p :: owned)) :
    ∃ after, heap.free p = some after ∧ after.Owns owned ∧
      ∀ q, q ≠ p → after.read q = heap.read q := by
  obtain ⟨old, live⟩ := owns.live List.mem_cons_self
  obtain ⟨after, done, -, gone, others⟩ := free_live live
  obtain ⟨apart, distinct⟩ := List.nodup_cons.mp owns.1
  refine ⟨after, done, ⟨distinct, fun q => ?_⟩, others⟩
  by_cases same : q = p
  · simp [same, gone, apart]
  · rw [others q same, owns.2 q, List.mem_cons]
    simp [same]

end Heap

end Foundation

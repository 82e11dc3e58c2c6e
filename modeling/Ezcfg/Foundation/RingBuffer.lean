import Mathlib.Data.List.Basic
import Mathlib.Data.Nat.ModEq

/-!
# Ring buffers

A ring buffer keeps a queue in the cells of an array. The queue begins at a place and goes
on from cell to cell; behind the last cell comes the first one. Places that differ by a
multiple of the length of the array are the same cell.
-/

namespace Foundation.RingBuffer

universe u
variable {α : Type u}

/-- The queue is in the cells from a place on. -/
structure Holds (cells : List α) (start : Nat) (queue : List α) : Prop where
  fits : queue.length ≤ cells.length
  stored : ∀ i (inside : i < queue.length),
    cells[(start + i) % cells.length]? = some queue[i]

/-- The empty queue is at every place. -/
theorem Holds.empty (cells : List α) (start : Nat) : Holds cells start [] where
  fits := Nat.zero_le _
  stored i inside := absurd inside (Nat.not_lt_zero i)

/-- Cells of one queue are different. -/
theorem cell_injective {length start i j : Nat} (first : i < length) (second : j < length)
    (same : (start + i) % length = (start + j) % length) : i = j := by
  have congruent : i ≡ j [MOD length] := Nat.ModEq.add_left_cancel' start same
  exact Nat.ModEq.eq_of_lt_of_lt congruent first second

/-- Another element goes to the cell behind the last one, when there is one. -/
theorem Holds.push {cells queue : List α} {start : Nat} (holds : Holds cells start queue)
    (room : queue.length < cells.length) (a : α) :
    Holds (cells.set ((start + queue.length) % cells.length) a) start (queue ++ [a]) where
  fits := by
    rw [List.length_append, List.length_set]
    exact room
  stored i inside := by
    have positive : 0 < cells.length := by omega
    rw [List.length_set]
    rw [List.length_append, List.length_singleton] at inside
    by_cases last : i = queue.length
    · subst last
      rw [List.getElem?_set_self (Nat.mod_lt _ positive), List.getElem_concat_length rfl]
    · have earlier : i < queue.length := by omega
      have other : (start + queue.length) % cells.length ≠ (start + i) % cells.length :=
        fun same => last (cell_injective room (by omega) same).symm
      rw [List.getElem?_set_ne other, holds.stored i earlier, List.getElem_append_left earlier]

/-- The first element is in the cell of the place. -/
theorem Holds.head {cells queue : List α} {start : Nat} {a : α}
    (holds : Holds cells start (a :: queue)) : cells[start % cells.length]? = some a :=
  holds.stored 0 (Nat.zero_lt_succ _)

/-- Without its first element the queue begins at the next place. -/
theorem Holds.pop {cells queue : List α} {start : Nat} {a : α}
    (holds : Holds cells start (a :: queue)) : Holds cells (start + 1) queue where
  fits := by
    have fits := holds.fits
    rw [List.length_cons] at fits
    omega
  stored i inside := by
    have stored := holds.stored (i + 1) (by simpa using inside)
    rw [List.getElem_cons_succ] at stored
    rw [← stored]
    congr 2
    omega

/-- A queue may begin at any place of the same cell. -/
theorem Holds.move {cells queue : List α} {start other : Nat} (holds : Holds cells start queue)
    (same : other ≡ start [MOD cells.length]) : Holds cells other queue where
  fits := holds.fits
  stored i inside := by
    have cell : (other + i) % cells.length = (start + i) % cells.length := same.add_right i
    rw [cell]
    exact holds.stored i inside

end Foundation.RingBuffer

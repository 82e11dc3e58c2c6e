import Ezcfg.Foundation.ByteArea

/-!
# Areas that are cut into cells

The front of an area is cut into cells of one size. A cell is read and written at the
multiple of the size that its place says; writing a cell leaves the other ones as they are.
-/

namespace Foundation

/-- So many bytes at a position. They have no value when they are not all in the area. -/
def ByteArea.readAt (area : List UInt8) (p count : Nat) : Option (List UInt8) :=
  if p + count ≤ area.length then some ((area.drop p).take count) else none

/-- A number of four bytes, the lowest first. -/
def ByteArea.readU32 (area : List UInt8) (p : Nat) : Option Nat :=
  (readAt area p 4).map fun bytes => bytes.foldr (fun byte value => byte.toNat + 256 * value) 0

/-- The bytes in the middle of an area are read at their position. -/
theorem ByteArea.readAt_between (before bytes after : List UInt8) :
    readAt (before ++ bytes ++ after) before.length bytes.length = some bytes := by
  have inside : before.length + bytes.length ≤ (before ++ bytes ++ after).length := by
    rw [List.length_append, List.length_append]
    omega
  rw [readAt, if_pos inside, List.append_assoc, List.drop_left, List.take_left]

/-- The front of an area is cut into cells. -/
structure Cells (size : Nat) (cells : List (List UInt8)) (area : List UInt8) : Prop where
  uniform : ∀ cell ∈ cells, cell.length = size
  front : cells.flatten <+: area

namespace Cells

variable {size : Nat} {cells : List (List UInt8)} {area cell : List UInt8} {i : Nat}

/-- Cells of one size take their number times the size. -/
theorem flatten_length (uniform : ∀ cell ∈ cells, cell.length = size) :
    cells.flatten.length = cells.length * size := by
  induction cells with
  | nil => rw [List.flatten_nil, List.length_nil, List.length_nil, Nat.zero_mul]
  | cons first rest inductionHypothesis =>
    rw [List.forall_mem_cons] at uniform
    rw [List.flatten_cons, List.length_append, uniform.1, inductionHypothesis uniform.2,
      List.length_cons, Nat.succ_mul, Nat.add_comm]

/-- A cell lies at its place, and another one may be put there. -/
theorem parts (cut : Cells size cells area) (present : cells[i]? = some cell) :
    ∃ before after, area = before ++ cell ++ after ∧ before.length = i * size ∧
      ∀ unit : List UInt8, unit.length = size →
        Cells size (cells.set i unit) (before ++ unit ++ after) := by
  obtain ⟨inside, rfl⟩ := List.getElem?_eq_some_iff.mp present
  obtain ⟨uniform, junk, rfl⟩ := cut
  have earlier : ∀ cell ∈ cells.take i, cell.length = size :=
    fun cell member => uniform cell (List.mem_of_mem_take member)
  have later : ∀ cell ∈ cells.drop (i + 1), cell.length = size :=
    fun cell member => uniform cell (List.mem_of_mem_drop member)
  refine ⟨(cells.take i).flatten, (cells.drop (i + 1)).flatten ++ junk, ?_, ?_, ?_⟩
  · have split : cells = cells.take i ++ cells[i] :: cells.drop (i + 1) := by simp
    conv_lhs => rw [split]
    simp only [List.flatten_append, List.flatten_cons, List.append_assoc]
  · rw [flatten_length earlier, List.length_take_of_le (Nat.le_of_lt inside)]
  · intro unit sized
    rw [List.set_eq_take_append_cons_drop, if_pos inside]
    constructor
    · intro cell member
      rw [List.mem_append, List.mem_cons] at member
      obtain member | rfl | member := member
      · exact earlier cell member
      · exact sized
      · exact later cell member
    · refine ⟨junk, ?_⟩
      simp only [List.flatten_append, List.flatten_cons, List.append_assoc]

/-- A cell is read at its place. -/
theorem read (cut : Cells size cells area) (present : cells[i]? = some cell) :
    ByteArea.readAt area (i * size) size = some cell := by
  obtain ⟨before, after, rfl, place, -⟩ := cut.parts present
  have sized := cut.uniform cell (List.mem_of_getElem? present)
  rw [← place, ← sized]
  exact ByteArea.readAt_between before cell after

/-- A cell is written at its place. -/
theorem write (cut : Cells size cells area) (inside : i < cells.length) {unit : List UInt8}
    (sized : unit.length = size) : ∃ after, ByteArea.write area (i * size) unit = some after ∧
      Cells size (cells.set i unit) after := by
  have present := List.getElem?_eq_getElem inside
  obtain ⟨before, after, rfl, place, other⟩ := cut.parts present
  have same : cells[i].length = unit.length := by
    rw [sized]
    exact cut.uniform _ (List.getElem_mem inside)
  refine ⟨before ++ unit ++ after, ?_, other unit sized⟩
  rw [← place]
  exact ByteArea.write_between before _ unit after same

/-- What is read at the place of a cell is the cell. -/
theorem taken (cut : Cells size cells area) (present : cells[i]? = some cell) :
    (area.drop (i * size)).take size = cell := by
  have read := cut.read present
  rw [ByteArea.readAt] at read
  split at read
  · exact Option.some.inj read
  · cases read

/-- The first cells of an area. -/
def first (size count : Nat) (area : List UInt8) : List (List UInt8) :=
  (List.range count).map fun i => (area.drop (i * size)).take size

/-- There are as many as wanted. -/
theorem first_length (size count : Nat) (area : List UInt8) :
    (first size count area).length = count := by
  rw [first, List.length_map, List.length_range]

/-- The first cells are cells of the area, when it is long enough for them. -/
theorem first_cells {count : Nat} (room : count * size ≤ area.length) :
    Cells size (first size count area) area where
  uniform cell member := by
    obtain ⟨i, inside, rfl⟩ := List.mem_map.mp member
    have later : (i + 1) * size ≤ count * size :=
      Nat.mul_le_mul_right size (List.mem_range.mp inside)
    rw [Nat.succ_mul] at later
    rw [List.length_take, List.length_drop]
    omega
  front := by
    have joined : (first size count area).flatten = area.take (count * size) := by
      clear room
      induction count with
      | zero => rw [Nat.zero_mul, List.take_zero]; rfl
      | succ count inductionHypothesis =>
        rw [first, List.range_succ, List.map_append, List.flatten_append]
        rw [first] at inductionHypothesis
        rw [inductionHypothesis, Nat.succ_mul, List.take_add]
        simp
    rw [joined]
    exact List.take_prefix _ _

end Cells

end Foundation

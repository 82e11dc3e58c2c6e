import Mathlib.Data.Tree.Basic
import Mathlib.Data.List.Basic
import Ezcfg.Foundation.Heap

/-!
# Binary trees in a heap

A node is a cell with links to its two children; `Holds` says that a link leads to a tree of
given cells. A tree is changed at one node or at the end of a chain of right links, and the
cells outside it are never looked at.
-/

namespace Foundation

/-- A node of a tree. -/
structure TreeCell (α : Type) where
  data : α
  up : Option Ptr
  left : Option Ptr
  right : Option Ptr
deriving DecidableEq

namespace TreeCells

variable {α : Type}

/-- A tree of cells and their data. -/
abbrev Shape (α : Type) := BinaryTree (Ptr × α)

/-- The nodes of a tree, each before its children. -/
def nodes : Shape α → List (Ptr × α)
  | .nil => []
  | .node entry left right => entry :: (nodes left ++ nodes right)

/-- The cells of a tree. -/
def cellsOf (tree : Shape α) : List Ptr := (nodes tree).map Prod.fst

/-- A link leads to a tree, whose nodes have no link up. -/
def Holds (cells : Heap (TreeCell α)) : Option Ptr → Shape α → Prop
  | link, .nil => link = none
  | link, .node (p, data) left right => link = some p ∧
      ∃ first second, cells.read p = some ⟨data, none, first, second⟩ ∧
        Holds cells first left ∧ Holds cells second right

/-- A tree put behind the last right link of another. -/
def behindRight (new : Shape α) : Shape α → Shape α
  | .nil => new
  | .node entry left right => .node entry left (behindRight new right)

/-- The cells of a node are its own, then those of its children. -/
theorem cellsOf_node (p : Ptr) (data : α) (left right : Shape α) :
    cellsOf (.node (p, data) left right) = p :: (cellsOf left ++ cellsOf right) := by
  simp [cellsOf, nodes]

/-- A tree depends only on its own cells. -/
theorem Holds.frame {cells after : Heap (TreeCell α)} {link : Option Ptr} {tree : Shape α}
    (holds : Holds cells link tree) (same : ∀ p ∈ cellsOf tree, after.read p = cells.read p) :
    Holds after link tree := by
  induction tree generalizing link with
  | nil => exact holds
  | node entry left right leftHypothesis rightHypothesis =>
    obtain ⟨p, data⟩ := entry
    obtain ⟨here, first, second, cell, below, beside⟩ := holds
    rw [cellsOf_node] at same
    refine ⟨here, first, second, (same p List.mem_cons_self).trans cell, ?_, ?_⟩
    · exact leftHypothesis below fun q member =>
        same q (List.mem_cons_of_mem _ (List.mem_append_left _ member))
    · exact rightHypothesis beside fun q member =>
        same q (List.mem_cons_of_mem _ (List.mem_append_right _ member))

/-- The cells of a tree are live. -/
theorem Holds.live {cells : Heap (TreeCell α)} {link : Option Ptr} {tree : Shape α}
    (holds : Holds cells link tree) {p : Ptr} (member : p ∈ cellsOf tree) :
    ∃ cell, cells.read p = some cell := by
  induction tree generalizing link with
  | nil => cases member
  | node entry left right leftHypothesis rightHypothesis =>
    obtain ⟨q, data⟩ := entry
    obtain ⟨-, first, second, cell, below, beside⟩ := holds
    rw [cellsOf_node] at member
    rcases List.mem_cons.mp member with rfl | deeper
    · exact ⟨_, cell⟩
    · rcases List.mem_append.mp deeper with inLeft | inRight
      · exact leftHypothesis below inLeft
      · exact rightHypothesis beside inRight

/-- The cells of a node with its children are apart. -/
theorem nodup_node {p : Ptr} {data : α} {left right : Shape α}
    (distinct : (cellsOf (.node (p, data) left right)).Nodup) :
    p ∉ cellsOf left ∧ p ∉ cellsOf right ∧ (cellsOf left).Nodup ∧ (cellsOf right).Nodup ∧
      ∀ q ∈ cellsOf left, q ∉ cellsOf right := by
  rw [cellsOf_node] at distinct
  obtain ⟨outside, rest⟩ := List.nodup_cons.mp distinct
  obtain ⟨first, second, apart⟩ := List.nodup_append.mp rest
  exact ⟨fun member => outside (List.mem_append_left _ member),
    fun member => outside (List.mem_append_right _ member), first, second,
    fun q inLeft inRight => apart q inLeft q inRight rfl⟩

/-- The tree behind the last right link adds its cells. -/
theorem cellsOf_behindRight (new tree : Shape α) :
    (cellsOf (behindRight new tree)).Perm (cellsOf new ++ cellsOf tree) := by
  induction tree with
  | nil => simp [behindRight, cellsOf, nodes]
  | node entry left right leftHypothesis rightHypothesis =>
    obtain ⟨p, data⟩ := entry
    rw [behindRight, cellsOf_node, cellsOf_node]
    refine ((rightHypothesis.append_left (cellsOf left)).cons p).trans ?_
    rw [List.perm_iff_count]
    intro q
    simp only [List.count_append, List.count_cons]
    omega

/-- A tree of a link that leads somewhere has a root there. -/
theorem Holds.root {cells : Heap (TreeCell α)} {p : Ptr} {tree : Shape α}
    (holds : Holds cells (some p) tree) : ∃ data left right, tree = .node (p, data) left right := by
  cases tree with
  | nil => cases holds
  | node entry left right =>
    obtain ⟨q, data⟩ := entry
    obtain rfl := Option.some.inj holds.1
    exact ⟨data, left, right, rfl⟩

/-- A link leads to one tree at most. -/
theorem Holds.unique {cells : Heap (TreeCell α)} {link : Option Ptr} {tree other : Shape α}
    (holds : Holds cells link tree) (holds' : Holds cells link other) : tree = other := by
  induction tree generalizing link other with
  | nil =>
    obtain rfl : link = none := holds
    cases other with
    | nil => rfl
    | node => cases holds'.1
  | node entry left right leftHypothesis rightHypothesis =>
    obtain ⟨p, data⟩ := entry
    obtain ⟨rfl, first, second, cell, below, beside⟩ := holds
    obtain ⟨data', left', right', rfl⟩ := holds'.root
    obtain ⟨-, first', second', cell', below', beside'⟩ := holds'
    rw [cell] at cell'
    injection cell' with same
    injection same with sameData _ sameFirst sameSecond
    subst sameData sameFirst sameSecond
    rw [leftHypothesis below below', rightHypothesis beside beside']

/-- The tree at a cell of a tree can be changed in place: what is put there is held with the rest. -/
theorem Holds.replace {cells : Heap (TreeCell α)} {link : Option Ptr} {tree : Shape α}
    (holds : Holds cells link tree) (distinct : (cellsOf tree).Nodup) {p : Ptr}
    (member : p ∈ cellsOf tree) :
    ∃ part, Holds cells (some p) part ∧ (cellsOf part).Nodup ∧ cellsOf part ⊆ cellsOf tree ∧
      ∀ after part' new, Holds after (some p) part' →
        (cellsOf part').Perm (new ++ cellsOf part) →
        (∀ q ∈ cellsOf tree, q ∉ cellsOf part → after.read q = cells.read q) →
        ∃ tree', Holds after link tree' ∧ (cellsOf tree').Perm (new ++ cellsOf tree) := by
  induction tree generalizing link with
  | nil => cases member
  | node entry left right leftHypothesis rightHypothesis =>
    obtain ⟨q, data⟩ := entry
    have whole := holds
    obtain ⟨rfl, first, second, cell, below, beside⟩ := holds
    obtain ⟨outLeft, outRight, leftDistinct, rightDistinct, apart⟩ := nodup_node distinct
    rw [cellsOf_node] at member
    by_cases here : p = q
    · subst here
      exact ⟨_, whole, distinct, fun _ member => member, fun after part' new held cells' _ =>
        ⟨part', held, cells'⟩⟩
    · rcases List.mem_append.mp ((List.mem_cons.mp member).resolve_left here) with inLeft | inRight
      · obtain ⟨part, held, apart', inside, put⟩ := leftHypothesis below leftDistinct inLeft
        refine ⟨part, held, apart', fun r member => ?_, fun after part' new held' more same => ?_⟩
        · rw [cellsOf_node]
          exact List.mem_cons_of_mem _ (List.mem_append_left _ (inside member))
        · rw [cellsOf_node] at same
          obtain ⟨left', leftHeld, leftCells⟩ := put after part' new held' more fun r member =>
            same r (List.mem_cons_of_mem _ (List.mem_append_left _ member))
          refine ⟨.node (q, data) left' right, ⟨rfl, first, second, ?_, leftHeld, ?_⟩, ?_⟩
          · exact (same q List.mem_cons_self fun member => outLeft (inside member)).trans cell
          · exact beside.frame fun r member => same r
              (List.mem_cons_of_mem _ (List.mem_append_right _ member))
              fun other => apart r (inside other) member
          · rw [cellsOf_node, cellsOf_node]
            refine ((leftCells.append_right (cellsOf right)).cons q).trans ?_
            rw [List.append_assoc]
            exact List.perm_middle.symm
      · obtain ⟨part, held, apart', inside, put⟩ := rightHypothesis beside rightDistinct inRight
        refine ⟨part, held, apart', fun r member => ?_, fun after part' new held' more same => ?_⟩
        · rw [cellsOf_node]
          exact List.mem_cons_of_mem _ (List.mem_append_right _ (inside member))
        · rw [cellsOf_node] at same
          obtain ⟨right', rightHeld, rightCells⟩ := put after part' new held' more fun r member =>
            same r (List.mem_cons_of_mem _ (List.mem_append_right _ member))
          refine ⟨.node (q, data) left right', ⟨rfl, first, second, ?_, ?_, rightHeld⟩, ?_⟩
          · exact (same q List.mem_cons_self fun member => outRight (inside member)).trans cell
          · exact below.frame fun r member => same r
              (List.mem_cons_of_mem _ (List.mem_append_left _ member))
              fun other => apart r member (inside other)
          · rw [cellsOf_node, cellsOf_node, List.perm_iff_count]
            intro r
            have counted := List.perm_iff_count.mp rightCells r
            simp only [List.count_append, List.count_cons] at counted ⊢
            omega

/-- No more cells in a tree than in the heap. -/
theorem Holds.length_le {cells : Heap (TreeCell α)} {link : Option Ptr} {tree : Shape α}
    (holds : Holds cells link tree) (distinct : (cellsOf tree).Nodup) :
    (cellsOf tree).length ≤ cells.length := by
  have bounded : cellsOf tree ⊆ List.range cells.length := by
    intro p member
    obtain ⟨cell, live⟩ := holds.live member
    exact List.mem_range.mpr (Heap.live_bound live)
  have shorter := List.Nodup.length_le_of_subset distinct bounded
  rwa [List.length_range] at shorter

/-- Links out of a tree lead back into it. -/
theorem Holds.closed {cells : Heap (TreeCell α)} {link : Option Ptr} {tree : Shape α}
    (holds : Holds cells link tree) {p child : Ptr} {cell : TreeCell α} (member : p ∈ cellsOf tree)
    (live : cells.read p = some cell) (leads : cell.left = some child ∨ cell.right = some child) :
    child ∈ cellsOf tree := by
  induction tree generalizing link with
  | nil => cases member
  | node entry left right leftHypothesis rightHypothesis =>
    obtain ⟨q, data⟩ := entry
    obtain ⟨rfl, first, second, here, below, beside⟩ := holds
    rw [cellsOf_node] at member ⊢
    rcases List.mem_cons.mp member with rfl | deeper
    · obtain rfl := Option.some.inj (here.symm.trans live)
      rcases leads with rfl | rfl
      · obtain ⟨data', left', right', rfl⟩ := below.root
        rw [cellsOf_node]
        simp
      · obtain ⟨data', left', right', rfl⟩ := beside.root
        rw [cellsOf_node child]
        simp
    · rcases List.mem_append.mp deeper with inLeft | inRight
      · exact List.mem_cons_of_mem _ (List.mem_append_left _ (leftHypothesis below inLeft))
      · exact List.mem_cons_of_mem _ (List.mem_append_right _ (rightHypothesis beside inRight))

end TreeCells

end Foundation

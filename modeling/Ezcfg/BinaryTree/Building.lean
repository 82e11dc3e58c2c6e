import Ezcfg.Values
import Ezcfg.Foundation.TreeCells

/-!
# Building a binary tree

`binary_tree` as the JSON parser uses it: a root is set, and every other node is new when it
is appended to a node of the tree. The link up is cleared when a node is made and is never
set. Data are handles; the delete handler is set, and what it was called on is kept in
`deleted`, latest first.
-/

namespace Ezcfg.BinaryTree

open Foundation Foundation.TreeCells

/-- `struct binary_tree` with its nodes and the data deleted so far. -/
structure BinTree (Data : Type) where
  nodes : Heap (TreeCell Data)
  root : Option Ptr
  deleted : List Data
deriving DecidableEq

section Source

variable {Data : Type}

/-- `binary_tree_new` -/
def treeNew : BinTree Data := ⟨[], none, []⟩

/-- `binary_tree_node_new` -/
def nodeNew (tree : BinTree Data) (data : Data) : Ptr × BinTree Data :=
  let (np, nodes) := tree.nodes.alloc ⟨data, none, none, none⟩
  (np, { tree with nodes })

/-- `binary_tree_set_root` -/
def setRoot (tree : BinTree Data) (np : Ptr) : BinTree Data := { tree with root := some np }

/-- `while (tmp_np->right != NULL) tmp_np = tmp_np->right` -/
def lastRight (nodes : Heap (TreeCell Data)) : Nat → Ptr → Option Ptr
  | 0, _ => none
  | turns + 1, np => do
    let cell ← nodes.read np
    match cell.right with
    | none => return np
    | some next => lastRight nodes turns next

/-- `binary_tree_node_append_right` -/
def appendRight (tree : BinTree Data) (np child : Ptr) : Option (BinTree Data) := do
  let last ← lastRight tree.nodes tree.nodes.length np
  let cell ← tree.nodes.read last
  let nodes ← tree.nodes.write last { cell with right := some child }
  return { tree with nodes }

/-- `binary_tree_node_append_left` -/
def appendLeft (tree : BinTree Data) (np child : Ptr) : Option (BinTree Data) := do
  let cell ← tree.nodes.read np
  match cell.left with
  | none =>
    let nodes ← tree.nodes.write np { cell with left := some child }
    return { tree with nodes }
  | some first => appendRight tree first child

/-- The nodes that links lead to from the root. -/
inductive InTree (tree : BinTree Data) : Ptr → Prop
  | root {np : Ptr} (is : tree.root = some np) : InTree tree np
  | left {np child : Ptr} {cell : TreeCell Data} (parent : InTree tree np)
      (live : tree.nodes.read np = some cell) (link : cell.left = some child) : InTree tree child
  | right {np child : Ptr} {cell : TreeCell Data} (parent : InTree tree np)
      (live : tree.nodes.read np = some cell) (link : cell.right = some child) : InTree tree child

/-- Trees that are built with new nodes. -/
inductive Built : BinTree Data → Prop
  | new : Built treeNew
  | setRoot {tree : BinTree Data} (built : Built tree) (data : Data) :
      Built (setRoot (nodeNew tree data).2 (nodeNew tree data).1)
  | appendLeft {tree after : BinTree Data} (built : Built tree) (data : Data) {np : Ptr}
      (inside : InTree tree np)
      (done : appendLeft (nodeNew tree data).2 np (nodeNew tree data).1 = some after) : Built after
  | appendRight {tree after : BinTree Data} (built : Built tree) (data : Data) {np : Ptr}
      (inside : InTree tree np)
      (done : appendRight (nodeNew tree data).2 np (nodeNew tree data).1 = some after) : Built after

/-! ## Built trees -/

/-- A node without children. -/
def leaf (p : Ptr) (data : Data) : Shape Data := .node (p, data) .nil .nil

/-- It has one cell. -/
@[simp] theorem cellsOf_leaf (p : Ptr) (data : Data) : cellsOf (leaf p data) = [p] := rfl

/-- The chain of right links of a tree ends at one of its nodes, behind which another tree can
be put. -/
theorem lastRight_end {nodes : Heap (TreeCell Data)} {np : Ptr} {part : Shape Data}
    (holds : Holds nodes (some np) part) (distinct : (cellsOf part).Nodup) {turns : Nat}
    (enough : (cellsOf part).length ≤ turns) :
    ∃ last data first, lastRight nodes turns np = some last ∧ last ∈ cellsOf part ∧
      nodes.read last = some ⟨data, none, first, none⟩ ∧
      ∀ after child new, after.read last = some ⟨data, none, first, some child⟩ →
        (∀ q ∈ cellsOf part, q ≠ last → after.read q = nodes.read q) →
        Holds after (some child) new → Holds after (some np) (behindRight new part) := by
  induction part generalizing np turns with
  | nil => cases holds
  | node entry left right _ rightHypothesis =>
    obtain ⟨p, data⟩ := entry
    obtain ⟨here, first, second, cell, below, beside⟩ := holds
    obtain rfl := Option.some.inj here
    obtain ⟨outLeft, outRight, -, rightDistinct, apart⟩ := nodup_node distinct
    rw [cellsOf_node] at enough ⊢
    obtain ⟨turns, rfl⟩ := Nat.exists_eq_add_one_of_ne_zero (n := turns) (by
      rw [List.length_cons] at enough
      omega)
    cases link : second with
    | none =>
      subst link
      obtain rfl : right = .nil := by
        cases right with
        | nil => rfl
        | node => cases beside.1
      refine ⟨np, data, first, by simp [lastRight, cell], List.mem_cons_self, cell, ?_⟩
      intro after child new written same held
      refine ⟨rfl, first, some child, written, below.frame fun q member => ?_, held⟩
      exact same q (List.mem_cons_of_mem _ (List.mem_append_left _ member))
        fun equal => outLeft (equal ▸ member)
    | some next =>
      subst link
      have room : (cellsOf right).length ≤ turns := by
        rw [List.length_cons, List.length_append] at enough
        omega
      obtain ⟨last, data', first', found, inside, live, put⟩ :=
        rightHypothesis beside rightDistinct room
      refine ⟨last, data', first', by simpa [lastRight, cell] using found,
        List.mem_cons_of_mem _ (List.mem_append_right _ inside), live, ?_⟩
      intro after child new written same held
      refine ⟨rfl, first, some next, ?_, below.frame fun q member => ?_, put after child new written
        (fun q member => same q (List.mem_cons_of_mem _ (List.mem_append_right _ member))) held⟩
      · exact (same np List.mem_cons_self fun equal => outRight (equal ▸ inside)).trans cell
      · exact same q (List.mem_cons_of_mem _ (List.mem_append_left _ member))
          fun equal => apart q member (equal ▸ inside)

section Append

variable {tree : BinTree Data} {np child : Ptr} {part : Shape Data} {data : Data}

/-- A new node is put behind the last right link. -/
theorem appendRight_holds (holds : Holds tree.nodes (some np) part)
    (distinct : (cellsOf part).Nodup) (new : Holds tree.nodes (some child) (leaf child data))
    (outside : child ∉ cellsOf part) :
    ∃ after, appendRight tree np child = some after ∧ after.root = tree.root ∧
      after.deleted = tree.deleted ∧
      Holds after.nodes (some np) (behindRight (leaf child data) part) ∧
      ∀ q, q ∉ cellsOf part → after.nodes.read q = tree.nodes.read q := by
  obtain ⟨last, old, first, found, inside, live, put⟩ :=
    lastRight_end holds distinct (holds.length_le distinct)
  obtain ⟨nodes, done, -, written, others⟩ :=
    Heap.write_live live (⟨old, none, first, some child⟩ : TreeCell Data)
  have kept : ∀ q, q ∉ cellsOf part → nodes.read q = tree.nodes.read q := fun q member =>
    others q fun same => member (same ▸ inside)
  refine ⟨{ tree with nodes }, by simp [appendRight, found, live, done], rfl, rfl, ?_, kept⟩
  refine put nodes child _ written (fun q _ different => others q different) (new.frame ?_)
  intro q member
  obtain rfl : q = child := by simpa using member
  exact kept q outside

/-- A new node is put under a node, behind the children it has. -/
theorem appendLeft_holds (holds : Holds tree.nodes (some np) part)
    (distinct : (cellsOf part).Nodup) (new : Holds tree.nodes (some child) (leaf child data))
    (outside : child ∉ cellsOf part) :
    ∃ after old left right, appendLeft tree np child = some after ∧ after.root = tree.root ∧
      after.deleted = tree.deleted ∧ part = .node (np, old) left right ∧
      Holds after.nodes (some np) (.node (np, old) (behindRight (leaf child data) left) right) ∧
      ∀ q, q ∉ cellsOf part → after.nodes.read q = tree.nodes.read q := by
  obtain ⟨old, left, right, rfl⟩ := holds.root
  obtain ⟨-, first, second, cell, below, beside⟩ := holds
  obtain ⟨outLeft, outRight, leftDistinct, -, apart⟩ := nodup_node distinct
  rw [cellsOf_node] at outside ⊢
  cases link : first with
  | none =>
    subst link
    obtain rfl : left = .nil := by
      cases left with
      | nil => rfl
      | node => cases below.1
    obtain ⟨nodes, done, -, written, others⟩ :=
      Heap.write_live cell (⟨old, none, some child, second⟩ : TreeCell Data)
    refine ⟨{ tree with nodes }, old, .nil, right, by simp [appendLeft, cell, done], rfl, rfl, rfl,
      ⟨rfl, some child, second, written, new.frame fun q member => ?_, beside.frame fun q member => ?_⟩,
      fun q member => others q fun same => member (by simp [same])⟩
    · obtain rfl : q = child := by simpa using member
      exact others q fun same => outside (by simp [same])
    · exact others q fun same => outRight (same ▸ member)
  | some next =>
    subst link
    obtain ⟨after, done, root, deleted, held, kept⟩ := appendRight_holds below leftDistinct new
      fun member => outside (List.mem_cons_of_mem _ (List.mem_append_left _ member))
    refine ⟨after, old, left, right, by simp [appendLeft, cell, done], root, deleted, rfl,
      ⟨rfl, some next, second, (kept np outLeft).trans cell, held, beside.frame fun q member => ?_⟩,
      fun q member => kept q fun inside =>
        member (List.mem_cons_of_mem _ (List.mem_append_left _ inside))⟩
    exact kept q fun inside => apart q inside member

end Append

/-- Nodes that links lead to are in the tree. -/
theorem InTree.member {tree : BinTree Data} {shape : Shape Data}
    (holds : Holds tree.nodes tree.root shape) {np : Ptr} (inside : InTree tree np) :
    np ∈ cellsOf shape := by
  induction inside with
  | root is =>
    rw [is] at holds
    obtain ⟨data, left, right, rfl⟩ := holds.root
    rw [cellsOf_node]
    exact List.mem_cons_self
  | left _ live link inductionHypothesis => exact holds.closed inductionHypothesis live (.inl link)
  | right _ live link inductionHypothesis => exact holds.closed inductionHypothesis live (.inr link)

/-- A new node is held apart from every tree there is. -/
theorem nodeNew_holds (tree : BinTree Data) (data : Data) {link : Option Ptr} {shape : Shape Data}
    (holds : Holds tree.nodes link shape) :
    Holds (nodeNew tree data).2.nodes (some (nodeNew tree data).1)
        (leaf (nodeNew tree data).1 data) ∧
      (nodeNew tree data).1 ∉ cellsOf shape ∧ Holds (nodeNew tree data).2.nodes link shape := by
  refine ⟨⟨rfl, none, none, Heap.read_alloc _ _, rfl, rfl⟩, fun member => ?_,
    holds.frame fun q member => ?_⟩
  · obtain ⟨cell, live⟩ := holds.live member
    have fresh := Heap.alloc_fresh tree.nodes (⟨data, none, none, none⟩ : TreeCell Data)
    exact absurd (fresh.symm.trans live) nofun
  · obtain ⟨cell, live⟩ := holds.live member
    exact (Heap.alloc_extends _ _ q cell live).trans live.symm

/-- Appending keeps the tree a tree. -/
theorem append_shape {tree after : BinTree Data} {shape part part' : Shape Data} {np child : Ptr}
    (distinct : (cellsOf shape).Nodup)
    (outside : child ∉ cellsOf shape) (root : after.root = tree.root)
    (put : ∀ part' new, Holds after.nodes (some np) part' →
      (cellsOf part').Perm (new ++ cellsOf part) →
      (∀ q ∈ cellsOf shape, q ∉ cellsOf part → after.nodes.read q = tree.nodes.read q) →
      ∃ tree', Holds after.nodes tree.root tree' ∧ (cellsOf tree').Perm (new ++ cellsOf shape))
    (held : Holds after.nodes (some np) part')
    (more : (cellsOf part').Perm (child :: cellsOf part))
    (kept : ∀ q, q ∉ cellsOf part → after.nodes.read q = tree.nodes.read q) :
    ∃ shape', Holds after.nodes after.root shape' ∧ (cellsOf shape').Nodup := by
  obtain ⟨tree', held', cells⟩ := put part' [child] held more fun q _ member => kept q member
  refine ⟨tree', root ▸ held', cells.nodup_iff.mpr ?_⟩
  exact List.nodup_cons.mpr ⟨outside, distinct⟩

/-- What is built is a tree. -/
theorem Built.holds {tree : BinTree Data} (built : Built tree) :
    ∃ shape, Holds tree.nodes tree.root shape ∧ (cellsOf shape).Nodup := by
  induction built with
  | new => exact ⟨.nil, rfl, List.nodup_nil⟩
  | setRoot _ data inductionHypothesis =>
    obtain ⟨shape, holds, -⟩ := inductionHypothesis
    exact ⟨_, (nodeNew_holds _ data holds).1, by simp⟩
  | appendLeft _ data inside done inductionHypothesis =>
    obtain ⟨shape, holds, distinct⟩ := inductionHypothesis
    obtain ⟨new, outside, holds'⟩ := nodeNew_holds _ data holds
    obtain ⟨part, held, partDistinct, partInside, put⟩ :=
      holds'.replace distinct (inside.member holds)
    obtain ⟨after, old, left, right, done', root, -, rfl, held', kept⟩ :=
      appendLeft_holds held partDistinct new fun member => outside (partInside member)
    obtain rfl := Option.some.inj (done'.symm.trans done)
    refine append_shape distinct outside root (put _) held' ?_ kept
    rw [cellsOf_node, cellsOf_node]
    refine (((cellsOf_behindRight _ left).append_right (cellsOf right)).cons _).trans ?_
    rw [List.append_assoc]
    exact List.perm_middle.symm
  | appendRight _ data inside done inductionHypothesis =>
    obtain ⟨shape, holds, distinct⟩ := inductionHypothesis
    obtain ⟨new, outside, holds'⟩ := nodeNew_holds _ data holds
    obtain ⟨part, held, partDistinct, partInside, put⟩ :=
      holds'.replace distinct (inside.member holds)
    obtain ⟨after, done', root, -, held', kept⟩ :=
      appendRight_holds held partDistinct new fun member => outside (partInside member)
    obtain rfl := Option.some.inj (done'.symm.trans done)
    exact append_shape distinct outside root (put _) held' (cellsOf_behindRight _ part) kept

end Source

end Ezcfg.BinaryTree

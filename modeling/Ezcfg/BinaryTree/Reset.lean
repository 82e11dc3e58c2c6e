import Ezcfg.BinaryTree.Building

/-!
# Resetting a binary tree

`binary_tree_reset` takes nodes off below a left link for as long as there is one, then follows
the link to the right. On its way down the left links it forgets where it came from: the link up
that would lead back is never set. What a turn does is said first of trees, then of the cells.
-/

namespace Ezcfg.BinaryTree

open Foundation Foundation.TreeCells

section Source

variable {Data : Type}

/-- `binary_tree_node_del`, with a delete handler -/
def nodeDel (tree : BinTree Data) (np : Ptr) : Option (BinTree Data) := do
  let cell ← tree.nodes.read np
  let nodes ← tree.nodes.free np
  return { tree with nodes, deleted := cell.data :: tree.deleted }

/-- `while (np->left != NULL) { prev_np = np; np = np->left; }` -/
def lastLeft (nodes : Heap (TreeCell Data)) : Nat → Ptr → Ptr → Option (Ptr × Ptr)
  | 0, _, _ => none
  | turns + 1, prev, np => do
    let cell ← nodes.read np
    match cell.left with
    | none => return (prev, np)
    | some next => lastLeft nodes turns np next

/-- One turn of `while (prev_np != NULL)`, with the next `prev_np`. -/
def resetTurn (tree : BinTree Data) (prev : Ptr) : Option (BinTree Data × Option Ptr) := do
  let cell ← tree.nodes.read prev
  match cell.left, cell.right with
  | some child, _ =>
    let (prev, np) ← lastLeft tree.nodes tree.nodes.length prev child
    let above ← tree.nodes.read prev
    let last ← tree.nodes.read np
    let nodes ← tree.nodes.write prev { above with left := last.right }
    let tree ← nodeDel { tree with nodes } np
    return (tree, some prev)
  | none, some next =>
    let tree ← nodeDel tree prev
    return (tree, some next)
  | none, none =>
    let tree ← nodeDel tree prev
    return (tree, cell.up)

/-- `while (prev_np != NULL)` -/
def resetLoop : Nat → BinTree Data → Option Ptr → Option (BinTree Data)
  | _, tree, none => some tree
  | 0, _, some _ => none
  | turns + 1, tree, some prev => do
    let (tree, next) ← resetTurn tree prev
    resetLoop turns tree next

/-- `binary_tree_reset` -/
def reset (tree : BinTree Data) : Option (BinTree Data) :=
  match tree.root with
  | none => some tree
  | some np => do
    let tree := { tree with root := none }
    let cell ← tree.nodes.read np
    if cell.left = none ∧ cell.right = none then
      nodeDel tree np
    else
      resetLoop tree.nodes.length tree (some np)

/-! ## Turns on trees -/

/-- No left link in a tree. -/
def NoLeft : Shape Data → Prop
  | .nil => True
  | .node _ left right => left = .nil ∧ NoLeft right

/-- No left link below a left link. -/
def Shallow : Shape Data → Prop
  | .nil => True
  | .node _ left right => NoLeft left ∧ Shallow right

/-- The node that a turn takes off, and the tree that is left to go on with. -/
def takeOff : Shape Data → Option ((Ptr × Data) × Shape Data)
  | .nil => none
  | .node entry .nil right => some (entry, right)
  | .node entry (.node child .nil beside) right => some (child, .node entry beside right)
  | .node _ (.node child (.node next left beside) others) _ =>
    takeOff (.node child (.node next left beside) others)

/-- There is a node to take off every tree but the empty one. -/
theorem takeOff_node (entry : Ptr × Data) (left right : Shape Data) :
    ∃ taken rest, takeOff (.node entry left right) = some (taken, rest) := by
  induction left generalizing entry right with
  | nil => exact ⟨_, _, rfl⟩
  | node child below beside inductionHypothesis _ =>
    cases below with
    | nil => exact ⟨_, _, rfl⟩
    | node next left' right' => exact inductionHypothesis child beside

/-- A turn takes one node off and loses others, none if it goes down one left link only. -/
theorem takeOff_nodes {shape rest : Shape Data} {taken : Ptr × Data}
    (takes : takeOff shape = some (taken, rest)) :
    ∃ lost, (nodes shape).Perm (taken :: (nodes rest ++ lost)) ∧
      (Shallow shape ↔ lost = [] ∧ Shallow rest) := by
  cases shape with
  | nil => cases takes
  | node entry left right =>
    induction left generalizing entry right with
    | nil =>
      cases takes
      refine ⟨[], ?_, by simp [Shallow, NoLeft]⟩
      rw [List.append_nil]
      exact List.Perm.refl _
    | node child below beside inductionHypothesis _ =>
      cases below with
      | nil =>
        cases takes
        refine ⟨[], ?_, by simp [Shallow, NoLeft]⟩
        rw [List.append_nil]
        exact List.Perm.swap taken entry _
      | node next left' right' =>
        obtain ⟨lost, together, -⟩ := inductionHypothesis child beside takes
        refine ⟨lost ++ nodes right ++ [entry], ?_, by simp [Shallow, NoLeft]⟩
        have rest' := (together.append_right (nodes right)).cons entry
        refine rest'.trans ((List.perm_append_singleton entry _).symm.trans ?_)
        simp only [List.cons_append, List.append_assoc, List.Perm.refl]

/-- What is left after a turn is apart from the node taken off, with no more cells. -/
theorem takeOff_cells {shape rest : Shape Data} {taken : Ptr × Data}
    (takes : takeOff shape = some (taken, rest)) (distinct : (cellsOf shape).Nodup) :
    taken.1 ∈ cellsOf shape ∧ taken.1 ∉ cellsOf rest ∧ (cellsOf rest).Nodup ∧
      cellsOf rest ⊆ cellsOf shape ∧ (cellsOf rest).length < (cellsOf shape).length := by
  obtain ⟨lost, together, -⟩ := takeOff_nodes takes
  have cells : (cellsOf shape).Perm (taken.1 :: (cellsOf rest ++ lost.map Prod.fst)) := by
    simpa [cellsOf] using together.map Prod.fst
  obtain ⟨apart, others⟩ := List.nodup_cons.mp (cells.nodup_iff.mp distinct)
  refine ⟨cells.mem_iff.mpr List.mem_cons_self,
    fun member => apart (List.mem_append_left _ member), (List.nodup_append.mp others).1,
    fun q member => cells.mem_iff.mpr (List.mem_cons_of_mem _ (List.mem_append_left _ member)), ?_⟩
  rw [cells.length_eq, List.length_cons, List.length_append]
  omega

/-! ## Turns on cells -/

/-- The descent ends at the node that is taken off and the node above it. -/
theorem lastLeft_finds {cells : Heap (TreeCell Data)} {prev child : Ptr} {data data' : Data}
    {below beside right rest : Shape Data} {taken : Ptr × Data}
    (holds : Holds cells (some prev) (.node (prev, data) (.node (child, data') below beside) right))
    (distinct : (cellsOf (.node (prev, data) (.node (child, data') below beside) right)).Nodup)
    (takes : takeOff (.node (prev, data) (.node (child, data') below beside) right) =
      some (taken, rest))
    {turns : Nat} (enough : (cellsOf (.node (child, data') below beside)).length ≤ turns) :
    ∃ prev' above last, lastLeft cells turns prev child = some (prev', taken.1) ∧
      cells.read prev' = some above ∧ cells.read taken.1 = some last ∧ last.data = taken.2 ∧
      prev' ∈ cellsOf rest ∧
      ∀ after, after.read prev' = some { above with left := last.right } →
        (∀ q ∈ cellsOf rest, q ≠ prev' → after.read q = cells.read q) →
        Holds after (some prev') rest := by
  induction below generalizing prev child data data' beside right turns with
  | nil =>
    obtain ⟨-, first, second, cell, ⟨rfl, first', behind, cell', rfl, aside⟩, outer⟩ := holds
    obtain ⟨outLeft, outRight, -⟩ := nodup_node distinct
    obtain ⟨turns, rfl⟩ := Nat.exists_eq_add_one_of_ne_zero (n := turns) (by
      rw [cellsOf_node, List.length_cons] at enough
      omega)
    cases takes
    refine ⟨prev, _, _, by simp [lastLeft, cell'], cell, cell', rfl, ?_, ?_⟩
    · rw [cellsOf_node]
      exact List.mem_cons_self
    · intro after written same
      rw [cellsOf_node] at same outLeft
      refine ⟨rfl, behind, second, written, aside.frame fun q member => ?_,
        outer.frame fun q member => ?_⟩
      · exact same q (List.mem_cons_of_mem _ (List.mem_append_left _ member))
          fun equal => outLeft (List.mem_cons_of_mem _ (List.mem_append_right _ (equal ▸ member)))
      · exact same q (List.mem_cons_of_mem _ (List.mem_append_right _ member))
          fun equal => outRight (equal ▸ member)
  | node next left' right' inductionHypothesis _ =>
    obtain ⟨p, data''⟩ := next
    obtain ⟨-, first, second, -, inner, -⟩ := holds
    obtain rfl := inner.1
    obtain ⟨-, -, innerDistinct, -⟩ := nodup_node distinct
    obtain ⟨-, first', second', cell', ⟨rfl, -⟩, -⟩ := id inner
    obtain ⟨turns, rfl⟩ := Nat.exists_eq_add_one_of_ne_zero (n := turns) (by
      rw [cellsOf_node, List.length_cons] at enough
      omega)
    have room : (cellsOf (.node (p, data'') left' right')).length ≤ turns := by
      rw [cellsOf_node child, List.length_cons, List.length_append] at enough
      omega
    obtain ⟨prev', above, last, found, others⟩ := inductionHypothesis inner innerDistinct takes room
    exact ⟨prev', above, last, by simpa [lastLeft, cell'] using found, others⟩

/-- A live node is deleted: its data goes to the handler and no other cell is touched. -/
theorem nodeDel_live {tree : BinTree Data} {np : Ptr} {cell : TreeCell Data}
    (live : tree.nodes.read np = some cell) :
    ∃ after, nodeDel tree np = some after ∧ after.root = tree.root ∧
      after.deleted = cell.data :: tree.deleted ∧
      after.nodes.read np = none ∧ ∀ q, q ≠ np → after.nodes.read q = tree.nodes.read q := by
  obtain ⟨nodes, freed, -, gone, others⟩ := Heap.free_live live
  refine ⟨{ tree with nodes, deleted := cell.data :: tree.deleted }, ?_, rfl, rfl, gone, others⟩
  simp [nodeDel, live, freed]

/-- A turn of the loop takes one node off the cells. -/
theorem resetTurn_takes {tree : BinTree Data} {prev : Ptr} {shape rest : Shape Data}
    {taken : Ptr × Data} (holds : Holds tree.nodes (some prev) shape)
    (distinct : (cellsOf shape).Nodup) (takes : takeOff shape = some (taken, rest)) :
    ∃ after next, resetTurn tree prev = some (after, next) ∧ Holds after.nodes next rest ∧
      after.root = tree.root ∧ after.deleted = taken.2 :: tree.deleted ∧
      after.nodes.read taken.1 = none ∧
      ∀ q, q ∉ cellsOf rest → q ≠ taken.1 → after.nodes.read q = tree.nodes.read q := by
  obtain ⟨data, left, right, rfl⟩ := holds.root
  obtain ⟨-, apart, -⟩ := takeOff_cells takes distinct
  obtain ⟨-, first, second, cell, below, beside⟩ := id holds
  cases left with
  | nil =>
    obtain rfl : first = none := below
    cases takes
    obtain ⟨after, done, root, deleted, gone, others⟩ := nodeDel_live cell
    have held : Holds after.nodes second rest := beside.frame fun q member =>
      others q fun equal => apart (equal ▸ member)
    refine ⟨after, second, ?_, held, root, deleted, gone, fun q _ different => others q different⟩
    cases second with
    | none => simp [resetTurn, cell, done]
    | some next => simp [resetTurn, cell, done]
  | node entry below' beside' =>
    obtain ⟨child, data'⟩ := entry
    obtain rfl := below.1
    obtain ⟨-, -, leftDistinct, -⟩ := nodup_node distinct
    obtain ⟨prev', above, last, found, liveAbove, liveLast, same, inside, held⟩ :=
      lastLeft_finds holds distinct takes (below.length_le leftDistinct)
    have different : prev' ≠ taken.1 := fun equal => apart (equal ▸ inside)
    obtain ⟨nodes, done, -, written, others⟩ :=
      Heap.write_live liveAbove ({ above with left := last.right } : TreeCell Data)
    have liveLast' : ({ tree with nodes } : BinTree Data).nodes.read taken.1 = some last :=
      (others taken.1 different.symm).trans liveLast
    obtain ⟨after, deletes, root, deleted, gone, others'⟩ := nodeDel_live liveLast'
    refine ⟨after, some prev', ?_, held after.nodes ((others' prev' different).trans written) ?_,
      root, same ▸ deleted, gone, ?_⟩
    · simp [resetTurn, cell, found, liveAbove, liveLast, done, deletes]
    · intro q member other
      exact (others' q fun equal => apart (equal ▸ member)).trans (others q other)
    · intro q outside other
      exact (others' q other).trans (others q fun equal => outside (equal ▸ inside))

/-! ## The whole reset -/

/-- How the nodes of a tree are left: all freed when it is shallow, some behind when not. -/
structure LeftBy (tree after : BinTree Data) (shape : Shape Data) : Prop where
  outside : ∀ q, q ∉ cellsOf shape → after.nodes.read q = tree.nodes.read q
  freed : Shallow shape → ∀ q ∈ cellsOf shape, after.nodes.read q = none
  deleted : Shallow shape → after.deleted.Perm ((nodes shape).map Prod.snd ++ tree.deleted)
  kept : ¬ Shallow shape → ∃ q ∈ cellsOf shape, ∃ cell, after.nodes.read q = some cell

/-- Nothing is to be done for an empty tree. -/
theorem LeftBy.nil (tree : BinTree Data) : LeftBy tree tree .nil where
  outside _ _ := rfl
  freed _ _ member := nomatch member
  deleted _ := List.Perm.refl _
  kept deep := absurd trivial deep

/-- A turn comes before what is done to the tree that it leaves. -/
theorem LeftBy.turn {tree next after : BinTree Data} {shape rest : Shape Data}
    {taken : Ptr × Data} {link : Option Ptr} (holds : Holds tree.nodes link shape)
    (distinct : (cellsOf shape).Nodup) (takes : takeOff shape = some (taken, rest))
    (deleted : next.deleted = taken.2 :: tree.deleted) (gone : next.nodes.read taken.1 = none)
    (others : ∀ q, q ∉ cellsOf rest → q ≠ taken.1 → next.nodes.read q = tree.nodes.read q)
    (later : LeftBy next after rest) : LeftBy tree after shape := by
  obtain ⟨inside, apart, restDistinct, within, -⟩ := takeOff_cells takes distinct
  obtain ⟨lost, together, narrow⟩ := takeOff_nodes takes
  have cells : (cellsOf shape).Perm (taken.1 :: (cellsOf rest ++ lost.map Prod.fst)) := by
    simpa [cellsOf] using together.map Prod.fst
  constructor
  case outside =>
    intro q outside
    refine (later.outside q fun member => outside (within member)).trans (others q ?_ ?_)
    · exact fun member => outside (within member)
    · exact fun equal => outside (equal ▸ inside)
  case freed =>
    intro shallow q member
    obtain ⟨rfl, shallowRest⟩ := narrow.mp shallow
    rcases List.mem_cons.mp (cells.mem_iff.mp member) with rfl | behind
    · exact (later.outside _ apart).trans gone
    · exact later.freed shallowRest q (by simpa using behind)
  case deleted =>
    intro shallow
    obtain ⟨rfl, shallowRest⟩ := narrow.mp shallow
    have named := (together.map Prod.snd).append_right tree.deleted
    refine (later.deleted shallowRest).trans ?_
    rw [deleted]
    exact List.perm_middle.trans (by simpa using named.symm)
  case kept =>
    intro deep
    cases lost with
    | nil =>
      obtain ⟨q, member, live⟩ :=
        later.kept fun shallowRest => deep (narrow.mpr ⟨rfl, shallowRest⟩)
      exact ⟨q, within member, live⟩
    | cons one behind =>
      -- A node that the descent went past is in neither part, so no later turn finds it.
      have member : one.1 ∈ cellsOf shape := cells.mem_iff.mpr (by simp)
      obtain ⟨first, rest'⟩ := List.nodup_cons.mp (cells.nodup_iff.mp distinct)
      have outside : one.1 ∉ cellsOf rest := fun twice =>
        (List.nodup_append.mp rest').2.2 _ twice _ (by simp) rfl
      have different : one.1 ≠ taken.1 := fun equal => first (by simp [← equal])
      obtain ⟨cell, live⟩ := holds.live member
      exact ⟨one.1, member, cell,
        (later.outside _ outside).trans ((others _ outside different).trans live)⟩

/-- The loop returns. -/
theorem resetLoop_returns {tree : BinTree Data} {link : Option Ptr} {shape : Shape Data}
    (holds : Holds tree.nodes link shape) (distinct : (cellsOf shape).Nodup) {turns : Nat}
    (enough : (cellsOf shape).length ≤ turns) :
    ∃ after, resetLoop turns tree link = some after ∧ after.root = tree.root ∧
      LeftBy tree after shape := by
  induction turns generalizing tree link shape with
  | zero =>
    cases shape with
    | nil =>
      obtain rfl : link = none := holds
      exact ⟨tree, rfl, rfl, LeftBy.nil tree⟩
    | node entry =>
      rw [cellsOf_node, List.length_cons] at enough
      cases enough
  | succ turns inductionHypothesis =>
    cases shape with
    | nil =>
      obtain rfl : link = none := holds
      exact ⟨tree, rfl, rfl, LeftBy.nil tree⟩
    | node entry left right =>
      obtain ⟨taken, rest, takes⟩ := takeOff_node entry left right
      obtain rfl := holds.1
      obtain ⟨-, -, restDistinct, -, fewer⟩ := takeOff_cells takes distinct
      obtain ⟨next, link, done, held, root, deleted, gone, others⟩ :=
        resetTurn_takes holds distinct takes
      obtain ⟨after, returns, root', later⟩ := inductionHypothesis held restDistinct (by omega)
      refine ⟨after, ?_, root'.trans root, ?_⟩
      · simp [resetLoop, done, returns]
      · exact later.turn holds distinct takes deleted gone others

/-- Reset is the loop from the root: a root alone would be deleted by one turn. -/
theorem reset_eq_loop {tree : BinTree Data} {shape : Shape Data}
    (holds : Holds tree.nodes tree.root shape) :
    reset tree = resetLoop tree.nodes.length { tree with root := none } tree.root := by
  obtain ⟨cells, root, deleted⟩ := tree
  cases root with
  | none => simp [reset, resetLoop]
  | some np =>
    obtain ⟨data, left, right, rfl⟩ := holds.root
    obtain ⟨-, first, second, cell, -, -⟩ := holds
    obtain ⟨size, positive⟩ := Nat.exists_eq_add_one_of_ne_zero
      (Nat.ne_zero_of_lt (Heap.live_bound cell))
    by_cases alone : first = none ∧ second = none
    · obtain ⟨rfl, rfl⟩ := alone
      have live : (⟨cells, none, deleted⟩ : BinTree Data).nodes.read np =
          some ⟨data, none, none, none⟩ := cell
      obtain ⟨after, done, -⟩ := nodeDel_live live
      simp [reset, resetLoop, resetTurn, cell, positive, done]
    · simp [reset, cell, alone]

/-- Reset returns without a root. -/
theorem reset_returns {tree : BinTree Data} {shape : Shape Data}
    (holds : Holds tree.nodes tree.root shape) (distinct : (cellsOf shape).Nodup) :
    ∃ after, reset tree = some after ∧ after.root = none ∧ LeftBy tree after shape := by
  have emptied : Holds ({ tree with root := none } : BinTree Data).nodes tree.root shape := holds
  obtain ⟨after, returns, root, ends⟩ :=
    resetLoop_returns emptied distinct (holds.length_le distinct)
  refine ⟨after, (reset_eq_loop holds).trans returns, root, ?_⟩
  exact ⟨ends.outside, ends.freed, ends.deleted, ends.kept⟩

/-- The tree is given back: reset returns without a root, each node is freed and its data deleted
once, and other cells are left as they were. -/
def Releases (tree : BinTree Data) (shape : Shape Data) : Prop :=
  ∃ after, reset tree = some after ∧ after.root = none ∧
    (∀ q ∈ cellsOf shape, after.nodes.read q = none) ∧
    (∀ q, q ∉ cellsOf shape → after.nodes.read q = tree.nodes.read q) ∧
    after.deleted.Perm ((nodes shape).map Prod.snd ++ tree.deleted)

/-- A tree that is built is given back if and only if no left link is below a left link. -/
theorem releases_iff {tree : BinTree Data} (built : Built tree) :
    ∃ shape, Holds tree.nodes tree.root shape ∧ (Releases tree shape ↔ Shallow shape) := by
  obtain ⟨shape, holds, distinct⟩ := built.holds
  obtain ⟨after, returns, root, ends⟩ := reset_returns holds distinct
  refine ⟨shape, holds, fun releases => ?_, fun shallow => ?_⟩
  · obtain ⟨after', returns', -, freed, -, -⟩ := releases
    obtain rfl := Option.some.inj (returns.symm.trans returns')
    refine Classical.byContradiction fun deep => ?_
    obtain ⟨q, member, cell, live⟩ := ends.kept deep
    rw [freed q member] at live
    cases live
  · exact ⟨after, returns, root, ends.freed shallow, ends.outside, ends.deleted shallow⟩

end Source

/-- A root with a child on the left and one on the right. -/
def spread : BinTree Nat where
  nodes := [some ⟨10, none, some 1, some 2⟩, some ⟨11, none, none, none⟩,
    some ⟨12, none, none, none⟩]
  root := some 0
  deleted := []

/-- It is built. -/
theorem spread_built : Built spread := by
  have root : Built (setRoot (nodeNew treeNew 10).2 (nodeNew treeNew 10).1) := .setRoot .new 10
  have left : Built ⟨_, _, _⟩ := root.appendLeft 11 (.root rfl) rfl
  exact left.appendRight 12 (.root rfl) rfl

/-- It is given back. -/
theorem releases_iff_spread : ∃ shape, Holds spread.nodes spread.root shape ∧
    (Releases spread shape ↔ Shallow shape) :=
  releases_iff spread_built

/-- A chain of left links over three nodes. -/
def nested : BinTree Nat where
  nodes := [some ⟨10, none, some 1, none⟩, some ⟨11, none, some 2, none⟩,
    some ⟨12, none, none, none⟩]
  root := some 0
  deleted := []

/-- The root of the chain is lost. -/
theorem not_releases : ∃ tree : BinTree Nat, Built tree ∧
    ∀ shape, Holds tree.nodes tree.root shape → ¬ Releases tree shape := by
  have root : Built (setRoot (nodeNew treeNew 10).2 (nodeNew treeNew 10).1) := .setRoot .new 10
  have left : Built ⟨_, _, _⟩ := root.appendLeft 11 (.root rfl) rfl
  have built : Built nested := left.appendLeft 12 (.left (.root rfl) rfl rfl) rfl
  refine ⟨nested, built, fun shape holds releases => ?_⟩
  obtain ⟨after, returns, -, freed, -⟩ := releases
  have kept : (reset nested).map (fun after => (after.nodes.read 0).isSome) = some true := by
    decide
  obtain ⟨data, left, right, rfl⟩ := holds.root
  have member : 0 ∈ cellsOf (.node (0, data) left right) := by
    rw [cellsOf_node]
    exact List.mem_cons_self
  simp [returns, freed 0 member] at kept

end Ezcfg.BinaryTree

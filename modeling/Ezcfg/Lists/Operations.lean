import Ezcfg.Values
import Ezcfg.Foundation.LinkedCells

/-!
# The operations of the two linked lists

`ezcfg_linked_list` and `ezcfg_nv_linked_list` walk and link their nodes by the same code.
They differ in how they compare the data of a node, in what they put in the place of equal
data and in what they release with a node; these are parameters here. The `World` is where
the data live: comparing or releasing data that are gone has no result.

A node is allocated when it is linked; a node that is allocated and freed again because
an allocation behind it is refused leaves no trace.
-/

namespace Ezcfg.Lists

open Foundation

/-- A list with what its data live in. -/
structure Listed (World Data : Type) where
  list : LinkedList Data
  world : World
deriving DecidableEq

section

variable {World Data : Type}

/-- Insert or append: look for equal data and replace them, else make new data and add them.
Both can be refused, which is the inner none. -/
def put (test : World → Data → Option Bool) (replace : World → Data → Option (World × Option Data))
    (create : World → Option (World × Option Data))
    (add : LinkedList Data → Data → Option (LinkedList Data)) (lst : Listed World Data) :
    Option (Int × Listed World Data) := do
  match ← LinkedList.find (test lst.world) lst.list.cells lst.list.cells.length lst.list.head with
  | some np =>
    let cell ← lst.list.cells.read np
    let (world, data) ← replace lst.world cell.data
    match data with
    | none => return (retFail, { lst with world })
    | some data => return (retOk, ⟨← lst.list.setData np data, world⟩)
  | none =>
    let (world, data) ← create lst.world
    match data with
    | none => return (retFail, { lst with world })
    | some data => return (retOk, ⟨← add lst.list data, world⟩)

/-- Remove the first node with equal data. The head is read without a test for NULL. -/
def removeNode (test : World → Data → Option Bool) (release : World → Data → Option World)
    (lst : Listed World Data) : Option (Int × Listed World Data) := do
  let np ← lst.list.head
  let cell ← lst.list.cells.read np
  -- remove the head node
  if ← test lst.world cell.data then
    let list ← lst.list.unlinkHead np
    let world ← release lst.world cell.data
    return (retOk, ⟨← list.dropCell np, world⟩)
  else
    match ← LinkedList.findBehind (test lst.world) lst.list.cells lst.list.cells.length np
        cell.next with
    | none => return (retFail, lst)
    | some (npp, np) =>
      let cell ← lst.list.cells.read np
      let list ← lst.list.unlinkBehind npp np
      let world ← release lst.world cell.data
      return (retOk, ⟨← list.dropCell np, world⟩)

/-- Take the data of the first node. They are cleared in the node, so that only the node is
released. -/
def takeNode (lst : Listed World Data) : Option (Option Data × Listed World Data) :=
  match lst.list.head with
  | none => some (none, lst)
  | some np => do
    let cell ← lst.list.cells.read np
    let tail := if lst.list.tail = some np then none else lst.list.tail
    let list ← LinkedList.dropCell { lst.list with head := cell.next, tail } np
    return (some cell.data, { lst with list })

/-- Release every node with its data, from the first to the last. -/
def deleteNodes (release : World → Data → Option World) :
    Nat → Listed World Data → Option (Listed World Data)
  | 0, _ => none
  | turns + 1, lst =>
    match lst.list.head with
    | none => some lst
    | some np => do
      let cell ← lst.list.cells.read np
      let world ← release lst.world cell.data
      let cells ← lst.list.cells.free np
      deleteNodes release turns
        ⟨{ lst.list with cells, head := cell.next, tail := some np }, world⟩

variable {test : World → Data → Option Bool} {replace : World → Data → Option (World × Option Data)}
  {create : World → Option (World × Option Data)}
  {add : LinkedList Data → Data → Option (LinkedList Data)} {release : World → Data → Option World}
  {lst : Listed World Data} {entries front back : List (Ptr × Data)} {p : Ptr} {old : Data}

/-- Equal data are replaced where they are. -/
theorem put_first (linked : lst.list.Linked (front ++ (p, old) :: back))
    (passed : ∀ entry ∈ front, test lst.world entry.2 = some false)
    (found : test lst.world old = some true) :
    put test replace create add lst = (do
      let (world, data) ← replace lst.world old
      match data with
      | none => return (retFail, { lst with world })
      | some data => return (retOk, ⟨← lst.list.setData p data, world⟩)) := by
  have bound := linked.length_le
  rw [List.length_append, List.length_cons] at bound
  have enough : front.length < lst.list.cells.length := by omega
  have search := LinkedList.find_first linked.chain passed found enough
  obtain ⟨_, cell⟩ := linked.read
  simp [put, search, cell]

/-- Where no data are equal, new ones are added. -/
theorem put_absent (linked : lst.list.Linked entries)
    (absent : ∀ entry ∈ entries, test lst.world entry.2 = some false) :
    put test replace create add lst = (do
      let (world, data) ← create lst.world
      match data with
      | none => return (retFail, { lst with world })
      | some data => return (retOk, ⟨← add lst.list data, world⟩)) := by
  have search := LinkedList.find_absent linked.chain absent linked.length_le
  simp [put, search]

/-- Where no data are equal, nothing is removed. -/
theorem removeNode_absent (linked : lst.list.Linked entries) (present : entries ≠ [])
    (absent : ∀ entry ∈ entries, test lst.world entry.2 = some false) :
    removeNode test release lst = some (retFail, lst) := by
  cases entries with
  | nil => exact absurd rfl present
  | cons entry rest =>
    obtain ⟨p, data⟩ := entry
    have bound := linked.length_le
    obtain ⟨head, next, cell, chain⟩ := linked.chain
    have here : test lst.world data = some false := absent (p, data) List.mem_cons_self
    have search := LinkedList.findBehind_absent p chain
      (fun entry member => absent entry (List.mem_cons_of_mem _ member))
      (Nat.le_of_succ_le bound)
    simp [removeNode, head, cell, here, search]

/-- The first node with equal data is removed. -/
theorem removeNode_first {world : World} (linked : lst.list.Linked (front ++ (p, old) :: back))
    (passed : ∀ entry ∈ front, test lst.world entry.2 = some false)
    (found : test lst.world old = some true) (released : release lst.world old = some world) :
    ∃ list, removeNode test release lst = some (retOk, ⟨list, world⟩) ∧
      list.Linked (front ++ back) := by
  cases front with
  | nil =>
    obtain ⟨between, list, unlinked, dropped, rest⟩ := linked.unlinkHead
    obtain ⟨head, next, cell, -⟩ := linked.chain
    exact ⟨list, by simp [removeNode, head, cell, found, unlinked, released, dropped], rest⟩
  | cons entry front =>
    obtain ⟨q, other⟩ := entry
    have bound := linked.length_le
    rw [List.length_append, List.length_cons] at bound
    obtain ⟨head, middle, cell, chain⟩ := linked.chain
    have here : test lst.world other = some false := passed (q, other) List.mem_cons_self
    have enough : front.length < lst.list.cells.length := by
      rw [List.length_cons] at bound
      omega
    have search := LinkedList.findBehind_first cell chain
      (fun entry member => passed entry (List.mem_cons_of_mem _ member)) found enough
    -- the node in front of the one found
    obtain ⟨before, ⟨r, between⟩, last⟩ : ∃ before entry, (q, other) :: front = before ++ [entry] :=
      ⟨_, _, (List.dropLast_concat_getLast (List.cons_ne_nil _ _)).symm⟩
    have linked' := linked
    rw [last, List.append_assoc, List.singleton_append] at linked'
    obtain ⟨between, list, unlinked, dropped, rest⟩ := linked'.unlinkBehind
    obtain ⟨_, found'⟩ := linked.read
    have behind : (((q, other) :: front).getLast (List.cons_ne_nil _ _)).1 = r := by
      simp [last]
    refine ⟨list, ?_, ?_⟩
    · rw [behind] at search
      simp [removeNode, head, cell, here, search, found', unlinked, released, dropped]
    · rw [last, List.append_assoc, List.singleton_append]
      exact rest

/-- Nothing is taken from an empty list. -/
theorem takeNode_empty (linked : lst.list.Linked []) : takeNode lst = some (none, lst) := by
  rw [takeNode, linked.head_eq_none.mpr rfl]

/-- The first data are taken. -/
theorem takeNode_first (linked : lst.list.Linked ((p, old) :: back)) :
    ∃ list, takeNode lst = some (some old, { lst with list }) ∧ list.Linked back := by
  obtain ⟨between, list, unlinked, dropped, rest⟩ := linked.unlinkHead
  obtain ⟨head, next, cell, chain⟩ := linked.chain
  refine ⟨list, ?_, rest⟩
  -- the tail is this node exactly where no node is behind it
  have only : lst.list.tail = some p ↔ next = none := by
    have last := linked.last
    cases back with
    | nil =>
      obtain rfl : next = none := chain
      exact iff_of_true last rfl
    | cons entry rest =>
      obtain ⟨rfl, -⟩ := chain
      refine iff_of_false (fun tail => ?_) nofun
      rw [List.map_cons, List.map_cons, List.getLast?_cons_cons] at last
      have member := List.mem_of_getLast? (last.symm.trans tail)
      exact (List.nodup_cons.mp linked.owned.1).1 member
  have same : LinkedList.unlinkHead lst.list p = some { lst.list with
      head := next, tail := if lst.list.tail = some p then none else lst.list.tail } := by
    simp [LinkedList.unlinkHead, cell, only]
  rw [same] at unlinked
  obtain rfl := Option.some.inj unlinked
  simp [takeNode, head, cell, dropped]

/-- Nodes whose data are owned are all released, each of them once. -/
theorem deleteNodes_owned {Cell : Type} {list : LinkedList Ptr} {world : Heap Cell}
    {entries : List (Ptr × Ptr)} {turns : Nat}
    (chain : LinkedList.Segment list.cells list.head entries none)
    (nodes : list.cells.Owns (entries.map Prod.fst)) (data : world.Owns (entries.map Prod.snd))
    (enough : entries.length < turns) :
    ∃ last, deleteNodes (fun world data => Heap.free world data) turns ⟨list, world⟩ = some last ∧
      last.list.cells.Owns [] ∧ last.world.Owns [] := by
  induction entries generalizing list world turns with
  | nil =>
    obtain ⟨turns, rfl⟩ := Nat.exists_eq_add_one_of_ne_zero (Nat.ne_of_gt enough)
    have head : list.head = none := chain
    exact ⟨⟨list, world⟩, by simp [deleteNodes, head], nodes, data⟩
  | cons entry rest inductionHypothesis =>
    obtain ⟨p, d⟩ := entry
    obtain ⟨turns, rfl⟩ := Nat.exists_eq_add_one_of_ne_zero (n := turns) (by omega)
    obtain ⟨head, next, cell, chain⟩ := chain
    rw [List.map_cons] at nodes data
    obtain ⟨world', released, data', -⟩ := data.free
    obtain ⟨cells, freed, nodes', others⟩ := nodes.free
    have apart := (List.nodup_cons.mp nodes.1).1
    have chain' : LinkedList.Segment cells next rest none :=
      chain.frame fun q member => others q fun same => apart (same ▸ member)
    let rest' : LinkedList Ptr := { list with cells, head := next, tail := some p }
    obtain ⟨last, done, gone⟩ : ∃ last, deleteNodes (fun world data => Heap.free world data) turns
        ⟨rest', world'⟩ = some last ∧ last.list.cells.Owns [] ∧ last.world.Owns [] :=
      inductionHypothesis chain' nodes' data' (Nat.lt_of_succ_lt_succ enough)
    exact ⟨last, by simp [deleteNodes, head, cell, released, freed, ← done, rest'], gone⟩

/-- Where the data of a node are dead already, releasing the nodes has no result. -/
theorem deleteNodes_dead {Cell : Type} {list : LinkedList Ptr} {world : Heap Cell}
    {entries : List (Ptr × Ptr)} {turns : Nat} {dead : Ptr}
    (chain : LinkedList.Segment list.cells list.head entries none)
    (nodes : list.cells.Owns (entries.map Prod.fst)) (member : dead ∈ entries.map Prod.snd)
    (gone : world.read dead = none) :
    deleteNodes (fun world data => Heap.free world data) turns ⟨list, world⟩ = none := by
  induction entries generalizing list world turns with
  | nil => cases member
  | cons entry rest inductionHypothesis =>
    obtain ⟨p, d⟩ := entry
    cases turns with
    | zero => rfl
    | succ turns =>
      obtain ⟨head, next, cell, chain⟩ := chain
      cases live : world.read d with
      | none => simp [deleteNodes, head, cell, Heap.free_dead live]
      | some content =>
        obtain ⟨world', released, -, -, others⟩ := Heap.free_live live
        have different : dead ≠ d := fun same => by
          rw [same, live] at gone
          cases gone
        have later : dead ∈ rest.map Prod.snd := (List.mem_cons.mp member).resolve_left different
        rw [List.map_cons] at nodes
        obtain ⟨cells, freed, nodes', others'⟩ := nodes.free
        have apart := (List.nodup_cons.mp nodes.1).1
        have chain' : LinkedList.Segment cells next rest none :=
          chain.frame fun q member => others' q fun same => apart (same ▸ member)
        let rest' : LinkedList Ptr := { list with cells, head := next, tail := some p }
        have further : deleteNodes (fun world data => Heap.free world data) turns
            ⟨rest', world'⟩ = none :=
          inductionHypothesis chain' nodes' later ((others dead different).trans gone)
        simp [deleteNodes, head, cell, released, freed, ← further, rest']

end

end Ezcfg.Lists

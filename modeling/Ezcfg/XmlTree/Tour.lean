import Ezcfg.Foundation.ForestGrowth
import Ezcfg.XmlTree.Search

/-!
# The tour through the tree

Adding an element to the array is growing the tree at a node: as the last child of the parent, or
right beside the sibling. All other elements keep their order. Deleting the elements goes along
the tour and releases each element where it starts.
-/

namespace Ezcfg.XmlTree

open Foundation Forest

variable {xml : Xml} {forest : Forest Nat}

/-- An element has been added for a node that is new in the tree. Its slots are at an index; those
of the others stay in order, and what is known of the others has not changed. -/
structure Added (xml now : Xml) (elem : Element) (index : Nat) (forest grown : Forest Nat) :
    Prop where
  tree : WellNested now grown
  placed : ∃ before after, before.length = index ∧ forest.labels = before ++ after ∧
    grown.labels = before ++ [xml.elements.length, xml.elements.length] ++ after
  fresh : now.plainAt xml.elements.length = some elem.plain
  kept : ∀ pointer, pointer < xml.elements.length → now.plainAt pointer = xml.plainAt pointer

/-- A tree has pointers of elements. -/
theorem WellNested.pointer_lt (tree : WellNested xml forest) {pointer : Nat}
    (member : pointer ∈ forest.labels) : pointer < xml.elements.length := by
  obtain ⟨elem, found, -⟩ := tree.holds.ends pointer member
  exact (List.getElem?_eq_some_iff.mp found).1

/-- What has been added at a place of the labels has been added to the tree. -/
theorem added_of_grown {now : Xml} {elem : Element} {before after : List Nat} {grown : Forest Nat}
    (tree : WellNested xml forest) (grows : Grown xml before after elem now)
    (pair : PairAt xml.elements.length before after forest grown)
    (single : ∃ root children, grown = cons root children nil) :
    Added xml now elem before.length forest grown where
  tree := by
    have absent : xml.elements.length ∉ forest.nodes := by
      intro member
      exact Nat.lt_irrefl _ (tree.pointer_lt (mem_labels.mpr member))
    refine ⟨?_, ?_, .inr single, ?_⟩
    · rw [pair.labels]
      exact grows.holds
    · rw [pair.nodes.nodup_iff, List.nodup_cons]
      exact ⟨absent, tree.different⟩
    · rintro rfl
      obtain ⟨root, children, absurd⟩ := single
      cases absurd
  placed := ⟨before, after, rfl, pair.cut, pair.labels⟩
  fresh := grows.fresh
  kept := grows.kept

/-- The first element becomes the root. -/
theorem add_first (tree : WellNested xml nil) (elem : Element) :
    ∃ now, xml.addElement (-1) (-1) elem = some (now, 0) ∧
      Added xml now elem 0 nil (cons xml.elements.length nil nil) := by
  have top : (-1 : Int) < 0 := by decide
  have sibling : xml.enlarge.pointerAt (-1) = some none := rfl
  obtain ⟨now, index, done, ⟨absurd, -⟩ | ⟨-, rfl, grown⟩⟩ :=
    addElement_top tree.holds top elem sibling
  · exact (absurd rfl).elim
  · have pair : PairAt xml.elements.length [] [] nil (cons xml.elements.length nil nil) :=
      ⟨rfl, rfl, List.Perm.refl _⟩
    exact ⟨now, done, added_of_grown tree grown pair ⟨_, nil, rfl⟩⟩

/-- A node of a tree is in a slot, and it ends where its pointer is for the last time. -/
theorem WellNested.node (tree : WellNested xml forest) {node : Child Nat}
    (found : NodeAt 0 forest node) : forest.labels[node.start]? = some node.label ∧
      ∃ place, LastAt forest.labels node.label place ∧ place + 1 = node.behind := by
  obtain ⟨i, start, used⟩ := found.starts
  rw [Nat.zero_add] at start
  obtain ⟨-, -, final, -⟩ := (laidOut_of_holds tree.holds tree.different).node found
  obtain ⟨elem, -, known, ends⟩ := final.elementAt
  obtain ⟨same, here, last⟩ := tree.holds.ends node.label (mem_labels.mpr found.mem)
  obtain rfl := Option.some.inj (known.symm.trans here)
  rw [ends] at last
  refine ⟨?_, _, last, ?_⟩
  · rw [start]
    exact used
  · rw [Child.behind]
    omega

/-- A tree that grows at a node has a root. -/
theorem growAt_single (tree : WellNested xml forest) {node : Child Nat}
    (found : NodeAt 0 forest node) {grow : Forest Nat → Forest Nat → Forest Nat × Forest Nat}
    (alone : node.start = 0 → ∀ children, (grow children nil).2 = nil) :
    ∃ root children, growAt node.label grow forest = cons root children nil := by
  obtain rfl | ⟨root, children, rfl⟩ := tree.single
  · cases found
  · rw [growAt]
    split_ifs with same
    · have first : node.start = 0 := by
        cases found with
        | here => rfl
        | inside within =>
          have fresh := tree.different
          rw [nodes, List.nodup_cons] at fresh
          have member := List.mem_append_left (nodes nil) within.mem
          rw [← same] at member
          exact absurd member fresh.1
        | beside later => cases later
      rw [alone first]
      exact ⟨root, _, rfl⟩
    · exact ⟨root, _, rfl⟩

/-- An element that is added to a parent is its last child. -/
theorem add_last (tree : WellNested xml forest) {parent : Child Nat}
    (found : NodeAt 0 forest parent) (elem : Element) :
    ∃ (now : Xml) (index : Nat), xml.addElement parent.start (-1) elem = some (now, (index : Int)) ∧
      index + 1 = parent.behind ∧
      Added xml now elem index forest (addLast parent.label xml.elements.length forest) := by
  obtain ⟨before, after, pair, ends⟩ := addLast_pair xml.elements.length found tree.different
  obtain ⟨used, place, last, final⟩ := tree.node found
  obtain rfl : place = before.length := by omega
  have positive : 0 < before.length := by
    rw [Child.behind] at ends
    omega
  have holds := tree.holds
  rw [pair.cut] at used last holds
  have alone : (-1 : Int) < 0 := by decide
  obtain ⟨now, done, grown⟩ := addElement_child holds used alone last positive elem
  refine ⟨now, before.length, done, ?_, added_of_grown tree grown pair ?_⟩
  · omega
  · exact growAt_single tree found fun _ _ => rfl

/-- An element that is added beside a child of a parent is right behind it. -/
theorem add_beside (tree : WellNested xml forest) {parent sibling : Child Nat}
    (found : NodeAt 0 forest parent) (member : sibling ∈ tops (parent.start + 1) parent.children)
    (elem : Element) : ∃ (now : Xml) (index : Nat),
      xml.addElement parent.start sibling.start elem = some (now, (index : Int)) ∧
      index = sibling.behind ∧
      Added xml now elem index forest (addBeside sibling.label xml.elements.length forest) := by
  have foundToo := found.child member
  obtain ⟨before, after, pair, ends⟩ := addBeside_pair xml.elements.length foundToo tree.different
  obtain ⟨used, -⟩ := tree.node found
  obtain ⟨usedToo, place, last, final⟩ := tree.node foundToo
  have behind : before.length = place + 1 := by omega
  have positive : 0 < place := by
    rw [Child.behind] at final
    omega
  have holds := tree.holds
  rw [pair.cut] at used usedToo last holds
  obtain ⟨now, done, grown⟩ := addElement_beside holds used usedToo last behind positive elem
  refine ⟨now, before.length, done, ?_, added_of_grown tree grown pair ?_⟩
  · omega
  · apply growAt_single tree foundToo
    intro first
    have later := le_of_mem_tops member
    omega

/-- Each element has two slots, where it starts and where it ends, and these are all slots in
use. -/
structure TwoSlots (xml : Xml) (forest : Forest Nat) : Prop where
  slots : ∀ node, NodeAt 0 forest node → SlotEnds xml node.start node.label (node.behind - 1) ∧
    SlotEnds xml (node.behind - 1) node.label (node.behind - 1)
  used : ∀ i, i < xml.numElements → ∃ node, NodeAt 0 forest node ∧
    (i = node.start ∨ i = node.behind - 1)
  once : ∀ first second, NodeAt 0 forest first → NodeAt 0 forest second →
    first.label = second.label → first = second

/-- The slots of a tree are those of its elements. -/
theorem WellNested.twoSlots (tree : WellNested xml forest) : TwoSlots xml forest where
  slots node found := by
    obtain ⟨starts, -, ends, -⟩ := (laidOut_of_holds tree.holds tree.different).node found
    have last : node.behind - 1 = node.start + 1 + node.children.labels.length := by
      rw [Child.behind]
      omega
    rw [last]
    exact ⟨starts, ends⟩
  used i inside := by
    rw [tree.holds.count] at inside
    obtain ⟨node, found, place⟩ := exists_nodeAt 0 forest inside
    rw [Nat.zero_add] at place
    exact ⟨node, found, place⟩
  once first second found foundToo same := found.unique tree.different foundToo same

/-- A turn where an element starts releases it, and clears the slot and that of its end. -/
theorem deleteLoop_starts {pointer place : Nat} {elem : Element} {released : List Nat} (turns : Nat)
    (read : xml.root[place]? = some (some pointer)) (unreleased : pointer ∉ released)
    (here : xml.elements[pointer]? = some elem) (positive : 0 < elem.etagIndex)
    (inside : elem.etagIndex < xml.root.length) :
    xml.deleteLoop released (turns + 1) place =
      Xml.deleteLoop { xml with root := (xml.root.set elem.etagIndex none).set place none }
        (released ++ [pointer]) turns (place + 1) := by
  rw [Xml.deleteLoop, bind_of_some read]
  dsimp only
  rw [bind_of_some (ensure_of unreleased), bind_of_some here, bind_of_some (ensure_of inside),
    if_pos positive]

/-- A turn at a cleared slot does nothing. -/
theorem deleteLoop_cleared {place : Nat} {released : List Nat} (turns : Nat)
    (read : xml.root[place]? = some none) :
    xml.deleteLoop released (turns + 1) place = xml.deleteLoop released turns (place + 1) := by
  rw [Xml.deleteLoop, bind_of_some read]

/-- Going over the slots of a forest releases each of its elements, and clears them. -/
theorem deleteLoop_forest {forest : Forest Nat} {place : Nat} {xml : Xml} {released : List Nat}
    (turns : Nat)
    (slots : ∀ (i pointer : Nat), forest.labels[i]? = some pointer →
      xml.root[place + i]? = some (some pointer))
    (ends : LaidOut (fun _ pointer final => ∃ elem, xml.elements[pointer]? = some elem ∧
      elem.etagIndex = final) place forest)
    (different : forest.nodes.Nodup) (fresh : ∀ pointer ∈ forest.nodes, pointer ∉ released) :
    ∃ root : List (Option Nat),
      xml.deleteLoop released (forest.labels.length + turns) place =
        Xml.deleteLoop { xml with root := root } (released ++ forest.nodes) turns
          (place + forest.labels.length) ∧
      root.length = xml.root.length ∧
      (∀ i, i < place ∨ place + forest.labels.length ≤ i → root[i]? = xml.root[i]?) ∧
      ∀ i, place ≤ i → i < place + forest.labels.length → root[i]? = some none := by
  induction forest generalizing place xml released turns with
  | nil =>
    refine ⟨xml.root, ?_, rfl, fun _ _ => rfl, ?_⟩
    · rw [labels, nodes, List.append_nil, List.length_nil, Nat.zero_add, Nat.add_zero]
    · intro i low high
      rw [labels, List.length_nil] at high
      omega
  | cons label children rest inChildren inRest =>
    obtain ⟨⟨elem, here, final⟩, within, -, behind⟩ := ends
    rw [nodes, List.nodup_cons, List.nodup_append] at different
    obtain ⟨notBelow, differentChildren, differentRest, apart⟩ := different
    have readFinal := slots _ _ (labels_cons_final label children rest)
    have inside := (List.getElem?_eq_some_iff.mp readFinal).1
    have places : place + (children.labels.length + 1) = elem.etagIndex := by omega
    rw [places] at inside
    -- the slots where the node starts and ends are cleared at once
    let cleared : Xml := { xml with root := (xml.root.set elem.etagIndex none).set place none }
    have elsewhere : ∀ i, i ≠ place → i ≠ elem.etagIndex → cleared.root[i]? = xml.root[i]? := by
      intro i notPlace notFinal
      rw [List.getElem?_set_ne (Ne.symm notPlace), List.getElem?_set_ne (Ne.symm notFinal)]
    have turn : xml.deleteLoop released ((cons label children rest).labels.length + turns) place =
        cleared.deleteLoop (released ++ [label])
          (children.labels.length + (rest.labels.length + turns + 1)) (place + 1) := by
      have steps : (cons label children rest).labels.length + turns =
          children.labels.length + (rest.labels.length + turns + 1) + 1 := by
        rw [labels_cons_length]
        omega
      rw [steps]
      exact deleteLoop_starts _ (slots 0 label rfl) (fresh label List.mem_cons_self) here (by omega)
        inside
    have slotsInside : ∀ (i pointer : Nat), children.labels[i]? = some pointer →
        cleared.root[place + 1 + i]? = some (some pointer) := by
      intro i pointer known
      have bound := (List.getElem?_eq_some_iff.mp known).1
      rw [elsewhere _ (by omega) (by omega), Nat.add_assoc, Nat.add_comm 1]
      exact slots _ _ (labels_cons_inside label rest known)
    have freshInside : ∀ pointer ∈ children.nodes, pointer ∉ released ++ [label] := by
      intro pointer member before
      rw [List.mem_append, List.mem_singleton] at before
      obtain old | rfl := before
      · exact fresh pointer (List.mem_cons_of_mem _ (List.mem_append_left _ member)) old
      · exact notBelow (List.mem_append_left _ member)
    obtain ⟨root, loop, length, outside, clear⟩ := @inChildren _ cleared _
      (rest.labels.length + turns + 1) slotsInside within differentChildren freshInside
    have lengthFirst : root.length = xml.root.length := by
      rw [length, List.length_set, List.length_set]
    have skip : root[place + 1 + children.labels.length]? = some none := by
      rw [outside _ (.inr (Nat.le_refl _)), ← final, List.getElem?_set_ne (by omega),
        List.getElem?_set_self inside]
    have slotsBehind : ∀ (i pointer : Nat), rest.labels[i]? = some pointer →
        root[place + 1 + children.labels.length + 1 + i]? = some (some pointer) := by
      intro i pointer known
      rw [outside _ (.inr (by omega)), elsewhere _ (by omega) (by omega)]
      have moved : place + 1 + children.labels.length + 1 + i =
          place + (children.labels.length + (i + 1) + 1) := by
        omega
      rw [moved]
      exact slots _ _ (labels_cons_beside label children known)
    have freshBehind : ∀ pointer ∈ rest.nodes,
        pointer ∉ released ++ [label] ++ children.nodes := by
      intro pointer member before
      rw [List.mem_append, List.mem_append, List.mem_singleton] at before
      obtain (old | rfl) | below := before
      · exact fresh pointer (List.mem_cons_of_mem _ (List.mem_append_right _ member)) old
      · exact notBelow (List.mem_append_right _ member)
      · exact apart pointer below pointer member rfl
    obtain ⟨last, loopBehind, lengthLast, outsideLast, clearLast⟩ :=
      @inRest _ { xml with root := root } _ turns slotsBehind behind differentRest freshBehind
    refine ⟨last, ?_, ?_, ?_, ?_⟩
    · have steps : place + 1 + children.labels.length + 1 + rest.labels.length =
          place + (2 + children.labels.length + rest.labels.length) := by
        omega
      have inOrder : released ++ [label] ++ children.nodes ++ rest.nodes =
          released ++ label :: (children.nodes ++ rest.nodes) := by
        simp
      rw [turn, loop, deleteLoop_cleared _ skip, loopBehind, labels_cons_length, nodes, steps,
        inOrder]
    · rw [lengthLast]
      exact lengthFirst
    · intro i apartFrom
      rw [labels_cons_length] at apartFrom
      rw [outsideLast i (by omega)]
      dsimp only
      rw [outside i (by omega), elsewhere i (by omega) (by omega)]
    · intro i low high
      rw [labels_cons_length] at high
      by_cases later : place + 1 + children.labels.length + 1 ≤ i
      · exact clearLast i later (by omega)
      rw [outsideLast i (by omega)]
      dsimp only
      by_cases below : place + 1 ≤ i ∧ i < place + 1 + children.labels.length
      · exact clear i below.1 below.2
      rw [outside i (by omega)]
      by_cases start : i = place
      · rw [start, List.getElem?_set_self (by rw [List.length_set]; omega)]
      · have atEnd : i = elem.etagIndex := by omega
        rw [atEnd, List.getElem?_set_ne (by omega), List.getElem?_set_self inside]

/-- Deleting the elements releases each of a tree once, in the order in which they start, and
leaves an array without elements. -/
theorem WellNested.deleteElements (tree : WellNested xml forest) :
    ∃ now, xml.deleteElements = some (now, forest.nodes) ∧ WellNested now nil := by
  have laid := (laidOut_of_holds tree.holds tree.different).imp fun _ _ _ slot => slot.2
  have slots : ∀ (i pointer : Nat), forest.labels[i]? = some pointer →
      xml.root[0 + i]? = some (some pointer) := by
    intro i pointer used
    rw [Nat.zero_add]
    exact tree.holds.slots i pointer used
  obtain ⟨root, loop, length, outside, clear⟩ := @deleteLoop_forest forest 0 xml [] 0 slots laid
    tree.different (fun _ _ => List.not_mem_nil)
  rw [Nat.add_zero, ← tree.holds.count, List.nil_append] at loop
  refine ⟨{ xml with root := root, numElements := 0 }, ?_, ?_, List.nodup_nil, .inl rfl, ?_⟩
  · rw [Xml.deleteElements, bind_of_some loop]
    rfl
  · refine ⟨rfl, Nat.zero_le _, ?_, ?_⟩
    · intro i pointer absurd
      cases absurd
    · intro pointer absurd
      cases absurd
  · intro _
    obtain rfl | ⟨label, children, rfl⟩ := tree.single
    · have first := outside 0 (.inr (Nat.le_refl _))
      have absent := tree.empty rfl
      rw [Xml.elementAt] at absent ⊢
      dsimp only
      rw [first]
      exact absent
    · have first := clear 0 (Nat.le_refl _) (by rw [labels_cons_length]; omega)
      rw [Xml.elementAt]
      dsimp only
      rw [bind_of_some first]
      rfl

end Ezcfg.XmlTree

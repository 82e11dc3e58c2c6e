import Ezcfg.XmlTree.Tour

/-!
# Elements by their slots

A caller knows an element by the slot where it starts. Which elements are children of others is
read off the slots where elements start and end. Adding an element changes none of this for slots
in front of it, and the new element is the child of the parent it was added to.
-/

namespace Ezcfg.XmlTree

open Foundation Forest

/-- The element in a slot ends in a slot. -/
def EndsAt (xml : Xml) (i final : Nat) : Prop :=
  ∃ elem, xml.elementAt i = some elem ∧ elem.etagIndex = final

/-- An element starts in a slot. -/
def Starts (xml : Xml) (i : Nat) : Prop :=
  i < xml.numElements ∧ ∃ final, EndsAt xml i final ∧ i < final

/-- The element in a slot starts behind that of another one, and ends in front of its end. -/
def Encloses (xml : Xml) (outer inner : Nat) : Prop :=
  outer < inner ∧ ∃ final last, EndsAt xml inner final ∧ EndsAt xml outer last ∧ final < last

/-- An element is in another one, and in none between. -/
structure IsChild (xml : Xml) (parent child : Nat) : Prop where
  outer : Starts xml parent
  inner : Starts xml child
  inside : Encloses xml parent child
  between : ∀ other, Starts xml other → Encloses xml parent other → ¬ Encloses xml other child

variable {xml now : Xml} {forest grown : Forest Nat} {i final : Nat}

/-- An element ends in one slot. -/
theorem EndsAt.unique {last : Nat} (ends : EndsAt xml i final) (endsToo : EndsAt xml i last) :
    final = last := by
  obtain ⟨elem, found, rfl⟩ := ends
  obtain ⟨other, foundToo, rfl⟩ := endsToo
  rw [found] at foundToo
  obtain rfl := Option.some.inj foundToo
  rfl

/-- A node ends in front of the place behind it. -/
theorem WellNested.endsAt (tree : WellNested xml forest) {node : Child Nat}
    (found : NodeAt 0 forest node) : EndsAt xml node.start (node.behind - 1) := by
  obtain ⟨elem, here, -, ends⟩ := (tree.twoSlots.slots node found).1.elementAt
  exact ⟨elem, here, ends⟩

/-- At the end of a node is the node. -/
theorem WellNested.endsAt_last (tree : WellNested xml forest) {node : Child Nat}
    (found : NodeAt 0 forest node) : EndsAt xml (node.behind - 1) (node.behind - 1) := by
  obtain ⟨elem, here, -, ends⟩ := (tree.twoSlots.slots node found).2.elementAt
  exact ⟨elem, here, ends⟩

/-- A node starts in its slot. -/
theorem WellNested.starts (tree : WellNested xml forest) {node : Child Nat}
    (found : NodeAt 0 forest node) : Starts xml node.start := by
  have within := found.behind_le
  have later : node.start + 2 ≤ node.behind := Nat.le_add_right _ _
  refine ⟨?_, node.behind - 1, tree.endsAt found, ?_⟩
  · rw [tree.holds.count]
    omega
  · omega

/-- Where an element starts is a node. -/
theorem WellNested.exists_node (tree : WellNested xml forest) (starts : Starts xml i) :
    ∃ node, NodeAt 0 forest node ∧ node.start = i := by
  obtain ⟨inside, final, ends, later⟩ := starts
  obtain ⟨node, found, rfl | rfl⟩ := tree.twoSlots.used i inside
  · exact ⟨node, found, rfl⟩
  · have same := ends.unique (tree.endsAt_last found)
    omega

/-- A node encloses those that are in it. -/
theorem WellNested.encloses (tree : WellNested xml forest) {outer inner : Child Nat}
    (found : NodeAt 0 forest outer) (foundToo : NodeAt 0 forest inner) :
    Encloses xml outer.start inner.start ↔
      outer.start < inner.start ∧ inner.behind < outer.behind := by
  have outerEnds := tree.endsAt found
  have innerEnds := tree.endsAt foundToo
  have positive : 0 < inner.behind ∧ 0 < outer.behind := by
    rw [Child.behind, Child.behind]
    omega
  constructor
  · rintro ⟨later, final, last, ends, endsToo, less⟩
    have same := ends.unique innerEnds
    have sameToo := endsToo.unique outerEnds
    omega
  · rintro ⟨later, less⟩
    exact ⟨later, _, _, innerEnds, outerEnds, by omega⟩

/-- A child by its slots is one of the children of the node of its parent. -/
theorem WellNested.exists_child (tree : WellNested xml forest) {parent child : Nat}
    (isChild : IsChild xml parent child) : ∃ outer inner, NodeAt 0 forest outer ∧
      outer.start = parent ∧ inner ∈ tops (outer.start + 1) outer.children ∧
      inner.start = child := by
  obtain ⟨outer, found, rfl⟩ := tree.exists_node isChild.outer
  obtain ⟨inner, foundToo, rfl⟩ := tree.exists_node isChild.inner
  obtain ⟨later, less⟩ := (tree.encloses found foundToo).mp isChild.inside
  obtain within | beyond := found.apart foundToo later
  · obtain member | ⟨top, member, deeper⟩ := within.top_or_inside
    · exact ⟨outer, inner, found, rfl, member, rfl⟩
    · have foundTop := found.child member
      have topStarts := le_of_mem_tops member
      have topEnds := behind_le_of_mem_tops member
      obtain ⟨place, starts, -⟩ := deeper.starts
      have ends := deeper.behind_le
      have enclosed : Encloses xml outer.start top.start := by
        apply (tree.encloses found foundTop).mpr
        rw [Child.behind] at topEnds ⊢
        constructor
        · omega
        · rw [Child.behind]
          omega
      have enclosing : Encloses xml top.start inner.start := by
        apply (tree.encloses foundTop foundToo).mpr
        rw [Child.behind] at ends ⊢
        constructor
        · omega
        · rw [Child.behind]
          omega
      exact absurd enclosing (isChild.between _ (tree.starts foundTop) enclosed)
  · have positive : inner.start < inner.behind := by
      rw [Child.behind]
      omega
    omega

/-- A slot leads to where its pointer is for the last time. -/
theorem Holds.endsAt {pointers : List Nat} (holds : Holds xml pointers) {pointer : Nat}
    (used : pointers[i]? = some pointer) (last : LastAt pointers pointer final) :
    EndsAt xml i final := by
  obtain ⟨elem, found, ends⟩ := holds.ends pointer (List.mem_of_getElem? used)
  refine ⟨elem, ?_, ends.unique last⟩
  rw [Xml.elementAt, bind_of_some (holds.slots i pointer used), bind_of_some rfl]
  exact found

/-- In front of a new pair the slots keep their elements, and the ends of these move. -/
theorem Holds.endsAt_insert {before after : List Nat} {pointer : Nat}
    (holds : Holds xml (before ++ after)) (holdsNow : Holds now (before ++ [pointer, pointer] ++ after))
    (fresh : pointer ∉ before ++ after) (below : i < before.length) :
    ∃ final, EndsAt xml i final ∧
      EndsAt now i (if before.length ≤ final then final + 2 else final) := by
  have here : before[i]? = some before[i] := List.getElem?_eq_getElem below
  have used : (before ++ after)[i]? = some before[i] := by
    rw [List.getElem?_append_left below]
    exact here
  have usedNow : (before ++ [pointer, pointer] ++ after)[i]? = some before[i] := by
    rw [List.append_assoc, List.getElem?_append_left below]
    exact here
  obtain ⟨elem, found, last⟩ := holds.ends _ (List.mem_of_getElem? used)
  have absent : before[i] ∉ [pointer, pointer] := by
    intro member
    rw [List.mem_cons, List.mem_singleton, or_self] at member
    rw [← member] at fresh
    exact fresh (List.mem_of_getElem? used)
  exact ⟨elem.etagIndex, holds.endsAt used last, holdsNow.endsAt usedNow (last.insert absent)⟩

/-- The new pair ends in the slot behind that where it starts. -/
theorem Holds.endsAt_pair {before after : List Nat} {pointer : Nat}
    (holdsNow : Holds now (before ++ [pointer, pointer] ++ after))
    (fresh : pointer ∉ before ++ after) :
    EndsAt now before.length (before.length + 1) := by
  have used : (before ++ [pointer, pointer] ++ after)[before.length]? = some pointer := by
    rw [List.append_assoc, List.getElem?_append_right (Nat.le_refl _), Nat.sub_self]
    rfl
  apply holdsNow.endsAt used
  refine ⟨before ++ [pointer], after, ?_, ?_, List.length_append⟩
  · simp
  · intro member
    exact fresh (List.mem_append_right before member)

section Growth

variable {elem : Element} {index parent child : Nat}

/-- The slots in front of a new element keep their elements, and the ends of these move. -/
theorem Added.endsAt (added : Added xml now elem index forest grown)
    (tree : WellNested xml forest) (below : i < index) :
    ∃ final, EndsAt xml i final ∧ EndsAt now i (if index ≤ final then final + 2 else final) := by
  obtain ⟨before, after, rfl, cut, labels⟩ := added.placed
  have holds := tree.holds
  have holdsNow := added.tree.holds
  rw [cut] at holds
  rw [labels] at holdsNow
  exact holds.endsAt_insert holdsNow holds.fresh below

/-- The new element ends in the slot behind that where it starts. -/
theorem Added.endsAt_new (added : Added xml now elem index forest grown)
    (tree : WellNested xml forest) : EndsAt now index (index + 1) := by
  obtain ⟨before, after, rfl, cut, labels⟩ := added.placed
  have holds := tree.holds
  have holdsNow := added.tree.holds
  rw [cut] at holds
  rw [labels] at holdsNow
  exact holdsNow.endsAt_pair holds.fresh

/-- Two more slots are in use. -/
theorem Added.count (added : Added xml now elem index forest grown)
    (tree : WellNested xml forest) :
    now.numElements = xml.numElements + 2 ∧ index ≤ xml.numElements := by
  obtain ⟨before, after, rfl, cut, labels⟩ := added.placed
  rw [added.tree.holds.count, tree.holds.count, labels, cut]
  simp only [List.length_append, List.length_cons, List.length_nil]
  omega

/-- In front of a new element the same elements start. -/
theorem Added.starts_iff (added : Added xml now elem index forest grown)
    (tree : WellNested xml forest) (below : i < index) : Starts now i ↔ Starts xml i := by
  obtain ⟨final, old, new⟩ := added.endsAt tree below
  obtain ⟨count, inside⟩ := added.count tree
  constructor
  · rintro ⟨-, last, ends, later⟩
    refine ⟨by omega, final, old, ?_⟩
    obtain rfl := ends.unique new
    split at later
    · omega
    · exact later
  · rintro ⟨-, last, ends, later⟩
    refine ⟨by omega, _, new, ?_⟩
    obtain rfl := ends.unique old
    split
    · omega
    · exact later

/-- In front of a new element the same elements enclose each other. -/
theorem Added.encloses_iff (added : Added xml now elem index forest grown)
    (tree : WellNested xml forest) (below : parent < index) (belowToo : child < index) :
    Encloses now parent child ↔ Encloses xml parent child := by
  obtain ⟨outer, old, new⟩ := added.endsAt tree below
  obtain ⟨inner, oldToo, newToo⟩ := added.endsAt tree belowToo
  constructor
  · rintro ⟨later, final, last, ends, endsToo, less⟩
    refine ⟨later, inner, outer, oldToo, old, ?_⟩
    rw [ends.unique newToo, endsToo.unique new] at less
    split at less
    · split at less
      · omega
      · omega
    · split at less
      · omega
      · omega
  · rintro ⟨later, final, last, ends, endsToo, less⟩
    refine ⟨later, _, _, newToo, new, ?_⟩
    rw [ends.unique oldToo, endsToo.unique old] at less
    split
    · split
      · omega
      · omega
    · split
      · omega
      · omega

/-- In front of a new element the same elements are children of each other. -/
theorem Added.isChild (added : Added xml now elem index forest grown)
    (tree : WellNested xml forest) (below : child < index) (isChild : IsChild xml parent child) :
    IsChild now parent child := by
  have less : parent < child := isChild.inside.1
  have parentBelow : parent < index := by omega
  refine ⟨?_, ?_, ?_, ?_⟩
  · exact (added.starts_iff tree parentBelow).mpr isChild.outer
  · exact (added.starts_iff tree below).mpr isChild.inner
  · exact (added.encloses_iff tree parentBelow below).mpr isChild.inside
  · intro other starts enclosed enclosing
    have otherBelow : other < index := by
      have before := enclosing.1
      omega
    rw [added.starts_iff tree otherBelow] at starts
    rw [added.encloses_iff tree parentBelow otherBelow] at enclosed
    rw [added.encloses_iff tree otherBelow below] at enclosing
    exact isChild.between other starts enclosed enclosing

/-- The new element is a child of an element in front of it that ends behind the place, when
nothing that this encloses does. -/
theorem Added.isChild_new (added : Added xml now elem index forest grown)
    (tree : WellNested xml forest) (starts : Starts xml parent) (below : parent < index)
    (ends : EndsAt xml parent final) (around : index ≤ final)
    (closed : ∀ other last, Starts xml other → Encloses xml parent other → other < index →
      EndsAt xml other last → last < index) : IsChild now parent index := by
  obtain ⟨same, old, new⟩ := added.endsAt tree below
  obtain rfl := old.unique ends
  rw [if_pos around] at new
  have newEnds := added.endsAt_new tree
  obtain ⟨count, inside⟩ := added.count tree
  refine ⟨?_, ?_, ?_, ?_⟩
  · exact (added.starts_iff tree below).mpr starts
  · exact ⟨by omega, _, newEnds, Nat.lt_succ_self _⟩
  · exact ⟨below, _, _, newEnds, new, by omega⟩
  · rintro other otherStarts enclosed ⟨otherBelow, inner, outer, innerEnds, outerEnds, less⟩
    obtain ⟨last, oldEnds, nowEnds⟩ := added.endsAt tree otherBelow
    rw [added.starts_iff tree otherBelow] at otherStarts
    rw [added.encloses_iff tree below otherBelow] at enclosed
    have isClosed := closed other last otherStarts enclosed otherBelow oldEnds
    rw [outerEnds.unique nowEnds, innerEnds.unique newEnds, if_neg (by omega)] at less
    omega

end Growth

/-- The indices of a call: without elements there is no parent; a parent is where an element
starts, and a sibling where a child of the parent does. -/
inductive ValidCall (xml : Xml) : Int → Int → Prop where
  | first (empty : xml.numElements = 0) : ValidCall xml (-1) (-1)
  | last {parent : Nat} (starts : Starts xml parent) : ValidCall xml parent (-1)
  | beside {parent sibling : Nat} (isChild : IsChild xml parent sibling) :
    ValidCall xml parent sibling

/-- What starts in the slots up to a bound still does, and children there are still children. -/
structure KeptUpTo (bound : Nat) (xml now : Xml) : Prop where
  starts : ∀ i, i ≤ bound → Starts xml i → Starts now i
  children : ∀ parent child, child ≤ bound → IsChild xml parent child → IsChild now parent child

/-- Nothing changes an array into itself. -/
theorem KeptUpTo.refl (bound : Nat) (xml : Xml) : KeptUpTo bound xml xml :=
  ⟨fun _ _ starts => starts, fun _ _ _ isChild => isChild⟩

/-- What is kept twice is kept. -/
theorem KeptUpTo.trans {bound boundToo : Nat} {later : Xml} (kept : KeptUpTo bound xml now)
    (keptToo : KeptUpTo boundToo now later) (less : bound ≤ boundToo) : KeptUpTo bound xml later where
  starts i below starts := keptToo.starts i (by omega) (kept.starts i below starts)
  children parent child below isChild :=
    keptToo.children parent child (by omega) (kept.children parent child below isChild)

/-- An element that is new in the array starts at an index. Where it has a parent, it is a child
of it, and what is in front of the parent is kept. -/
structure Joined (xml now : Xml) (pi : Int) (index : Nat) : Prop where
  starts : Starts now index
  parent : ∀ parent : Nat, pi = parent → IsChild now parent index ∧ KeptUpTo parent xml now

/-- In front of a new element everything is kept. -/
theorem Added.keptUpTo {elem : Element} {index bound : Nat}
    (added : Added xml now elem index forest grown) (tree : WellNested xml forest)
    (below : bound < index) : KeptUpTo bound xml now where
  starts i inside starts := (added.starts_iff tree (by omega)).mpr starts
  children parent child inside isChild := added.isChild tree (by omega) isChild

/-- The new element starts at its index. -/
theorem Added.starts_new {elem : Element} {index : Nat}
    (added : Added xml now elem index forest grown) (tree : WellNested xml forest) :
    Starts now index := by
  obtain ⟨count, inside⟩ := added.count tree
  exact ⟨by omega, index + 1, added.endsAt_new tree, Nat.lt_succ_self _⟩

/-- The last child of a parent joins it. -/
theorem Added.joined_last {elem : Element} {index : Nat} {parent : Child Nat}
    (added : Added xml now elem index forest grown) (tree : WellNested xml forest)
    (found : NodeAt 0 forest parent) (place : index + 1 = parent.behind) :
    Joined xml now parent.start index where
  starts := added.starts_new tree
  parent same := by
    rintro equal
    obtain rfl := Int.ofNat.inj equal
    have below : parent.start < index := by
      rw [Child.behind] at place
      omega
    refine ⟨?_, added.keptUpTo tree below⟩
    have ends := tree.endsAt found
    apply added.isChild_new tree (tree.starts found) below ends (by omega)
    rintro other last - ⟨-, inner, outer, innerEnds, outerEnds, less⟩ - endsToo
    have sameInner := endsToo.unique innerEnds
    have sameOuter := outerEnds.unique ends
    omega

/-- An element beside a child joins the parent. -/
theorem Added.joined_beside {elem : Element} {index : Nat} {parent sibling : Child Nat}
    (added : Added xml now elem index forest grown) (tree : WellNested xml forest)
    (found : NodeAt 0 forest parent) (member : sibling ∈ tops (parent.start + 1) parent.children)
    (isChild : IsChild xml parent.start sibling.start) (place : index = sibling.behind) :
    Joined xml now parent.start index where
  starts := added.starts_new tree
  parent same := by
    rintro equal
    obtain rfl := Int.ofNat.inj equal
    have foundToo := found.child member
    have starts := le_of_mem_tops member
    have ends := behind_le_of_mem_tops member
    have behind : sibling.start < sibling.behind := by
      rw [Child.behind]
      omega
    have below : parent.start < index := by omega
    have inside : sibling.behind < parent.behind := by
      rw [Child.behind] at ends
      rw [Child.behind, Child.behind]
      omega
    refine ⟨?_, added.keptUpTo tree below⟩
    apply added.isChild_new tree (tree.starts found) below (tree.endsAt found) (by omega)
    intro other last otherStarts enclosed otherBelow otherEnds
    obtain ⟨node, foundNode, rfl⟩ := tree.exists_node otherStarts
    have lastBehind := otherEnds.unique (tree.endsAt foundNode)
    have positive : 0 < node.behind := by
      rw [Child.behind]
      omega
    obtain before | same | after := Nat.lt_trichotomy node.start sibling.start
    · obtain deeper | beyond := foundNode.apart foundToo before
      · have within := deeper.behind_le
        have enclosing : Encloses xml node.start sibling.start := by
          apply (tree.encloses foundNode foundToo).mpr
          refine ⟨before, ?_⟩
          rw [Child.behind] at within
          rw [Child.behind, Child.behind]
          omega
        exact absurd enclosing (isChild.between _ otherStarts enclosed)
      · omega
    · have sameEnd := otherEnds
      rw [same] at sameEnd
      have lastSibling := sameEnd.unique (tree.endsAt foundToo)
      omega
    · obtain deeper | beyond := foundToo.apart foundNode after
      · have within := deeper.behind_le
        rw [Child.behind] at place
        omega
      · omega

/-- A valid call adds an element, and this joins the parent. -/
theorem ValidCall.added {pi si : Int} (valid : ValidCall xml pi si) (tree : WellNested xml forest)
    (elem : Element) : ∃ (now : Xml) (index : Nat) (grown : Forest Nat),
      xml.addElement pi si elem = some (now, (index : Int)) ∧ WellNested now grown ∧
      Joined xml now pi index := by
  cases valid with
  | first empty =>
    obtain rfl | ⟨root, children, rfl⟩ := tree.single
    · obtain ⟨now, done, added⟩ := add_first tree elem
      refine ⟨now, 0, _, done, added.tree, added.starts_new tree, ?_⟩
      intro parent absurd
      omega
    · rw [tree.holds.count, labels_cons_length] at empty
      omega
  | last starts =>
    obtain ⟨parent, found, rfl⟩ := tree.exists_node starts
    obtain ⟨now, index, done, place, added⟩ := add_last tree found elem
    exact ⟨now, index, _, done, added.tree, added.joined_last tree found place⟩
  | beside isChild =>
    obtain ⟨parent, sibling, found, rfl, member, rfl⟩ := tree.exists_child isChild
    obtain ⟨now, index, done, place, added⟩ := add_beside tree found member elem
    exact ⟨now, index, _, done, added.tree, added.joined_beside tree found member isChild place⟩

end Ezcfg.XmlTree

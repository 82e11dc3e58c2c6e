import Ezcfg.Http.Lengths
import Ezcfg.XmlTree.Writer

/-!
# The text of a tree

What is written for the array of a tree is the text of the tree: the tags of an element around
its content and the texts of its children. The induction is over the forest; an element ends in
the slot behind those of its children.
-/

namespace Ezcfg.XmlTree

open Foundation Forest

/-- The text of an attribute. -/
def attributeText (a : Attribute) : Text :=
  space :: fullName a.namePrefix a.name ++ equalSign :: quote :: a.value ++ [quote]

/-- The text of a tag up to its end. -/
def tagText (elem : Element) : Text :=
  less :: fullName elem.namePrefix elem.name ++ elem.attributes.flatMap attributeText

/-- The text of an element with its end tag. -/
def elementText (elem : Element) (inside : Text) : Text :=
  tagText elem ++ greater :: elem.content.getD [] ++ inside ++
    less :: slash :: fullName elem.namePrefix elem.name ++ [greater, newLine]

/-- The text of an element without children and content. -/
def emptyText (elem : Element) : Text := tagText elem ++ [slash, greater, newLine]

/-- The text of a forest. -/
def forestText : Forest Element → Text
  | nil => []
  | cons elem children rest =>
    (if elem.content = none ∧ children.isNil then emptyText elem
      else elementText elem (forestText children)) ++ forestText rest

/-- The element of a node with the place where it ends. -/
def ended (node : Element × Nat) : Element := { node.1 with etagIndex := node.2 }

/-- The texts that are printed for the slots from one on. -/
def slotsPieces (xml : Xml) : Nat → Nat → Option (List Text)
  | 0, _ => some []
  | turns + 1, i => do
    let pieces ← slotPieces xml i
    let later ← slotsPieces xml turns (i + 1)
    return pieces ++ later

variable {xml : Xml}

/-- The texts for slots are those for the first ones and those for the others. -/
theorem slotsPieces_add {first second : Nat} {i : Nat} {pieces later : List Text}
    (front : slotsPieces xml first i = some pieces)
    (back : slotsPieces xml second (i + first) = some later) :
    slotsPieces xml (first + second) i = some (pieces ++ later) := by
  induction first generalizing i pieces with
  | zero =>
    cases front
    rw [Nat.zero_add]
    exact back
  | succ first inductionHypothesis =>
    rw [slotsPieces] at front
    obtain ⟨here, slot, front⟩ := Option.bind_eq_some_iff.mp front
    obtain ⟨others, rest, same⟩ := Option.bind_eq_some_iff.mp front
    cases same
    have index : i + (first + 1) = i + 1 + first := by omega
    rw [index] at back
    have turns : first + 1 + second = first + second + 1 := by omega
    rw [turns, slotsPieces, bind_of_some slot, bind_of_some (inductionHypothesis rest back),
      List.append_assoc]
    rfl

/-- The texts for one slot. -/
theorem slotsPieces_one {i : Nat} {pieces : List Text} (slot : slotPieces xml i = some pieces) :
    slotsPieces xml 1 i = some pieces := by
  rw [slotsPieces, bind_of_some slot, slotsPieces, bind_of_some rfl, List.append_nil]
  rfl

/-- What is printed in the first slot of an element. -/
theorem slotPieces_start {i final : Nat} {elem : Element} (named : elem.name ≠ [])
    (here : xml.elementAt i = some (ended (elem, final))) (later : i < final) :
    slotPieces xml i = some ((less :: fullName elem.namePrefix elem.name) ::
      (elem.attributes.flatMap attributePieces ++ startPieces (ended (elem, final)) i)) := by
  have starts : (ended (elem, final)).etagIndex ≠ i := Nat.ne_of_gt later
  have name : (ended (elem, final)).name ≠ [] := named
  rw [slotPieces, bind_of_some here, if_pos starts, if_neg name]
  rfl

/-- What is printed in the last slot of an element with an end tag. -/
theorem slotPieces_end {final : Nat} {elem : Element}
    (here : xml.elementAt final = some (ended (elem, final)))
    (tagged : elem.content = none → 0 < final ∧ ∃ previous,
      xml.elementAt (final - 1) = some previous ∧ previous.etagIndex ≠ final) :
    slotPieces xml final =
      some [less :: slash :: fullName elem.namePrefix elem.name ++ [greater, newLine]] := by
  have ends : ¬ (ended (elem, final)).etagIndex ≠ final := not_not.mpr rfl
  rw [slotPieces, bind_of_some here, if_neg ends]
  by_cases empty : elem.content = none
  · obtain ⟨positive, previous, before, other⟩ := tagged empty
    have none : (ended (elem, final)).content = none := empty
    rw [if_pos none, bind_of_some (ensure_of positive), bind_of_some before, if_neg other]
    rfl
  · have some : ¬ (ended (elem, final)).content = none := empty
    rw [if_neg some]
    rfl

/-- What is printed in the last slot of an element without children and content. -/
theorem slotPieces_newLine {i : Nat} {elem : Element} (empty : elem.content = none)
    (start : xml.elementAt i = some (ended (elem, i + 1)))
    (here : xml.elementAt (i + 1) = some (ended (elem, i + 1))) :
    slotPieces xml (i + 1) = some [[newLine]] := by
  have ends : ¬ (ended (elem, i + 1)).etagIndex ≠ i + 1 := not_not.mpr rfl
  have none : (ended (elem, i + 1)).content = none := empty
  rw [slotPieces, bind_of_some here, if_neg ends, if_pos none, bind_of_some
    (ensure_of (Nat.succ_pos i)), Nat.add_sub_cancel, bind_of_some start]
  exact if_pos rfl

end Ezcfg.XmlTree

import Mathlib.Data.List.TakeWhile
import Ezcfg.XmlTree.Building

/-!
# Arrays that are built

An array is built from a new one by adding elements, which are made from strings, and by adding
attributes to elements. The index of a parent is that of a slot in use; so is the index of a
sibling, and it is none of the two slots of the root. What the array holds is a tree.
-/

namespace Ezcfg.XmlTree

open Foundation Forest

/-- A name with its prefix. -/
def fullName (namePrefix : Option Text) (name : Text) : Text :=
  match namePrefix with
  | none => name
  | some first => first ++ colon :: name

/-- A name is the two parts into which it is split. -/
theorem fullName_split (name : Text) : fullName (splitName name).1 (splitName name).2 = name := by
  rw [splitName]
  split
  · rename_i marked
    have parts := List.takeWhile_append_dropWhile (p := fun byte => decide (byte ≠ colon)) (l := name)
    cases rest : name.dropWhile (fun byte => decide (byte ≠ colon)) with
    | nil =>
      rw [rest, List.append_nil] at parts
      rw [← parts] at marked
      simpa using List.mem_takeWhile_imp marked
    | cons byte tail =>
      have stopped := List.head?_dropWhile_not (fun byte => decide (byte ≠ colon)) name
      rw [rest] at stopped
      obtain rfl : byte = colon := by simpa using stopped
      rw [rest] at parts
      exact parts
  · rfl

/-- A name is split as it was before, and it is a string. -/
def ProperName (namePrefix : Option Text) (name : Text) : Prop :=
  splitName (fullName namePrefix name) = (namePrefix, name) ∧
    (0 : UInt8) ∉ fullName namePrefix name

/-- The texts of an element are strings. -/
structure Proper (elem : Element) : Prop where
  name : ProperName elem.namePrefix elem.name
  content : ∀ content, elem.content = some content → (0 : UInt8) ∉ content
  attributes : ∀ a ∈ elem.attributes, ProperName a.namePrefix a.name ∧ (0 : UInt8) ∉ a.value

/-- The parts of a string are proper. -/
theorem properName_split (name : CString) :
    ProperName (splitName name.bytes).1 (splitName name.bytes).2 := by
  rw [ProperName, fullName_split]
  exact ⟨rfl, name.nonul⟩

/-- A new element is proper. -/
theorem elementNew_proper (name : CString) (content : Option CString) :
    Proper (elementNew name.bytes (content.map CString.bytes)) where
  name := properName_split name
  content text known := by
    obtain ⟨string, -, rfl⟩ := Option.map_eq_some_iff.mp known
    exact string.nonul
  attributes a member := absurd member List.not_mem_nil

/-- An element with another attribute is proper. -/
theorem elementAddAttribute_proper {elem : Element} (proper : Proper elem) (name value : CString)
    (pos : Int) : Proper (elementAddAttribute elem name.bytes value.bytes pos).2 := by
  have added : ProperName (splitName name.bytes).1 (splitName name.bytes).2 ∧
      (0 : UInt8) ∉ value.bytes := ⟨properName_split name, value.nonul⟩
  rw [elementAddAttribute]
  split_ifs
  · refine ⟨proper.name, proper.content, ?_⟩
    rw [List.forall_mem_cons]
    exact ⟨added, proper.attributes⟩
  · refine ⟨proper.name, proper.content, ?_⟩
    rw [List.forall_mem_append, List.forall_mem_singleton]
    exact ⟨proper.attributes, added⟩
  · exact proper

/-- An element that is made from strings. -/
inductive Made : Element → Prop where
  | new (name : CString) (content : Option CString) :
    Made (elementNew name.bytes (content.map CString.bytes))
  | attributed {elem : Element} (made : Made elem) (name value : CString) (pos : Int) :
    Made (elementAddAttribute elem name.bytes value.bytes pos).2

/-- The indices are those of elements, or negative ones. -/
def Valid (xml : Xml) (pi si : Int) : Prop :=
  pi < 0 ∨ pi < xml.numElements ∧ (si < 0 ∨ 0 < si ∧ si + 1 < xml.numElements)

/-- An array that is built. -/
inductive Built : Xml → Prop where
  | new : Built xmlNew
  | add {xml now : Xml} {elem : Element} {pi si index : Int} (built : Built xml) (made : Made elem)
    (valid : Valid xml pi si) (added : xml.addElement pi si elem = some (now, index))
    (accepted : 0 ≤ index) : Built now
  | attributed {xml : Xml} (built : Built xml) (pointer : Nat) (name value : CString) (pos : Int) :
    Built (xml.modify pointer fun elem => (elementAddAttribute elem name.bytes value.bytes pos).2)

/-- The array holds a tree of different elements, or nothing. -/
structure IsTree (xml : Xml) (forest : Forest Nat) : Prop where
  holds : Holds xml forest.labels
  different : forest.nodes.Nodup
  single : forest = nil ∨ ∃ root children, forest = cons root children nil
  proper : ∀ pointer elem, xml.plainAt pointer = some elem → Proper elem

/-- Adding an attribute leaves the end of an element. -/
theorem elementAddAttribute_end (elem : Element) (name value : Text) (pos : Int) :
    (elementAddAttribute elem name value pos).2.etagIndex = elem.etagIndex := by
  rw [elementAddAttribute]
  split_ifs
  · rfl
  · rfl
  · rfl

/-- Adding an attribute and forgetting the end can be done in any order. -/
theorem elementAddAttribute_plain (elem : Element) (name value : Text) (pos : Int) :
    (elementAddAttribute elem name value pos).2.plain =
      (elementAddAttribute elem.plain name value pos).2 := by
  rw [elementAddAttribute, elementAddAttribute]
  split_ifs
  · rfl
  · rfl
  · rfl

/-- Whether an element is proper does not depend on its end. -/
theorem Proper.plain {elem : Element} (proper : Proper elem) : Proper elem.plain :=
  ⟨proper.name, proper.content, proper.attributes⟩

/-- What is made is proper. -/
theorem Made.proper {elem : Element} (made : Made elem) : Proper elem := by
  induction made with
  | new name content => exact elementNew_proper name content
  | attributed made name value pos inductionHypothesis =>
    exact elementAddAttribute_proper inductionHypothesis name value pos

variable {xml now : Xml} {forest : Forest Nat}

/-- The pointers of a tree lead to elements. -/
theorem Holds.pointer_lt {pointers : List Nat} (holds : Holds xml pointers) {pointer : Nat}
    (member : pointer ∈ pointers) : pointer < xml.elements.length := by
  obtain ⟨elem, found, -⟩ := holds.ends pointer member
  exact (List.getElem?_eq_some_iff.mp found).1

/-- What has been added to a tree is proper when it is made from strings. -/
theorem Grown.proper {before after : List Nat} {elem : Element}
    (grown : Grown xml before after elem now) (made : Made elem)
    (proper : ∀ pointer elem, xml.plainAt pointer = some elem → Proper elem) (pointer : Nat)
    (here : Element) (known : now.plainAt pointer = some here) : Proper here := by
  have inside : pointer < xml.elements.length + 1 := by
    rw [← grown.elements]
    obtain ⟨_, found, -⟩ := Option.map_eq_some_iff.mp known
    exact (List.getElem?_eq_some_iff.mp found).1
  obtain old | rfl := Nat.lt_succ_iff_lt_or_eq.mp inside
  · rw [grown.kept pointer old] at known
    exact proper pointer here known
  · rw [grown.fresh] at known
    obtain rfl := Option.some.inj known
    exact made.proper.plain

/-- Adding an element inside the root gives a tree. -/
theorem Grown.isTree {root : Nat} {children : Forest Nat} {before after : List Nat} {elem : Element}
    (tree : IsTree xml (cons root children nil))
    (grown : Grown xml before after elem now) (made : Made elem)
    (cut : (cons root children nil).labels = before ++ after) (started : before ≠ [])
    (unended : after ≠ []) : ∃ forest, IsTree now forest := by
  obtain ⟨larger, labels, perm⟩ := insert_inside xml.elements.length root children cut started
    unended
  have fresh : xml.elements.length ∉ (cons root children nil).nodes := by
    intro member
    exact Nat.lt_irrefl _ (tree.holds.pointer_lt (mem_labels.mpr member))
  refine ⟨cons root larger nil, ?_, ?_, Or.inr ⟨root, larger, rfl⟩, grown.proper made tree.proper⟩
  · rw [labels]
    have holds := grown.holds
    rwa [List.append_assoc] at holds
  · rw [perm.nodup_iff, List.nodup_cons]
    exact ⟨fresh, tree.different⟩

/-- A pointer inside the root ends inside the root. -/
theorem inside_root {root pointer : Nat} {children : Forest Nat} {place : Nat}
    (different : (cons root children nil).nodes.Nodup)
    (last : LastAt (cons root children nil).labels pointer place) :
    0 < place ∧ (place + 1 = (cons root children nil).labels.length ↔ pointer = root) := by
  have final : LastAt (cons root children nil).labels root (children.labels.length + 1) := by
    refine ⟨root :: children.labels, [], ?_, List.not_mem_nil, List.length_cons⟩
    rw [labels, labels, List.cons_append]
  have length : (cons root children nil).labels.length = children.labels.length + 2 := by
    rw [labels, labels, List.length_cons, List.length_append, List.length_singleton]
  have ends : place + 1 = (cons root children nil).labels.length ↔ pointer = root := by
    rw [length]
    constructor
    · intro same
      obtain rfl : place = children.labels.length + 1 := Nat.succ.inj same
      exact Option.some.inj (last.get.symm.trans final.get)
    · rintro rfl
      rw [last.unique final]
  refine ⟨?_, ends⟩
  by_contra zero
  obtain rfl := Nat.eq_zero_of_not_pos zero
  have first := last.get
  rw [labels, List.getElem?_cons_zero] at first
  have same := ends.mpr (Option.some.inj first).symm
  rw [length] at same
  omega

/-- Between the slots of the root are other pointers. -/
theorem not_root {root pointer : Nat} {children : Forest Nat} {i : Nat}
    (different : (cons root children nil).nodes.Nodup) (positive : 0 < i)
    (inside : i + 1 < (cons root children nil).labels.length)
    (here : (cons root children nil).labels[i]? = some pointer) : pointer ≠ root := by
  obtain ⟨j, rfl⟩ : ∃ j, i = j + 1 := ⟨i - 1, by omega⟩
  rw [labels, labels, List.length_cons, List.length_append, List.length_singleton] at inside
  rw [labels, labels, List.getElem?_cons_succ, List.getElem?_append_left (by omega)] at here
  rw [nodes, nodes, List.append_nil, List.nodup_cons] at different
  rintro rfl
  exact different.1 (mem_labels.mp (List.mem_of_getElem? here))

/-- A list can be cut at any place. -/
theorem exists_cut {α : Type} {list : List α} {place : Nat} (inside : place ≤ list.length) :
    ∃ before after, list = before ++ after ∧ before.length = place :=
  ⟨list.take place, list.drop place, (List.take_append_drop place list).symm,
    List.length_take_of_le inside⟩

/-- An element that is added to a tree with valid indices gives a tree. -/
theorem IsTree.add {root : Nat} {children : Forest Nat}
    (tree : IsTree xml (cons root children nil)) {elem : Element} (made : Made elem)
    {pi si index : Int} (notTop : 0 ≤ pi) (parent : pi < xml.numElements)
    (sibling : si < 0 ∨ 0 < si ∧ si + 1 < xml.numElements)
    (added : xml.addElement pi si elem = some (now, index)) : ∃ forest, IsTree now forest := by
  have count := tree.holds.count
  obtain ⟨p, rfl⟩ := Int.eq_ofNat_of_zero_le notTop
  obtain ⟨first, used⟩ : ∃ first, (cons root children nil).labels[p]? = some first :=
    ⟨_, List.getElem?_eq_getElem (by omega)⟩
  obtain alone | ⟨positive, short⟩ := sibling
  · obtain ⟨here, -, last⟩ := tree.holds.ends first (List.mem_of_getElem? used)
    have within := last.lt
    have started := (inside_root tree.different last).1
    obtain ⟨before, after, cut, length⟩ := exists_cut (Nat.le_of_lt within)
    have holds := tree.holds
    rw [cut] at holds used
    rw [cut, ← length] at last
    rw [← length] at started
    obtain ⟨final, done, grown⟩ := addElement_child holds used alone last started elem
    cases added.symm.trans done
    refine grown.isTree tree made cut (List.ne_nil_of_length_pos started) ?_
    rintro rfl
    rw [cut, List.append_nil] at within
    omega
  · obtain ⟨q, rfl⟩ := Int.eq_ofNat_of_zero_le (Int.le_of_lt positive)
    obtain ⟨second, usedToo⟩ : ∃ second, (cons root children nil).labels[q]? = some second :=
      ⟨_, List.getElem?_eq_getElem (by omega)⟩
    obtain ⟨here, -, last⟩ := tree.holds.ends second (List.mem_of_getElem? usedToo)
    have within := last.lt
    obtain ⟨started, ends⟩ := inside_root tree.different last
    have other := not_root tree.different (by omega) (by omega) usedToo
    have unended := mt ends.mp other
    obtain ⟨before, after, cut, length⟩ := exists_cut (Nat.succ_le_of_lt within)
    have holds := tree.holds
    rw [cut] at holds used usedToo last
    obtain ⟨final, done, grown⟩ := addElement_beside holds used usedToo last length started elem
    cases added.symm.trans done
    refine grown.isTree tree made cut (List.ne_nil_of_length_pos (by omega)) ?_
    rintro rfl
    rw [cut, List.append_nil] at unended
    omega

/-- The first element gives a tree of one node. -/
theorem IsTree.top (tree : IsTree xml forest) {elem : Element} (made : Made elem)
    {pi si index : Int} (top : pi < 0) (added : xml.addElement pi si elem = some (now, index))
    (accepted : 0 ≤ index) : ∃ forest, IsTree now forest := by
  cases sibling : xml.enlarge.pointerAt si with
  | none =>
    have parent : xml.enlarge.pointerAt pi = some none := by rw [Xml.pointerAt, if_pos top]
    rw [Xml.addElement] at added
    dsimp only at added
    rw [bind_of_some parent, sibling] at added
    cases added
  | some slot =>
    obtain ⟨final, result, done, ⟨-, refused⟩ | ⟨empty, -, grown⟩⟩ :=
      addElement_top tree.holds top elem sibling
    · cases added.symm.trans done
      rw [refused] at accepted
      cases accepted
    · cases added.symm.trans done
      refine ⟨cons xml.elements.length nil nil, grown.holds,
        List.nodup_cons.mpr ⟨List.not_mem_nil, List.nodup_nil⟩,
        Or.inr ⟨_, nil, rfl⟩, grown.proper made tree.proper⟩

/-- An attribute that is added to an element leaves the tree. -/
theorem IsTree.addAttribute (tree : IsTree xml forest) (pointer : Nat) (name value : CString)
    (pos : Int) : IsTree (xml.modify pointer fun elem =>
      (elementAddAttribute elem name.bytes value.bytes pos).2) forest := by
  refine ⟨⟨tree.holds.count, tree.holds.room, tree.holds.slots, ?_⟩, tree.different, tree.single, ?_⟩
  · intro other member
    obtain ⟨elem, found, last⟩ := tree.holds.ends other member
    rw [Xml.modify]
    dsimp only
    rw [List.getElem?_modify, found]
    refine ⟨_, rfl, ?_⟩
    dsimp only
    split
    · rwa [elementAddAttribute_end]
    · exact last
  · intro other elem known
    rw [Xml.plainAt, Xml.modify] at known
    dsimp only at known
    rw [List.getElem?_modify] at known
    cases found : xml.elements[other]? with
    | none =>
      rw [found] at known
      cases known
    | some here =>
      rw [found] at known
      obtain rfl := Option.some.inj known
      have proper := tree.proper other here.plain (by rw [Xml.plainAt, found]; rfl)
      dsimp only
      split
      · rw [elementAddAttribute_plain]
        exact elementAddAttribute_proper proper name value pos
      · exact proper

/-- What is built is a tree. -/
theorem Built.isTree (built : Built xml) : ∃ forest, IsTree xml forest := by
  induction built with
  | new =>
    refine ⟨nil, xmlNew_holds, List.nodup_nil, Or.inl rfl, ?_⟩
    intro pointer elem known
    cases known
  | @add xml now elem pi si index built made valid added accepted inductionHypothesis =>
    obtain ⟨forest, tree⟩ := inductionHypothesis
    obtain top | notTop := Int.lt_or_le pi 0
    · exact tree.top made top added accepted
    · obtain top | ⟨parent, sibling⟩ := valid
      · omega
      · obtain rfl | ⟨root, children, rfl⟩ := tree.single
        · have count := tree.holds.count
          rw [labels, List.length_nil] at count
          omega
        · exact tree.add made notTop parent sibling added
  | attributed built pointer name value pos inductionHypothesis =>
    obtain ⟨forest, tree⟩ := inductionHypothesis
    exact ⟨forest, tree.addAttribute pointer name value pos⟩

end Ezcfg.XmlTree

import Ezcfg.Foundation.Forest
import Ezcfg.XmlTree.Elements

/-!
# Putting elements into the array

The pointers in the slots are the labels of a forest, and each element ends where its pointer is
for the last time. Adding an element moves the slots behind its place two up, and the ends of the
elements with them; the new pointer stands twice at the place, in front of the end of the parent
or behind the end of the sibling.
-/

namespace Ezcfg.XmlTree

open Foundation Forest

/-- An element apart from its end. -/
def Element.plain (elem : Element) : Element := { elem with etagIndex := 0 }

/-- What is known of an element apart from its end. -/
def Xml.plainAt (xml : Xml) (pointer : Nat) : Option Element :=
  (xml.elements[pointer]?).map Element.plain

/-- The slots in use hold the pointers, and the elements end where these are for the last time. -/
structure Holds (xml : Xml) (pointers : List Nat) : Prop where
  count : xml.numElements = pointers.length
  room : pointers.length ≤ xml.root.length
  slots : ∀ (i pointer : Nat), pointers[i]? = some pointer → xml.root[i]? = some (some pointer)
  ends : ∀ pointer ∈ pointers, ∃ elem, xml.elements[pointer]? = some elem ∧
    LastAt pointers pointer elem.etagIndex

/-- A new array holds nothing. -/
theorem xmlNew_holds : Holds xmlNew [] where
  count := rfl
  room := Nat.zero_le _
  slots _ _ here := by cases here
  ends _ member := by cases member

/-- The pointers lead to elements, so that the next one is none of them. -/
theorem Holds.fresh {xml : Xml} {pointers : List Nat} (holds : Holds xml pointers) :
    xml.elements.length ∉ pointers := by
  intro member
  obtain ⟨elem, found, -⟩ := holds.ends _ member
  rw [List.getElem?_eq_none (Nat.le_refl _)] at found
  cases found

/-- An element with its end moved behind a place. -/
def Element.shift (place : Nat) (elem : Element) : Element :=
  if place ≤ elem.etagIndex then { elem with etagIndex := elem.etagIndex + 2 } else elem

variable {xml now : Xml} {pointers : List Nat} {i : Nat}

/-- The slots from a place on have been moved two up. -/
structure Moved (xml : Xml) (pointers : List Nat) (place : Nat) (now : Xml) : Prop where
  length : now.root.length = xml.root.length
  count : now.numElements = xml.numElements
  below : ∀ (i pointer : Nat), i < place + 2 → pointers[i]? = some pointer →
    now.root[i]? = some (some pointer)
  above : ∀ (i pointer : Nat), place ≤ i → pointers[i]? = some pointer →
    now.root[i + 2]? = some (some pointer)
  elements : now.elements.length = xml.elements.length
  shifted : ∀ pointer elem, pointer ∈ pointers → xml.elements[pointer]? = some elem →
    now.elements[pointer]? = some (elem.shift place)
  kept : ∀ pointer, now.plainAt pointer = xml.plainAt pointer

/-- At the start nothing has been moved. -/
theorem Holds.moved (holds : Holds xml pointers) : Moved xml pointers pointers.length xml where
  length := rfl
  count := rfl
  below i pointer _ here := holds.slots i pointer here
  above i pointer beyond here := by
    rw [List.getElem?_eq_none beyond] at here
    cases here
  elements := rfl
  shifted pointer elem member found := by
    obtain ⟨_, same, last⟩ := holds.ends pointer member
    obtain rfl := Option.some.inj (found.symm.trans same)
    rw [found, Element.shift, if_neg (Nat.not_le.mpr last.lt)]
  kept _ := rfl

/-- A turn moves one slot. -/
theorem Moved.step (holds : Holds xml pointers) (room : pointers.length + 2 ≤ xml.root.length)
    (inside : i < pointers.length) (moved : Moved xml pointers (i + 1) now) :
    ∃ after, now.moveSlot i = some after ∧ Moved xml pointers i after := by
  obtain ⟨pointer, here⟩ : ∃ pointer, pointers[i]? = some pointer :=
    ⟨pointers[i], List.getElem?_eq_getElem inside⟩
  have member := List.mem_of_getElem? here
  obtain ⟨elem, found, last⟩ := holds.ends pointer member
  have slot := moved.below i pointer (by omega) here
  have free : i + 2 < now.root.length := by
    rw [moved.length]
    omega
  have current := moved.shifted pointer elem member found
  -- An element whose end is moved in this turn is the one in the slot.
  have others : ∀ other elem', other ∈ pointers → other ≠ pointer →
      xml.elements[other]? = some elem' → elem'.shift (i + 1) = elem'.shift i := by
    intro other elem' among different known
    obtain ⟨_, same, final⟩ := holds.ends other among
    obtain rfl := Option.some.inj (known.symm.trans same)
    have elsewhere : elem'.etagIndex ≠ i := by
      rintro rfl
      exact different (Option.some.inj (final.get.symm.trans here))
    rw [Element.shift, Element.shift]
    by_cases behind : i + 1 ≤ elem'.etagIndex
    · rw [if_pos behind, if_pos (by omega)]
    · rw [if_neg behind, if_neg (by omega)]
  have rootBelow : ∀ (j other : Nat), j < i + 2 → pointers[j]? = some other →
      (now.root.set (i + 2) (some pointer))[j]? = some (some other) := by
    intro j other before known
    rw [List.getElem?_set_ne (by omega)]
    exact moved.below j other (by omega) known
  have rootAbove : ∀ (j other : Nat), i ≤ j → pointers[j]? = some other →
      (now.root.set (i + 2) (some pointer))[j + 2]? = some (some other) := by
    intro j other beyond known
    obtain rfl | later := Nat.eq_or_lt_of_le beyond
    · rw [List.getElem?_set_self free]
      exact congrArg some (here.symm.trans known)
    · rw [List.getElem?_set_ne (by omega)]
      exact moved.above j other later known
  have ended : (elem.shift (i + 1)).etagIndex = i ↔ elem.etagIndex = i := by
    rw [Element.shift]
    split
    · dsimp only
      omega
    · rfl
  by_cases ends : elem.etagIndex = i
  · refine ⟨{ now with
      root := now.root.set (i + 2) (some pointer)
      elements := now.elements.modify pointer fun here => { here with etagIndex := i + 2 } },
      ?_, ?_⟩
    · rw [Xml.moveSlot, bind_of_some slot, bind_of_some (ensure_of free)]
      dsimp only
      rw [bind_of_some rfl, bind_of_some current, if_pos (ended.mpr ends)]
      rfl
    · refine ⟨?_, moved.count, rootBelow, rootAbove, ?_, ?_, ?_⟩
      · rw [List.length_set]
        exact moved.length
      · rw [List.length_modify]
        exact moved.elements
      · intro other elem' among known
        by_cases same : other = pointer
        · subst same
          obtain rfl := Option.some.inj (found.symm.trans known)
          rw [List.getElem?_modify_eq, current, Option.map_eq_map, Option.map_some, Element.shift,
            Element.shift, if_neg (by omega), if_pos (by omega), ends]
        · dsimp only
          rw [List.getElem?_modify_ne _ _ (Ne.symm same), moved.shifted other elem' among known,
            others other elem' among same known]
      · intro other
        rw [Xml.plainAt]
        dsimp only
        rw [List.getElem?_modify, Option.map_eq_map, Option.map_map, ← moved.kept other, Xml.plainAt]
        congr 1
        funext here
        dsimp only [Function.comp]
        split
        · rfl
        · rfl
  · refine ⟨{ now with root := now.root.set (i + 2) (some pointer) }, ?_, ?_⟩
    · rw [Xml.moveSlot, bind_of_some slot, bind_of_some (ensure_of free)]
      dsimp only
      rw [bind_of_some rfl, bind_of_some current, if_neg (mt ended.mp ends)]
      rfl
    · refine ⟨?_, moved.count, rootBelow, rootAbove, moved.elements, ?_, moved.kept⟩
      · rw [List.length_set]
        exact moved.length
      · intro other elem' among known
        by_cases same : other = pointer
        · subst same
          obtain rfl := Option.some.inj (found.symm.trans known)
          rw [current, Element.shift, Element.shift]
          by_cases behind : i + 1 ≤ elem.etagIndex
          · rw [if_pos behind, if_pos (by omega)]
          · rw [if_neg behind, if_neg (by omega)]
        · rw [moved.shifted other elem' among known, others other elem' among same known]

/-- The loop moves the slots down to the end of the parent. -/
theorem moveToParent_moved (holds : Holds xml pointers)
    (room : pointers.length + 2 ≤ xml.root.length) {parent place : Nat}
    (last : LastAt pointers parent place) (positive : 0 < place) (moved : Moved xml pointers (i + 1) now)
    (beyond : place ≤ i) (inside : i < pointers.length) :
    ∃ after, now.moveToParent parent i = some (after, place) ∧ Moved xml pointers place after := by
  induction i generalizing now with
  | zero => omega
  | succ i inductionHypothesis =>
    obtain ⟨after, turn, moved⟩ := moved.step holds room inside
    obtain ⟨pointer, here⟩ : ∃ pointer, pointers[i + 1]? = some pointer :=
      ⟨pointers[i + 1], List.getElem?_eq_getElem inside⟩
    have slot := moved.below (i + 1) pointer (by omega) here
    rw [Xml.moveToParent, bind_of_some turn, slot]
    obtain rfl | further := Nat.eq_or_lt_of_le beyond
    · obtain rfl := Option.some.inj (here.symm.trans last.get)
      rw [if_pos rfl]
      exact ⟨after, rfl, moved⟩
    · have different : ¬ some (some pointer) = some (some parent) := by
        rw [Option.some_inj, Option.some_inj]
        exact last.behind further here
      rw [if_neg different]
      exact inductionHypothesis moved (Nat.le_of_lt_succ further) (by omega)

/-- The loop moves the slots behind the end of the sibling. -/
theorem moveToSibling_moved (holds : Holds xml pointers)
    (room : pointers.length + 2 ≤ xml.root.length) {sibling place : Nat}
    (last : LastAt pointers sibling place) (positive : 0 < place) (moved : Moved xml pointers (i + 1) now)
    (beyond : place ≤ i) (inside : i < pointers.length) :
    ∃ after, now.moveToSibling sibling i = some (after, place) ∧
      Moved xml pointers (place + 1) after := by
  obtain ⟨elem, found, final⟩ := holds.ends sibling (List.mem_of_getElem? last.get)
  obtain rfl := last.unique final
  induction i generalizing now with
  | zero => omega
  | succ i inductionHypothesis =>
    have current := moved.shifted sibling elem (List.mem_of_getElem? last.get) found
    have still : (elem.shift (i + 1 + 1)).etagIndex = elem.etagIndex := by
      rw [Element.shift, if_neg (by omega)]
    rw [Xml.moveToSibling, bind_of_some current, still]
    obtain same | further := Nat.eq_or_lt_of_le beyond
    · rw [if_neg (by omega), same]
      exact ⟨now, rfl, moved⟩
    · obtain ⟨after, turn, moved⟩ := moved.step holds room inside
      rw [if_pos further, bind_of_some turn]
      exact inductionHypothesis moved (by omega) (by omega)

/-- Enlarging the array leaves what it holds, and there are two free slots. -/
theorem Holds.enlarge (holds : Holds xml pointers) :
    Holds xml.enlarge pointers ∧ pointers.length + 2 ≤ xml.enlarge.root.length ∧
      xml.enlarge.elements = xml.elements := by
  rw [Xml.enlarge]
  by_cases full : xml.numElements + 2 > xml.root.length
  · rw [if_pos full]
    have count := holds.count
    have room := holds.room
    have length : (xml.root.take xml.numElements ++
        List.replicate (xml.root.length + enlargeSize - xml.numElements) none).length =
        xml.root.length + enlargeSize := by
      rw [List.length_append, List.length_take, List.length_replicate]
      omega
    have more : 2 ≤ enlargeSize := by decide
    refine ⟨⟨count, ?_, ?_, holds.ends⟩, ?_, rfl⟩
    · dsimp only
      omega
    · intro i pointer here
      have inside := (List.getElem?_eq_some_iff.mp here).1
      dsimp only
      rw [List.getElem?_append_left (by rw [List.length_take]; omega),
        List.getElem?_take_of_lt (by omega)]
      exact holds.slots i pointer here
    · dsimp only
      omega
  · rw [if_neg full]
    have count := holds.count
    exact ⟨holds, by omega, rfl⟩

/-- An element has been added: its pointer stands twice at a place, and the other elements are
as they were, apart from their ends. -/
structure Grown (xml : Xml) (before after : List Nat) (elem : Element) (now : Xml) : Prop where
  holds : Holds now (before ++ [xml.elements.length, xml.elements.length] ++ after)
  elements : now.elements.length = xml.elements.length + 1
  fresh : now.plainAt xml.elements.length = some elem.plain
  kept : ∀ pointer, pointer < xml.elements.length → now.plainAt pointer = xml.plainAt pointer

/-- Behind moved slots a new element is put into the two slots that are free. -/
theorem place_grown (before after : List Nat) (holds : Holds xml (before ++ after))
    (room : (before ++ after).length + 2 ≤ xml.root.length)
    (moved : Moved xml (before ++ after) before.length now) (elem : Element) :
    ∃ final, now.place before.length elem = some (final, (before.length : Int)) ∧
      Grown xml before after elem final := by
  have inside : before.length + 1 < now.root.length := by
    rw [moved.length]
    rw [List.length_append] at room
    omega
  refine ⟨⟨(now.root.set before.length (some now.elements.length)).set (before.length + 1)
    (some now.elements.length), now.numElements + 2,
    now.elements ++ [{ elem with etagIndex := before.length + 1 }]⟩, ?_, ?_⟩
  · rw [Xml.place, bind_of_some (ensure_of inside)]
    rfl
  · rw [moved.elements]
    refine ⟨⟨?_, ?_, ?_, ?_⟩, ?_, ?_, ?_⟩
    · have count := holds.count
      have same := moved.count
      simp only [List.length_append, List.length_cons, List.length_nil] at count ⊢
      omega
    · have same := moved.length
      simp only [List.length_append, List.length_cons, List.length_nil, List.length_set] at room ⊢
      omega
    · intro i pointer here
      dsimp only
      obtain earlier | rfl | later := Nat.lt_trichotomy i before.length
      · rw [List.append_assoc, List.getElem?_append_left earlier] at here
        rw [List.getElem?_set_ne (by omega), List.getElem?_set_ne (by omega)]
        refine moved.below i pointer (by omega) ?_
        rw [List.getElem?_append_left earlier, here]
      · rw [List.append_assoc, List.getElem?_append_right (Nat.le_refl _), Nat.sub_self] at here
        rw [List.getElem?_set_ne (by omega), List.getElem?_set_self (by omega), ← here]
        rfl
      · obtain rfl | beyond := Nat.eq_or_lt_of_le (show before.length + 1 ≤ i from later)
        · rw [List.append_assoc, List.getElem?_append_right (Nat.le_add_right _ 1),
            Nat.add_sub_cancel_left] at here
          rw [List.getElem?_set_self (by rwa [List.length_set]), ← here]
          rfl
        · obtain ⟨j, rfl⟩ : ∃ j, i = before.length + (j + 2) := ⟨i - before.length - 2, by omega⟩
          rw [List.append_assoc, List.getElem?_append_right (Nat.le_add_right _ _),
            Nat.add_sub_cancel_left] at here
          rw [List.getElem?_set_ne (by omega), List.getElem?_set_ne (by omega), ← Nat.add_assoc]
          refine moved.above _ pointer (Nat.le_add_right _ _) ?_
          rw [List.getElem?_append_right (Nat.le_add_right _ _), Nat.add_sub_cancel_left]
          exact here
    · intro pointer member
      by_cases new : pointer = xml.elements.length
      · subst new
        refine ⟨{ elem with etagIndex := before.length + 1 }, ?_, ?_⟩
        · dsimp only
          rw [← moved.elements, List.getElem?_append_right (Nat.le_refl _), Nat.sub_self]
          rfl
        · refine ⟨before ++ [xml.elements.length], after, by simp, ?_, List.length_append⟩
          exact fun behind => holds.fresh (List.mem_append_right before behind)
      · have old : pointer ∈ before ++ after := by
          simp only [List.mem_append, List.mem_cons, List.not_mem_nil, or_false, new] at member
          exact List.mem_append.mpr member
        obtain ⟨elem', found, last⟩ := holds.ends pointer old
        refine ⟨elem'.shift before.length, ?_, ?_⟩
        · have current := moved.shifted pointer elem' old found
          dsimp only
          rw [List.getElem?_append_left (List.getElem?_eq_some_iff.mp current).1]
          exact current
        · have notNew : pointer ∉ [xml.elements.length, xml.elements.length] := by
            simp only [List.mem_cons, List.not_mem_nil, or_false, or_self]
            exact new
          have inserted := last.insert notNew
          rw [Element.shift]
          split
          · rename_i beyond
            rw [if_pos beyond] at inserted
            exact inserted
          · rename_i within
            rw [if_neg within] at inserted
            exact inserted
    · rw [List.length_append, List.length_singleton, moved.elements]
    · rw [Xml.plainAt]
      dsimp only
      rw [← moved.elements, List.getElem?_append_right (Nat.le_refl _), Nat.sub_self]
      rfl
    · intro pointer old
      rw [← moved.kept, Xml.plainAt, Xml.plainAt]
      dsimp only
      rw [List.getElem?_append_left (by rw [moved.elements]; exact old)]

/-- The slot of an index in use leads to its pointer. -/
theorem Holds.pointerAt (holds : Holds xml pointers) {index : Nat} {pointer : Nat}
    (used : pointers[index]? = some pointer) : xml.pointerAt index = some (some pointer) := by
  rw [Xml.pointerAt, if_neg (by omega), Int.toNat_natCast]
  exact holds.slots index pointer used

/-- Only the elements matter for what has been added. -/
theorem Grown.of_enlarge {before after : List Nat} {elem : Element}
    (grown : Grown xml.enlarge before after elem now) (same : xml.enlarge.elements = xml.elements) :
    Grown xml before after elem now := by
  obtain ⟨holds, elements, fresh, kept⟩ := grown
  rw [same] at holds elements fresh kept
  refine ⟨holds, elements, fresh, ?_⟩
  intro pointer old
  rw [kept pointer old, Xml.plainAt, Xml.plainAt, same]

/-- Without a parent an element is added to an empty array, and to no other one. -/
theorem addElement_top (holds : Holds xml pointers) {pi si : Int} (top : pi < 0) (elem : Element)
    {slot : Option Nat} (sibling : xml.enlarge.pointerAt si = some slot) :
    ∃ final index, xml.addElement pi si elem = some (final, index) ∧
      (pointers ≠ [] ∧ index = -1 ∨ pointers = [] ∧ index = 0 ∧ Grown xml [] [] elem final) := by
  obtain ⟨larger, room, elements⟩ := holds.enlarge
  have parent : xml.enlarge.pointerAt pi = some none := by rw [Xml.pointerAt, if_pos top]
  rw [Xml.addElement]
  dsimp only
  rw [bind_of_some parent, bind_of_some sibling]
  dsimp only
  by_cases empty : xml.enlarge.numElements = 0
  · obtain rfl := List.length_eq_zero_iff.mp (larger.count.symm.trans empty)
    obtain ⟨final, placed, grown⟩ := place_grown [] [] larger room larger.moved elem
    rw [if_neg (not_not.mpr empty)]
    exact ⟨final, 0, placed, Or.inr ⟨rfl, rfl, grown.of_enlarge elements⟩⟩
  · rw [if_pos empty]
    refine ⟨xml.enlarge, -1, rfl, Or.inl ⟨?_, rfl⟩⟩
    rintro rfl
    exact empty larger.count

/-- An element is added in front of the end of its parent. -/
theorem addElement_child {before after : List Nat} (holds : Holds xml (before ++ after))
    {pi parent : Nat} {si : Int} (used : (before ++ after)[pi]? = some parent) (alone : si < 0)
    (last : LastAt (before ++ after) parent before.length) (positive : 0 < before.length)
    (elem : Element) :
    ∃ final, xml.addElement pi si elem = some (final, (before.length : Int)) ∧
      Grown xml before after elem final := by
  obtain ⟨larger, room, elements⟩ := holds.enlarge
  have sibling : xml.enlarge.pointerAt si = some none := by rw [Xml.pointerAt, if_pos alone]
  have inside := last.lt
  have start : xml.enlarge.numElements - 1 + 1 = (before ++ after).length := by
    rw [larger.count]
    omega
  have untouched := larger.moved
  rw [← start] at untouched
  obtain ⟨moved, loop, through⟩ := moveToParent_moved larger room last positive untouched
    (by omega) (by omega)
  obtain ⟨final, placed, grown⟩ := place_grown before after larger room through elem
  refine ⟨final, ?_, grown.of_enlarge elements⟩
  rw [Xml.addElement]
  dsimp only
  rw [bind_of_some (larger.pointerAt used), bind_of_some sibling]
  dsimp only
  rw [bind_of_some loop]
  dsimp only
  rw [if_neg (Nat.ne_of_gt positive)]
  exact placed

/-- An element is added behind the end of its sibling. -/
theorem addElement_beside {before after : List Nat} (holds : Holds xml (before ++ after))
    {pi si parent sibling place : Nat} (used : (before ++ after)[pi]? = some parent)
    (usedToo : (before ++ after)[si]? = some sibling)
    (last : LastAt (before ++ after) sibling place) (behind : before.length = place + 1)
    (positive : 0 < place) (elem : Element) :
    ∃ final, xml.addElement pi si elem = some (final, (before.length : Int)) ∧
      Grown xml before after elem final := by
  obtain ⟨larger, room, elements⟩ := holds.enlarge
  have inside := last.lt
  have start : xml.enlarge.numElements - 1 + 1 = (before ++ after).length := by
    rw [larger.count]
    omega
  have untouched := larger.moved
  rw [← start] at untouched
  obtain ⟨moved, loop, through⟩ := moveToSibling_moved larger room last positive untouched
    (by omega) (by omega)
  rw [← behind] at through
  obtain ⟨final, placed, grown⟩ := place_grown before after larger room through elem
  refine ⟨final, ?_, grown.of_enlarge elements⟩
  rw [Xml.addElement]
  dsimp only
  rw [bind_of_some (larger.pointerAt used), bind_of_some (larger.pointerAt usedToo)]
  dsimp only
  rw [bind_of_some loop]
  dsimp only
  rw [if_neg (Nat.ne_of_gt positive), ← behind]
  exact placed

end Ezcfg.XmlTree

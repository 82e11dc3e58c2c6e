import Ezcfg.XmlTree.Lengths
import Ezcfg.XmlTree.Search
import Ezcfg.XmlTree.Writing

/-!
# What is written for a tree

An array that holds a tree shows the forest of its elements in its slots: each element stands
where it starts and where it ends. What is printed for the slots is the text of the forest, by
induction on the forest, and arrays that show the same forest have the same elements in their
slots, wherever these are stored.
-/

namespace Ezcfg.XmlTree

open Foundation Forest

/-- The slots from a place on show the elements of a forest. -/
def Shown (xml : Xml) : Nat → Forest Element → Prop :=
  LaidOut fun i elem final => xml.elementAt i = some (ended (elem, final))

/-- The pointers of a forest lead to the elements of another one. -/
inductive Stores (xml : Xml) : Forest Nat → Forest Element → Prop where
  | nil : Stores xml nil nil
  | cons {pointer : Nat} {elem : Element} {children rest : Forest Nat}
    {inner beside : Forest Element} (known : xml.plainAt pointer = some elem)
    (inside : Stores xml children inner) (later : Stores xml rest beside) :
    Stores xml (cons pointer children rest) (cons elem inner beside)

/-- Arrays have as many slots in use, and the same elements in them. -/
def SameSlots (xml other : Xml) : Prop :=
  xml.numElements = other.numElements ∧
    ∀ i, i < xml.numElements → xml.elementAt i = other.elementAt i

variable {xml other : Xml} {place : Nat} {pointers : Forest Nat} {elems : Forest Element}

/-- The elements have the shape of their pointers. -/
theorem Stores.labels_length (stores : Stores xml pointers elems) :
    pointers.labels.length = elems.labels.length := by
  induction stores with
  | nil => rfl
  | cons known inside later inChildren inRest =>
    rw [labels_cons_length, labels_cons_length, inChildren, inRest]

/-- Pointers that lead to elements lead to a forest of them. -/
theorem exists_stores (known : ∀ pointer ∈ pointers.nodes, ∃ elem, xml.plainAt pointer = some elem) :
    ∃ elems, Stores xml pointers elems := by
  induction pointers with
  | nil => exact ⟨nil, .nil⟩
  | cons pointer children rest inChildren inRest =>
    rw [nodes, List.forall_mem_cons, List.forall_mem_append] at known
    obtain ⟨⟨elem, here⟩, within, beside⟩ := known
    obtain ⟨inner, inside⟩ := inChildren within
    obtain ⟨others, later⟩ := inRest beside
    exact ⟨cons elem inner others, .cons here inside later⟩

/-- The elements that pointers lead to are the ones that other pointers lead to. -/
theorem Stores.mem (stores : Stores xml pointers elems) {elem : Element}
    (member : elem ∈ elems.nodes) : ∃ pointer ∈ pointers.nodes, xml.plainAt pointer = some elem := by
  induction stores with
  | nil => cases member
  | @cons pointer first children rest inner beside known inside later inChildren inRest =>
    rw [nodes, List.mem_cons, List.mem_append] at member
    obtain rfl | within | behind := member
    · exact ⟨pointer, List.mem_cons_self, known⟩
    · obtain ⟨found, among, here⟩ := inChildren within
      exact ⟨found, List.mem_cons_of_mem _ (List.mem_append_left _ among), here⟩
    · obtain ⟨found, among, here⟩ := inRest behind
      exact ⟨found, List.mem_cons_of_mem _ (List.mem_append_right _ among), here⟩

/-- The elements show in the slots of their pointers. -/
theorem Stores.shown (stores : Stores xml pointers elems)
    (laid : LaidOut (SlotEnds xml) place pointers) : Shown xml place elems := by
  induction stores generalizing place with
  | nil => trivial
  | @cons pointer elem children rest inner beside known inside later inChildren inRest =>
    obtain ⟨starts, within, ends, behind⟩ := laid
    rw [inside.labels_length] at starts ends behind
    -- a slot with this pointer shows the element
    have slot : ∀ {i final : Nat}, SlotEnds xml i pointer final →
        xml.elementAt i = some (ended (elem, final)) := by
      intro i final slot
      obtain ⟨here, inSlot, stored, rfl⟩ := slot.elementAt
      rw [Xml.plainAt, stored] at known
      obtain rfl := Option.some.inj known
      exact inSlot
    exact ⟨slot starts, inChildren within, slot ends, inRest behind⟩

/-- An array that holds pointers shows their elements. -/
theorem Holds.shown (holds : Holds xml pointers.labels) (different : pointers.nodes.Nodup)
    (stores : Stores xml pointers elems) : Shown xml 0 elems :=
  stores.shown (laidOut_of_holds holds different)

/-- Slots that show the same forest have the same elements. -/
theorem Shown.same (shown : Shown xml place elems) (shownToo : Shown other place elems) {i : Nat}
    (low : place ≤ i) (high : i < place + elems.labels.length) :
    xml.elementAt i = other.elementAt i := by
  induction elems generalizing place with
  | nil =>
    rw [labels, List.length_nil] at high
    omega
  | cons elem inner beside inChildren inRest =>
    obtain ⟨starts, within, ends, behind⟩ := shown
    obtain ⟨startsToo, withinToo, endsToo, behindToo⟩ := shownToo
    rw [labels_cons_length] at high
    by_cases first : i = place
    · rw [first, starts, startsToo]
    by_cases inside : i < place + 1 + inner.labels.length
    · exact inChildren within withinToo (by omega) inside
    by_cases final : i = place + 1 + inner.labels.length
    · rw [final, ends, endsToo]
    · exact inRest behind behindToo (by omega) (by omega)

/-- The last slot of a forest shows an element that ends there. -/
theorem Shown.last (shown : Shown xml place elems) (nonempty : elems.isNil = false) :
    ∃ elem, xml.elementAt (place + elems.labels.length - 1) =
      some (ended (elem, place + elems.labels.length - 1)) := by
  induction elems generalizing place with
  | nil => cases nonempty
  | cons elem inner beside inChildren inRest =>
    obtain ⟨-, -, ends, behind⟩ := shown
    rw [labels_cons_length]
    cases beside with
    | nil =>
      have final : place + (2 + inner.labels.length + (nil : Forest Element).labels.length) - 1 =
          place + 1 + inner.labels.length := by
        rw [labels, List.length_nil]
        omega
      rw [final]
      exact ⟨elem, ends⟩
    | cons next deeper others =>
      obtain ⟨last, here⟩ := inRest behind rfl
      have final : place + (2 + inner.labels.length + (cons next deeper others).labels.length) - 1 =
          place + 1 + inner.labels.length + 1 + (cons next deeper others).labels.length - 1 := by
        omega
      rw [final]
      exact ⟨last, here⟩

/-- The texts for the attributes are printed behind each other. -/
theorem attributePieces_flatten (attributes : List Attribute) :
    (attributes.flatMap attributePieces).flatten = attributes.flatMap attributeText := by
  induction attributes with
  | nil => rfl
  | cons a rest inductionHypothesis =>
    rw [List.flatMap_cons, List.flatten_append, inductionHypothesis, List.flatMap_cons]
    simp [attributePieces, attributeText]

/-- What is printed for the two slots of an element without children and content. -/
theorem pieces_empty {elem : Element} (named : elem.name ≠ []) (empty : elem.content = none)
    (starts : xml.elementAt place = some (ended (elem, place + 1)))
    (ends : xml.elementAt (place + 1) = some (ended (elem, place + 1))) :
    ∃ pieces, slotsPieces xml 2 place = some pieces ∧ pieces.flatten = emptyText elem := by
  have start := slotsPieces_one (slotPieces_start named starts (Nat.lt_succ_self place))
  have finish := slotsPieces_one (slotPieces_newLine empty starts ends)
  have single : startPieces (ended (elem, place + 1)) place = [[slash, greater]] := by
    rw [startPieces, if_pos ⟨empty, rfl⟩]
  refine ⟨_, slotsPieces_add start finish, ?_⟩
  rw [single, emptyText, tagText, ← attributePieces_flatten]
  simp

/-- What is printed for the slots of an element with an end tag. -/
theorem pieces_tagged {elem : Element} {count : Nat} {inside : List Text} (named : elem.name ≠ [])
    (starts : xml.elementAt place = some (ended (elem, place + 1 + count)))
    (ends : xml.elementAt (place + 1 + count) = some (ended (elem, place + 1 + count)))
    (printed : slotsPieces xml count (place + 1) = some inside)
    (filled : elem.content = none → count ≠ 0 ∧ ∃ previous,
      xml.elementAt (place + count) = some previous ∧ previous.etagIndex ≠ place + 1 + count) :
    ∃ pieces, slotsPieces xml (1 + count + 1) place = some pieces ∧
      pieces.flatten = elementText elem inside.flatten := by
  have start := slotsPieces_one (slotPieces_start named starts (by omega))
  have tagged : elem.content = none → 0 < place + 1 + count ∧ ∃ previous,
      xml.elementAt (place + 1 + count - 1) = some previous ∧
        previous.etagIndex ≠ place + 1 + count := by
    intro empty
    obtain ⟨-, previous, before, other⟩ := filled empty
    have index : place + 1 + count - 1 = place + count := by omega
    rw [index]
    exact ⟨by omega, previous, before, other⟩
  have finish := slotsPieces_one (slotPieces_end ends tagged)
  have open' : startPieces (ended (elem, place + 1 + count)) place =
      [greater] :: elem.content.toList := by
    rw [startPieces, if_neg]
    · rfl
    · rintro ⟨empty, last⟩
      have positive := (filled empty).1
      rw [ended] at last
      dsimp only at last
      omega
  have content : elem.content.toList.flatten = elem.content.getD [] := by
    cases elem.content with
    | none => rfl
    | some text => exact List.append_nil text
  rw [Nat.add_assoc] at finish
  refine ⟨_, slotsPieces_add (slotsPieces_add start printed) finish, ?_⟩
  rw [open', elementText, tagText, ← attributePieces_flatten, ← content]
  simp

/-- What is printed for the slots of a forest is its text. -/
theorem Shown.pieces (shown : Shown xml place elems) (named : ∀ elem ∈ elems.nodes, elem.name ≠ []) :
    ∃ pieces, slotsPieces xml elems.labels.length place = some pieces ∧
      pieces.flatten = forestText elems := by
  induction elems generalizing place with
  | nil => exact ⟨[], rfl, rfl⟩
  | cons elem inner beside inChildren inRest =>
    obtain ⟨starts, within, ends, behind⟩ := shown
    rw [nodes, List.forall_mem_cons, List.forall_mem_append] at named
    obtain ⟨hasName, namedInside, namedBeside⟩ := named
    obtain ⟨inside, printed, insideText⟩ := inChildren within namedInside
    obtain ⟨later, printedToo, laterText⟩ := inRest behind namedBeside
    have turns : (cons elem inner beside).labels.length =
        1 + inner.labels.length + 1 + beside.labels.length := by
      rw [labels_cons_length]
      omega
    have index : place + 1 + inner.labels.length + 1 =
        place + (1 + inner.labels.length + 1) := by
      omega
    rw [index] at printedToo
    obtain ⟨here, first, text⟩ : ∃ here,
        slotsPieces xml (1 + inner.labels.length + 1) place = some here ∧
          here.flatten = if elem.content = none ∧ inner.isNil then emptyText elem
            else elementText elem (forestText inner) := by
      split_ifs with empty
      · obtain ⟨noContent, noChildren⟩ := empty
        cases inner with
        | cons => cases noChildren
        | nil => exact pieces_empty hasName noContent starts ends
      · rw [← insideText]
        apply pieces_tagged hasName starts ends printed
        -- the slot in front of the end is that of the last child
        intro noContent
        have nonempty : inner.isNil = false := by
          rw [← Bool.not_eq_true]
          exact fun noChildren => empty ⟨noContent, noChildren⟩
        obtain ⟨last, here⟩ := Shown.last within nonempty
        have index : place + 1 + inner.labels.length - 1 = place + inner.labels.length := by omega
        rw [index] at here
        refine ⟨?_, _, here, ?_⟩
        · cases inner with
          | nil => cases nonempty
          | cons => exact Nat.succ_ne_zero _
        · rw [ended]
          dsimp only
          omega
    refine ⟨here ++ later, ?_, ?_⟩
    · rw [turns]
      exact slotsPieces_add first printedToo
    · rw [List.flatten_append, text, laterText, forestText]

/-- Where the slots are printed, so is each of them, and their texts are joined. -/
theorem printed_of_pieces {turns i : Nat} {pieces : List Text}
    (printed : slotsPieces xml turns i = some pieces) :
    textFrom xml turns i = pieces.flatten ∧
      ∀ j, i ≤ j → j < i + turns → ∃ pieces, slotPieces xml j = some pieces := by
  induction turns generalizing i pieces with
  | zero =>
    cases printed
    refine ⟨rfl, ?_⟩
    intro j low high
    omega
  | succ turns inductionHypothesis =>
    rw [slotsPieces] at printed
    obtain ⟨here, slot, printed⟩ := Option.bind_eq_some_iff.mp printed
    obtain ⟨others, rest, same⟩ := Option.bind_eq_some_iff.mp printed
    cases same
    obtain ⟨text, all⟩ := inductionHypothesis rest
    constructor
    · rw [textFrom, slot, text, List.flatten_append]
      rfl
    · intro j low high
      obtain rfl | later := Nat.eq_or_lt_of_le low
      · exact ⟨here, slot⟩
      · exact all j later (by omega)

/-- The text of an array that shows a forest is that of the forest, and it is written into every
buffer that is longer. -/
theorem Shown.written (shown : Shown xml 0 elems) (count : xml.numElements = elems.labels.length)
    (named : ∀ elem ∈ elems.nodes, elem.name ≠ []) (short : (forestText elems).length < 2 ^ 31)
    (area : List UInt8) (len : Int) (room : (forestText elems).length < len)
    (inside : len ≤ area.length) :
    ∃ after, writeMessage xml area len = some (((forestText elems).length : Int), after) ∧
      forestText elems ++ [0] <+: after := by
  obtain ⟨pieces, printed, text⟩ := shown.pieces named
  obtain ⟨joined, slots⟩ := printed_of_pieces printed
  rw [← count] at joined slots
  rw [text] at joined
  have nonempty : area ≠ [] := by
    rintro rfl
    rw [List.length_nil] at inside
    omega
  obtain ⟨byte, tail, rfl⟩ := List.exists_cons_of_ne_nil nonempty
  have cleared : ByteArea.write (byte :: tail) 0 [0] = some (0 :: tail) :=
    ByteArea.write_between [] [byte] [0] tail rfl
  have size : (textFrom xml xml.numElements 0).length = (forestText elems).length := by rw [joined]
  obtain ⟨after, written, whole⟩ := @writeLoop_prints xml (0 :: tail) [] len xml.numElements 0
    slots ⟨tail, rfl⟩ (by omega) (by simpa using inside) (by omega)
  rw [List.nil_append, joined] at written whole
  refine ⟨after, ?_, whole⟩
  have positive : 0 < len := by omega
  have longer : ¬ ((forestText elems).length : Int) = len := by omega
  rw [List.length_nil] at written
  rw [writeMessage, bind_of_some (ensure_of positive), bind_of_some cleared, bind_of_some written]
  exact if_neg longer

end Ezcfg.XmlTree

import Ezcfg.XmlTree.Inserting
import Ezcfg.XmlTree.PrintedTags

/-!
# Reading the text of a forest

The parser reads what is printed for a forest up to the end tag that is behind it, and puts the
elements into the array one after the other. An element is read as its start tag, its content, the
elements inside it and its end tag; the new line behind a tag is skipped. The induction is over
the forest, and the turns that are needed are bounded by the length of the text.
-/

namespace Ezcfg.XmlTree

open Foundation Forest

/-- The pointer in front of a text that is left of the document, the terminator, and what stands in
the memory behind. -/
def cursorAt (memory text : List UInt8) : Cursor := ⟨text ++ 0 :: memory, text.length⟩

/-- A text does not start with white space. -/
def Solid (text : List UInt8) : Prop := ∀ c ∈ text.head?, isWhiteSpace c = false

/-- The text of an end tag. -/
def endTagText (name : Text) : Text := less :: slash :: name ++ [greater, newLine]

/-- The text of an element with what is inside. -/
def nodeText (elem : Element) (inner : Forest Element) : Text :=
  if elem.content = none ∧ inner.isNil then emptyText elem else elementText elem (forestText inner)

/-- The content of an element is read as the text of a forest up to an end tag, and its elements
are put into the array. -/
def ReadsInside (memory : List UInt8) (elems : Forest Element) : Prop :=
  ∀ (turns loops : Nat) (state : State) (rest : Text) (before after : List Nat) (pi : Nat) (si : Int),
    (forestText elems).length < turns → (forestText elems).length < loops →
    ClosesTag rest → (forestText elems ++ rest).length < 2 ^ 31 →
    state.cur = cursorAt memory (forestText elems ++ rest) → Holds state.xml (before ++ after) →
    IsOpen before after pi → Follows before after si →
    ∃ now pointers, (contentLoop (parseXmlDocumentElement turns) loops state pi si).result =
        some ((pi : Int), ⟨now, cursorAt memory rest⟩) ∧
      Inserted state.xml now before after elems pointers

variable {memory : List UInt8} {elem : Element} {inner elems : Forest Element} {state : State}
  {rest : Text} {turns : Nat} {before after : List Nat} {pi si : Int}

/-- The cursor is moved to a text that is left. -/
theorem cursorAt_passed {front text : List UInt8} (short : (front ++ text).length < 2 ^ 31) :
    (cursorAt memory (front ++ text)).passed (text ++ 0 :: memory) = cursorAt memory text := by
  have left : ((front ++ text).length : Int) -
      (((front ++ text ++ 0 :: memory).length : Int) - (text ++ 0 :: memory).length) =
        text.length := by
    simp only [List.length_append]
    omega
  rw [List.length_append] at short
  rw [Cursor.passed, cursorAt, cursorAt]
  dsimp only
  rw [left, toInt32_of_range (by omega) (by omega)]

/-- Behind the document is no white space. -/
theorem Solid.behind {text : List UInt8} (solid : Solid text) : Solid (text ++ 0 :: memory) := by
  cases text with
  | nil =>
    rintro c ⟨⟩
    decide
  | cons c text => exact solid

/-- A text that starts with markup does not start with white space. -/
theorem solid_less {text : List UInt8} : Solid (less :: text) := by
  rintro c ⟨⟩
  decide

/-- The text of a forest is that of its first node and of those beside. -/
theorem forestText_cons (elem : Element) (inner beside : Forest Element) :
    forestText (cons elem inner beside) = nodeText elem inner ++ forestText beside := rfl

/-- The text of a node starts with its tag. -/
theorem nodeText_cut (elem : Element) (inner : Forest Element) : ∃ lead more,
    nodeText elem inner = tagText elem ++ (lead ++ greater :: more) ∧
      (lead = [] ∨ lead = [slash]) := by
  rw [nodeText]
  split_ifs
  · exact ⟨[slash], [newLine], rfl, .inr rfl⟩
  · refine ⟨[], elem.content.getD [] ++ (forestText inner ++
      endTagText (fullName elem.namePrefix elem.name)), ?_, .inl rfl⟩
    rw [elementText, endTagText]
    simp

/-- The text of a node starts with a tag that is seen. -/
theorem Readable.node_opens (readable : Readable elem) (inner : Forest Element)
    (more : List UInt8) : OpensTag (nodeText elem inner ++ more) := by
  obtain ⟨lead, later, cut, isLead⟩ := nodeText_cut elem inner
  rw [cut, List.append_assoc, List.append_assoc, List.cons_append]
  exact readable.opensTag isLead

/-- The text of a printed node starts with "<". -/
theorem nodeText_head (elem : Element) (inner : Forest Element) :
    ∃ more, nodeText elem inner = less :: more := by
  obtain ⟨lead, later, cut, -⟩ := nodeText_cut elem inner
  exact ⟨_, cut⟩

/-- An end tag closes. -/
theorem endTag_closes {name : Text} (isName : IsName name) (nonul : (0 : UInt8) ∉ name)
    (more : List UInt8) : ClosesTag (endTagText name ++ more) := by
  have absent := isName.notMem
  obtain ⟨c, others, rfl, starts, -⟩ := isName
  rw [List.mem_cons, not_or] at absent nonul
  refine ⟨c, others, newLine :: more, ?_, starts, absent.2, nonul.2⟩
  rw [endTagText]
  simp

/-- Behind an end tag there may be more. -/
theorem ClosesTag.append {p : List UInt8} (closes : ClosesTag p) (more : List UInt8) :
    ClosesTag (p ++ more) := by
  obtain ⟨c, others, later, rfl, starts, absent, nonul⟩ := closes
  exact ⟨c, others, later ++ more, by simp, starts, absent, nonul⟩

/-- In front of a forest and an end tag there is markup. -/
theorem forest_markup (readable : ∀ elem ∈ elems.nodes, Readable elem) (closes : ClosesTag rest) :
    isXmlMarkup (forestText elems ++ rest) = some true ∧ Solid (forestText elems ++ rest) := by
  cases elems with
  | nil =>
    have markup := closes.endTag.2.1
    obtain ⟨c, others, later, rfl, -⟩ := closes
    exact ⟨markup, solid_less⟩
  | cons elem inner beside =>
    have opens := (readable elem List.mem_cons_self).node_opens inner (forestText beside ++ rest)
    obtain ⟨later, cut⟩ := nodeText_head elem inner
    rw [forestText_cons, List.append_assoc]
    refine ⟨opens.markup.1, ?_⟩
    rw [cut]
    exact solid_less

/-- A tag and what ends it are read, and the element is put into the array without its content. -/
theorem tag_read (skips : Bool) (readable : Readable elem) {lead : List UInt8}
    (isLead : lead = [] ∨ lead = [slash]) {gap : List UInt8} (isGap : gap = [] ∨ gap = [newLine])
    (enough : (tagText elem).length < turns) {index : Int} {now : Xml}
    (here : state.cur = cursorAt memory (tagText elem ++ (lead ++ greater :: (gap ++ rest))))
    (short : (tagText elem ++ (lead ++ greater :: (gap ++ rest))).length < 2 ^ 31)
    (solid : Solid rest)
    (added : state.xml.addElement pi si { elem with content := none } = some (now, index)) :
    parseTag (attributeLoop skips turns) (lead ++ [greater]) state pi si =
      some (index, ⟨now, cursorAt memory rest⟩) := by
  have text : state.cur.p =
      tagText elem ++ (lead ++ greater :: (gap ++ (rest ++ 0 :: memory))) := by
    rw [here, cursorAt]
    simp
  have skipped : skipWhiteSpace (gap ++ (rest ++ 0 :: memory)) = some (rest ++ 0 :: memory) := by
    obtain rfl | rfl := isGap
    · exact skipWhiteSpace_stay solid.behind (by simp)
    · exact skipWhiteSpace_newLine solid.behind (by simp)
  have few : elem.attributes.length < turns := by
    have size : ∀ attributes : List Attribute,
        attributes.length ≤ (attributes.flatMap attributeText).length := by
      intro attributes
      induction attributes with
      | nil => exact Nat.le_refl _
      | cons a others inductionHypothesis =>
        rw [List.flatMap_cons, List.length_append, attributeText]
        simp only [List.length_append, List.length_cons]
        omega
    have bound := size elem.attributes
    rw [tagText, List.length_append] at enough
    omega
  have passed : state.cur.passed (rest ++ 0 :: memory) = cursorAt memory rest := by
    have regroup : tagText elem ++ (lead ++ greater :: (gap ++ rest)) =
        (tagText elem ++ (lead ++ greater :: gap)) ++ rest := by simp
    rw [regroup] at here short
    rw [here]
    exact cursorAt_passed short
  rw [parseTag_printed skips readable isLead few text skipped added, passed]

/-- The content of an element is read, and put into it. -/
theorem content_read (readable : Readable elem) {xml : Xml}
    (grown : Grown xml before after { elem with content := none } state.xml)
    (here : state.cur = cursorAt memory (elem.content.getD [] ++ rest))
    (short : (elem.content.getD [] ++ rest).length < 2 ^ 31)
    (markup : isXmlMarkup (rest ++ 0 :: memory) = some true) (solid : Solid rest) :
    ∃ now, (charDataOr state before.length).result =
        some (true, ⟨now, cursorAt memory rest⟩) ∧ Grown xml before after elem now := by
  cases filling : elem.content with
  | none =>
    rw [filling, Option.getD_none, List.nil_append] at here
    have same : { elem with content := none } = elem := by rw [← filling]
    rw [same] at grown
    refine ⟨state.xml, ?_, grown⟩
    have seen : isXmlMarkup state.cur.p = some true := by
      rw [here]
      exact markup
    rw [charDataOr, Logged.lift_bind _ seen, ← here]
    rfl
  | some content =>
    rw [filling, Option.getD_some] at here short
    obtain ⟨⟨c, others, cut, -⟩, notLess, notAmpersand, -⟩ :=
      readable.legible.content content filling
    have nonul := readable.proper.content content filling
    have unseen : isXmlMarkup state.cur.p = some false := by
      rw [here, cursorAt, cut]
      rw [cut, List.mem_cons, not_or] at notLess notAmpersand
      exact notMarkup (Ne.symm notLess.1) (Ne.symm notAmpersand.1)
    have slot : state.xml.root[before.length]? = some (some xml.elements.length) := by
      apply grown.holds.slots
      rw [List.append_assoc, List.getElem?_append_right (Nat.le_refl _), Nat.sub_self]
      rfl
    have scanned : scanMarkup state.cur.p = some (rest ++ 0 :: memory) := by
      rw [here, cursorAt, List.append_assoc]
      exact scanMarkup_content notLess notAmpersand markup (by simp)
    have read : (between state.cur.p (rest ++ 0 :: memory)).takeWhile (· ≠ 0) = content := by
      rw [here, cursorAt, List.append_assoc, between, List.length_append, Nat.add_sub_cancel,
        List.take_left, List.takeWhile_eq_self_iff]
      intro byte member
      rw [decide_eq_true_eq]
      rintro rfl
      exact nonul member
    have skipped := skipWhiteSpace_stay (@Solid.behind memory _ solid) (by simp)
    have same : { elem with content := some content } = elem := by rw [← filling]
    have filled := grown.withContent content
    rw [same] at filled
    refine ⟨_, ?_, filled⟩
    have parsed : parseXmlCharData state before.length = some (true,
        ⟨state.xml.modify xml.elements.length fun here => { here with content := some content },
          cursorAt memory rest⟩) := by
      rw [parseXmlCharData, bind_of_some slot]
      dsimp only
      rw [bind_of_some scanned, read, bind_of_some skipped, here, cursorAt_passed short]
      rfl
    rw [charDataOr, Logged.lift_bind _ unseen]
    exact parsed

/-- A call adds the element at the place. -/
def Adds (xml : Xml) (before after : List Nat) (pi si : Int) : Prop :=
  ∀ elem, ∃ now, xml.addElement pi si elem = some (now, (before.length : Int)) ∧
    Grown xml before after elem now

/-- An element is what is left of it without its end. -/
theorem Readable.plain_eq (readable : Readable elem) : elem.plain = elem := by
  rw [Element.plain, ← readable.plain]

/-- An empty element is read. -/
theorem node_read_empty (readable : Readable elem) (empty : elem.content = none)
    (enough : (emptyText elem).length ≤ turns)
    (here : state.cur = cursorAt memory (emptyText elem ++ rest))
    (short : (emptyText elem ++ rest).length < 2 ^ 31) (solid : Solid rest)
    (holds : Holds state.xml (before ++ after)) (adds : Adds state.xml before after pi si) :
    ∃ now, parseElementEmptyElemTag turns state pi si =
        some ((before.length : Int), ⟨now, cursorAt memory rest⟩) ∧
      Inserted state.xml now before after (cons elem nil nil)
        (cons state.xml.elements.length nil nil) := by
  obtain ⟨now, added, grown⟩ := adds elem
  have same : { elem with content := none } = elem := by rw [← empty]
  have regroup : emptyText elem ++ rest =
      tagText elem ++ ([slash] ++ greater :: ([newLine] ++ rest)) := by
    rw [emptyText]
    simp
  rw [regroup] at here short
  have few : (tagText elem).length < turns := by
    rw [emptyText, List.length_append] at enough
    simp only [List.length_cons] at enough
    omega
  rw [← same] at added
  refine ⟨now, tag_read true readable (.inr rfl) (.inr rfl) few here short solid added, ?_⟩
  have inserted := grown.inserted (inserted_nil (grown.isOpen holds.fresh).1)
  rw [readable.plain_eq] at inserted
  exact inserted

/-- The element that has been put into the array with what is inside is found where it starts. -/
theorem Inserted.slot {xml now : Xml} {pointers : Forest Nat} {root : Nat}
    (inserted : Inserted xml now before after (cons elem inner nil) (cons root pointers nil)) :
    before.length < now.numElements ∧ ∃ here, now.elementAt before.length = some here ∧
      here.plain = elem := by
  constructor
  · rw [inserted.holds.count, List.length_append, List.length_append, labels_cons_length]
    omega
  · cases inserted.stores with
    | cons known inside later =>
      obtain ⟨here, stored, plain⟩ := Option.map_eq_some_iff.mp known
      have slot : now.root[before.length]? = some (some root) := by
        apply inserted.holds.slots
        rw [List.getElem?_append_right (Nat.le_refl _), Nat.sub_self]
        rfl
      refine ⟨here, ?_, plain⟩
      rw [Xml.elementAt, bind_of_some slot]
      exact stored

/-- What is inside an element is read up to its end tag, when the forest inside is. -/
theorem inside_read (readable : Readable elem) (readableInside : ∀ elem ∈ inner.nodes, Readable elem)
    (reads : ReadsInside memory inner) {xml : Xml} (holds : Holds xml (before ++ after))
    (grown : Grown xml before after { elem with content := none } state.xml)
    (closes : ClosesTag rest) (enough : (forestText inner).length < turns)
    (here : state.cur = cursorAt memory (elem.content.getD [] ++ (forestText inner ++ rest)))
    (short : (elem.content.getD [] ++ (forestText inner ++ rest)).length < 2 ^ 31) :
    ∃ now pointers, (parseElementContent (parseXmlDocumentElement turns) turns state before.length
          (-1)).result = some ((before.length : Int), ⟨now, cursorAt memory rest⟩) ∧
      Inserted xml now before after (cons elem inner nil)
        (cons xml.elements.length pointers nil) := by
  have markup := (forest_markup readableInside (closes.append (0 :: memory))).1
  rw [← List.append_assoc] at markup
  have solid := (forest_markup readableInside closes).2
  obtain ⟨mid, content, filled⟩ := content_read readable grown here short markup solid
  obtain ⟨holdsMid, isOpen⟩ := filled.isOpen holds.fresh
  rw [List.length_append] at short
  obtain ⟨now, pointers, loop, inside⟩ := reads turns turns ⟨mid, _⟩ rest _ _ before.length (-1) enough
    enough closes (by omega) rfl holdsMid isOpen .first
  refine ⟨now, pointers, ?_, ?_⟩
  · rw [parseElementContent, Logged.result_of_bind _ content]
    exact loop
  · have inserted := filled.inserted inside
    rw [readable.plain_eq] at inserted
    exact inserted

/-- An end tag is read behind what is inside the element. -/
theorem endTag_read (readable : Readable elem) {xml : Xml} {pointers : Forest Nat} {root : Nat}
    (inserted : Inserted xml state.xml before after (cons elem inner nil) (cons root pointers nil))
    (here : state.cur = cursorAt memory (endTagText (fullName elem.namePrefix elem.name) ++ rest))
    (short : (endTagText (fullName elem.namePrefix elem.name) ++ rest).length < 2 ^ 31)
    (solid : Solid rest) : ∃ etag : Nat, parseElementEtag state before.length =
      some ((etag : Int), ⟨state.xml, cursorAt memory rest⟩) := by
  obtain ⟨inside, last, slot, same⟩ := inserted.slot
  have text : state.cur.p = less :: slash :: (fullName elem.namePrefix elem.name ++
      greater :: newLine :: (rest ++ 0 :: memory)) := by
    rw [here, cursorAt, endTagText]
    simp
  have skipped : skipWhiteSpace (newLine :: (rest ++ 0 :: memory)) = some (rest ++ 0 :: memory) :=
    skipWhiteSpace_newLine solid.behind (by simp)
  have name : fullName last.namePrefix last.name = fullName elem.namePrefix elem.name := by
    rw [← same]
    rfl
  have closed := parseElementEtag_printed readable.legible.isName readable.proper.name.2 inside slot
    name text skipped
  rw [here, cursorAt_passed short] at closed
  exact ⟨last.etagIndex, closed⟩

/-- An element with an end tag is read, when the forest inside is. -/
theorem node_read_tagged (readable : Readable elem) (readableInside : ∀ elem ∈ inner.nodes, Readable elem)
    (reads : ReadsInside memory inner) (enough : (elementText elem (forestText inner)).length ≤ turns)
    (here : state.cur = cursorAt memory (elementText elem (forestText inner) ++ rest))
    (short : (elementText elem (forestText inner) ++ rest).length < 2 ^ 31) (solid : Solid rest)
    (holds : Holds state.xml (before ++ after)) (adds : Adds state.xml before after pi si) :
    ∃ now pointers, (parseElementStagContentEtag (parseXmlDocumentElement turns) turns state pi
          si).result = some ((before.length : Int), ⟨now, cursorAt memory rest⟩) ∧
      Inserted state.xml now before after (cons elem inner nil)
        (cons state.xml.elements.length pointers nil) := by
  have closes := endTag_closes readable.legible.isName readable.proper.name.2 rest
  obtain ⟨mid, added, grown⟩ := adds { elem with content := none }
  have whole : elementText elem (forestText inner) = tagText elem ++ greater ::
      (elem.content.getD [] ++ (forestText inner ++
        endTagText (fullName elem.namePrefix elem.name))) := by
    rw [elementText, endTagText]
    simp
  have size := congrArg List.length whole
  simp only [List.length_append, List.length_cons] at size
  have regroup : elementText elem (forestText inner) ++ rest = tagText elem ++ ([] ++ greater ::
      ([] ++ (elem.content.getD [] ++ (forestText inner ++
        (endTagText (fullName elem.namePrefix elem.name) ++ rest))))) := by
    rw [whole]
    simp
  have total := congrArg List.length regroup
  simp only [List.length_append, List.length_cons, List.length_nil] at total short
  -- what is inside does not start with white space
  have solidInside : Solid (elem.content.getD [] ++ (forestText inner ++
      (endTagText (fullName elem.namePrefix elem.name) ++ rest))) := by
    cases filling : elem.content with
    | none => exact (forest_markup readableInside closes).2
    | some content =>
      obtain ⟨⟨c, others, rfl, blank⟩, -⟩ := readable.legible.content content filling
      rintro d ⟨⟩
      exact blank
  rw [regroup] at here
  have few : (tagText elem).length < turns := by omega
  have started := tag_read false readable (.inl rfl) (.inl rfl) few here
    (by simp only [List.length_append, List.length_cons, List.length_nil]; omega) solidInside added
  obtain ⟨now, pointers, inside, inserted⟩ := @inside_read memory elem inner
    ⟨mid, cursorAt memory (elem.content.getD [] ++ (forestText inner ++
      (endTagText (fullName elem.namePrefix elem.name) ++ rest)))⟩ _ turns before after readable
    readableInside reads state.xml holds grown closes (by omega) rfl
    (by simp only [List.length_append]; omega)
  obtain ⟨etag, closed⟩ := @endTag_read memory elem inner
    ⟨now, cursorAt memory (endTagText (fullName elem.namePrefix elem.name) ++ rest)⟩ rest before
    after readable state.xml _ _ inserted rfl (by simp only [List.length_append]; omega) solid
  have seen : isXmlElementEndTag (cursorAt memory
      (endTagText (fullName elem.namePrefix elem.name) ++ rest)).p = some true :=
    (closes.append (0 :: memory)).endTag.1
  have positive : 0 < (cursorAt memory
      (endTagText (fullName elem.namePrefix elem.name) ++ rest)).len := by
    rw [cursorAt, endTagText]
    dsimp only
    simp only [List.length_append, List.length_cons]
    omega
  refine ⟨now, pointers, ?_, inserted⟩
  have notMinus : ¬ (before.length : Int) = -1 := by omega
  have notMinusToo : ¬ (etag : Int) = -1 := by omega
  have stag : (Logged.call (Call.stag state.cur.text) (parseElementStag turns state pi si)).result =
      some ((before.length : Int), _) := started
  rw [parseElementStagContentEtag, Logged.result_of_bind _ stag]
  dsimp only
  rw [if_neg notMinus, Int.toNat_natCast, Logged.result_of_bind _ inside]
  dsimp only
  rw [if_neg notMinus, Logged.lift_bind _ seen, if_pos rfl,
    Logged.result_of_bind _ (ensure_of positive), Logged.lift_bind _ closed]
  dsimp only
  rw [if_neg notMinusToo]
  rfl

/-- A node is read, when the forest inside is. -/
theorem node_read (readable : Readable elem) (readableInside : ∀ elem ∈ inner.nodes, Readable elem)
    (reads : ReadsInside memory inner) (enough : (nodeText elem inner).length < turns)
    (here : state.cur = cursorAt memory (nodeText elem inner ++ rest))
    (short : (nodeText elem inner ++ rest).length < 2 ^ 31) (solid : Solid rest)
    (holds : Holds state.xml (before ++ after)) (adds : Adds state.xml before after pi si) :
    ∃ now pointers, (parseXmlDocumentElement turns state pi si).result =
        some ((before.length : Int), ⟨now, cursorAt memory rest⟩) ∧
      Inserted state.xml now before after (cons elem inner nil)
        (cons state.xml.elements.length pointers nil) := by
  obtain ⟨turns, rfl⟩ := Nat.exists_eq_succ_of_ne_zero (Nat.ne_of_gt (Nat.zero_lt_of_lt enough))
  have bound := Nat.le_of_lt_succ enough
  have positive : 0 < state.cur.len := by
    obtain ⟨more, cut⟩ := nodeText_head elem inner
    rw [here, cursorAt, cut]
    dsimp only
    simp only [List.length_append, List.length_cons]
    omega
  have started : isXmlElementStartTag state.cur.p = some true := by
    rw [here, cursorAt, List.append_assoc]
    exact (readable.node_opens inner _).startTag
  rw [parseXmlDocumentElement, Logged.result_of_bind _ (ensure_of positive),
    Logged.lift_bind _ started, if_pos rfl]
  by_cases empty : elem.content = none ∧ inner.isNil
  · have text : nodeText elem inner = emptyText elem := if_pos empty
    rw [text] at bound here short
    obtain ⟨noContent, noChildren⟩ := empty
    cases inner with
    | cons => cases noChildren
    | nil =>
      have single : isXmlElementEmptyElementTag state.cur.p = some true := by
        have tag : isXmlElementEmptyElementTag
            (tagText elem ++ ([slash] ++ greater :: newLine :: (rest ++ 0 :: memory))) =
              some (decide ([slash] = [slash])) := readable.emptyTag (.inr rfl)
        rw [here, cursorAt, emptyText]
        simpa using tag
      obtain ⟨now, parsed, inserted⟩ := node_read_empty readable noContent bound here short solid
        holds adds
      refine ⟨now, nil, ?_, inserted⟩
      rw [Logged.lift_bind _ single, if_pos rfl]
      exact parsed
  · have text : nodeText elem inner = elementText elem (forestText inner) := if_neg empty
    rw [text] at bound here short
    have tagged : isXmlElementEmptyElementTag state.cur.p = some false := by
      have tag : isXmlElementEmptyElementTag (tagText elem ++ ([] ++ greater ::
          (elem.content.getD [] ++ (forestText inner ++
            (endTagText (fullName elem.namePrefix elem.name) ++ (rest ++ 0 :: memory)))))) =
              some (decide ([] = [slash])) := readable.emptyTag (.inl rfl)
      rw [here, cursorAt, elementText]
      simpa [endTagText] using tag
    obtain ⟨now, pointers, parsed, inserted⟩ := node_read_tagged readable readableInside reads bound
      here short solid holds adds
    refine ⟨now, pointers, ?_, inserted⟩
    rw [Logged.lift_bind _ tagged]
    exact parsed

/-- The text of every forest that can be read is read, by induction on the forest. -/
theorem forest_read (memory : List UInt8) (elems : Forest Element)
    (readable : ∀ elem ∈ elems.nodes, Readable elem) : ReadsInside memory elems := by
  induction elems with
  | nil =>
    intro turns loops state rest before after pi si _ enough closes short here holds isOpen follows
    obtain ⟨loops, rfl⟩ := Nat.exists_eq_succ_of_ne_zero (Nat.ne_of_gt (Nat.zero_lt_of_lt enough))
    rw [forestText, List.nil_append] at here
    have ends : isXmlContentMarkup state.cur.p = some false := by
      rw [here]
      exact (closes.append (0 :: memory)).endTag.2.2
    refine ⟨state.xml, nil, ?_, inserted_nil holds⟩
    rw [contentLoop, Logged.lift_bind _ ends, ← here]
    rfl
  | cons elem inner beside inChildren inRest =>
    intro turns loops state rest before after pi si enough enoughLoops closes short here holds
      isOpen follows
    rw [nodes, List.forall_mem_cons, List.forall_mem_append] at readable
    obtain ⟨readableHere, readableInside, readableBeside⟩ := readable
    obtain ⟨loops, rfl⟩ :=
      Nat.exists_eq_succ_of_ne_zero (Nat.ne_of_gt (Nat.zero_lt_of_lt enoughLoops))
    obtain ⟨more, head⟩ := nodeText_head elem inner
    have positive : 0 < (nodeText elem inner).length := by
      rw [head]
      exact Nat.succ_pos _
    rw [forestText_cons, List.append_assoc] at here short
    rw [forestText_cons, List.length_append] at enough enoughLoops
    have opens := readableHere.node_opens inner (forestText beside ++ rest ++ 0 :: memory)
    rw [← List.append_assoc] at opens
    obtain ⟨-, isElement, goesOn⟩ := opens.markup
    -- the node, and what follows it
    have solid := (forest_markup readableBeside closes).2
    have room : (nodeText elem inner).length < turns := by omega
    obtain ⟨mid, children, parsed, inserted⟩ := node_read readableHere readableInside
      (inChildren readableInside) room here short solid holds
      fun elem => add_open holds isOpen follows elem
    have markup : isXmlMarkup (cursorAt memory (forestText beside ++ rest)).p = some true := by
      rw [cursorAt, List.append_assoc]
      exact (forest_markup readableBeside (closes.append (0 :: memory))).1
    have nonempty : before ≠ [] := by
      obtain ⟨parent, tail, starts, -⟩ := isOpen
      rintro rfl
      cases starts
    have old : ∀ pointer ∈ after, pointer < state.xml.elements.length :=
      fun pointer member => holds.pointer_lt (List.mem_append_right before member)
    have holdsMid := inserted.holds
    rw [← List.append_assoc] at holdsMid
    rw [List.length_append] at short
    obtain ⟨now, others, loop, later⟩ := inRest readableBeside turns loops
      ⟨mid, cursorAt memory (forestText beside ++ rest)⟩ rest _ after pi before.length (by omega)
      (by omega) closes (by omega) rfl holdsMid (isOpen.behind _) (inserted.follows nonempty old)
    refine ⟨now, cons state.xml.elements.length children others, ?_, inserted.beside later⟩
    have part : (parsePart (parseXmlDocumentElement turns) state pi si).result =
        some (some (before.length : Int), ⟨mid, cursorAt memory (forestText beside ++ rest)⟩) := by
      have seen : isXmlElement state.cur.p = some true := by
        rw [here]
        exact isElement
      have notMinus : ¬ (before.length : Int) = -1 := by omega
      rw [parsePart, Logged.lift_bind _ seen, if_pos rfl, Logged.result_of_bind _ parsed]
      dsimp only
      rw [if_neg notMinus]
      rfl
    have more : isXmlContentMarkup state.cur.p = some true := by
      rw [here]
      exact goesOn
    have data : (charDataOr ⟨mid, cursorAt memory (forestText beside ++ rest)⟩ pi).result =
        some (true, ⟨mid, cursorAt memory (forestText beside ++ rest)⟩) := by
      rw [charDataOr, Logged.lift_bind _ markup]
      rfl
    rw [contentLoop, Logged.lift_bind _ more, if_pos rfl, Logged.result_of_bind _ part]
    dsimp only
    rw [Logged.result_of_bind _ data]
    exact loop

end Ezcfg.XmlTree

import Ezcfg.XmlTree.TagEnds
import Ezcfg.XmlTree.Writing

/-!
# Reading what is printed

A printed tag is read as the element that it is printed for: the name and each attribute are read
up to where they end, and the first end that is found behind the name is that of the tag. What the
parser sees in front of it tells a start tag, an end tag, character data and the end of the
document from each other.
-/

namespace Ezcfg.XmlTree

open Foundation

/-- The parser can read what is printed for an element: the names are names for it, the element has
one behind the prefix, a value does not end early, and a content is character data that starts
where it is printed. -/
structure Legible (elem : Element) : Prop where
  isName : IsName (fullName elem.namePrefix elem.name)
  named : elem.name ≠ []
  attributes : ∀ a ∈ elem.attributes, IsName (fullName a.namePrefix a.name) ∧
    quote ∉ a.value ∧ greater ∉ a.value ∧ carriageReturn ∉ a.value
  content : ∀ text, elem.content = some text →
    (∃ c rest, text = c :: rest ∧ isWhiteSpace c = false) ∧ less ∉ text ∧ ampersand ∉ text ∧
      carriageReturn ∉ text

/-- An element that is read as it is printed, apart from its end. -/
structure Readable (elem : Element) : Prop where
  legible : Legible elem
  proper : Proper elem
  plain : elem.etagIndex = 0

/-- A start tag is in front, with an end. -/
def OpensTag (p : List UInt8) : Prop :=
  ∃ c rest more, p = less :: c :: (rest ++ greater :: more) ∧ isNameStartChar c = true ∧
    greater ∉ rest ∧ (0 : UInt8) ∉ rest

/-- An end tag is in front, with an end. -/
def ClosesTag (p : List UInt8) : Prop :=
  ∃ c rest more, p = less :: slash :: c :: (rest ++ greater :: more) ∧ isNameStartChar c = true ∧
    greater ∉ rest ∧ (0 : UInt8) ∉ rest

variable {p more : List UInt8} {elem : Element}

/-- What starts a name is no other character that a test looks for. -/
theorem not_marks {c : UInt8} (starts : isNameStartChar c = true) :
    c ≠ greater ∧ c ≠ slash ∧ c ≠ exclamation ∧ c ≠ question ∧ c ≠ 0 := by
  refine ⟨?_, ?_, ?_, ?_, ?_⟩ <;> rintro rfl <;> revert starts <;> decide

/-- The end of a tag is found. -/
theorem strstr_greater {front : List UInt8} (absent : greater ∉ front) (nonul : (0 : UInt8) ∉ front) :
    strstr [greater] (front ++ greater :: more) = some (some (greater :: more)) :=
  strstr_last more absent List.not_mem_nil nonul

/-- A start tag is seen. -/
theorem OpensTag.startTag (opens : OpensTag p) : isXmlElementStartTag p = some true := by
  obtain ⟨c, rest, more, rfl, starts, absent, nonul⟩ := opens
  obtain ⟨notGreater, -, -, -, nonzero⟩ := not_marks starts
  have found : strstr [greater] (less :: c :: rest ++ greater :: more) =
      some (some (greater :: more)) := by
    apply strstr_greater
    · simp [less, greater, absent, Ne.symm notGreater]
    · simp [less, nonul, Ne.symm nonzero]
  rw [List.cons_append, List.cons_append] at found
  simp [isXmlElementStartTag, startsAndEnds, startsThen, startsWith, starts, found]

/-- A start tag is markup, and an element in the content. -/
theorem OpensTag.markup (opens : OpensTag p) : isXmlMarkup p = some true ∧
    isXmlElement p = some true ∧ isXmlContentMarkup p = some true := by
  have seen := opens.startTag
  have element : isXmlElement p = some true := by simp [isXmlElement, anyOf, seen]
  refine ⟨?_, element, ?_⟩
  · simp [isXmlMarkup, anyOf, seen]
  · simp [isXmlContentMarkup, anyOf, element]

/-- A start tag is not in the prolog. -/
theorem OpensTag.notProlog (opens : OpensTag p) : isXmlDeclaration p = some false ∧
    isXmlMisc p = some false ∧ isXmlDocumentTypeDeclaration p = some false := by
  obtain ⟨c, rest, more, rfl, starts, -⟩ := opens
  obtain ⟨-, -, notBang, notQuestion, -⟩ := not_marks starts
  refine ⟨?_, ?_, ?_⟩
  · simp [isXmlDeclaration, startsAndEnds, startsThen, startsWith, xmlDeclStart, notQuestion]
  · simp [isXmlMisc, anyOf, isXmlComment, isXmlProcessingInstruction, isXmlSpace, startsThen,
      startsWith, commentStart, notBang, notQuestion, readByte, isWhiteSpace, less]
  · simp [isXmlDocumentTypeDeclaration, startsAndEnds, startsThen, startsWith, doctypeStart,
      notBang]

/-- The tag of an empty element is told by the byte in front of its end. -/
theorem OpensTag.emptyTag {front : List UInt8} {d : UInt8}
    (opens : OpensTag (front ++ d :: greater :: more)) (absent : greater ∉ front ++ [d])
    (nonul : (0 : UInt8) ∉ front ++ [d]) :
    isXmlElementEmptyElementTag (front ++ d :: greater :: more) = some (decide (d = slash)) := by
  have found := @strstr_greater more (front ++ [d]) absent nonul
  rw [List.append_assoc, List.singleton_append] at found
  have before : byteBefore (front ++ d :: greater :: more) (greater :: more) = some d := by
    rw [byteBefore]
    have index : (front ++ d :: greater :: more).length - (greater :: more).length - 1 =
        front.length := by
      simp only [List.length_append, List.length_cons]
      omega
    rw [index, List.getElem?_append_right (Nat.le_refl _), Nat.sub_self]
    rfl
  simp [isXmlElementEmptyElementTag, opens.startTag, found, before]

/-- An end tag is seen, and it is nothing that the content goes on with. -/
theorem ClosesTag.endTag (closes : ClosesTag p) : isXmlElementEndTag p = some true ∧
    isXmlMarkup p = some true ∧ isXmlContentMarkup p = some false := by
  obtain ⟨c, rest, more, rfl, starts, absent, nonul⟩ := closes
  obtain ⟨notGreater, -, -, -, nonzero⟩ := not_marks starts
  have found : strstr [greater] (less :: slash :: c :: rest ++ greater :: more) =
      some (some (greater :: more)) := by
    apply strstr_greater
    · simp [less, slash, greater, absent, Ne.symm notGreater]
    · simp [less, slash, nonul, Ne.symm nonzero]
  rw [List.cons_append, List.cons_append, List.cons_append] at found
  have seen : isXmlElementEndTag (less :: slash :: c :: (rest ++ greater :: more)) = some true := by
    simp [isXmlElementEndTag, startsAndEnds, startsThen, startsWith, starts, found]
  have notStart : isXmlElementStartTag (less :: slash :: c :: (rest ++ greater :: more)) =
      some false := by
    have notName : isNameStartChar slash = false := by decide
    simp [isXmlElementStartTag, startsAndEnds, startsThen, startsWith, notName]
  have notElement : isXmlElement (less :: slash :: c :: (rest ++ greater :: more)) =
      some false := by
    simp [isXmlElement, anyOf, isXmlElementEmptyElementTag, notStart]
  refine ⟨seen, ?_, ?_⟩
  · simp [isXmlMarkup, anyOf, notStart, seen]
  · simp [isXmlContentMarkup, anyOf, notElement, isXmlReference, isXmlEntityReference,
      isXmlCharacterReference, isXmlCdataSection, isXmlProcessingInstruction, isXmlComment,
      startsThen, startsWith, cdataStart, commentStart, less, slash, ampersand, exclamation,
      question]

/-- A byte that starts neither a tag nor a reference is no markup. -/
theorem notMarkup {c : UInt8} (notLess : c ≠ less) (notAmpersand : c ≠ ampersand) :
    isXmlMarkup (c :: more) = some false := by
  have notStart : isXmlElementStartTag (c :: more) = some false := by
    simp [isXmlElementStartTag, startsAndEnds, startsThen, startsWith, notLess]
  simp [isXmlMarkup, anyOf, isXmlElementEmptyElementTag, notStart, isXmlElementEndTag,
    isXmlEntityReference, isXmlCharacterReference, isXmlComment, isXmlCdataSection,
    isXmlDocumentTypeDeclaration, isXmlProcessingInstruction, isXmlDeclaration,
    isXmlTextDeclaration, startsAndEnds, startsThen, startsWith, cdataStart, commentStart,
    doctypeStart, xmlDeclStart, notLess, notAmpersand]

/-- Character data is scanned up to the markup behind it. -/
theorem scanMarkup_content {content : List UInt8} (notLess : less ∉ content)
    (notAmpersand : ampersand ∉ content) (markup : isXmlMarkup p = some true) (nonempty : p ≠ []) :
    scanMarkup (content ++ p) = some p := by
  induction content with
  | nil =>
    obtain ⟨c, rest, rfl⟩ := List.exists_cons_of_ne_nil nonempty
    rw [List.nil_append, scanMarkup, markup]
    rfl
  | cons c content inductionHypothesis =>
    rw [List.mem_cons, not_or] at notLess notAmpersand
    rw [List.cons_append, scanMarkup, notMarkup (Ne.symm notLess.1) (Ne.symm notAmpersand.1)]
    exact inductionHypothesis notLess.2 notAmpersand.2

/-- The terminator is behind the document. -/
theorem notMisc_terminator : isXmlMisc (0 :: more) = some false := by
  simp [isXmlMisc, anyOf, isXmlComment, isXmlProcessingInstruction, isXmlSpace, startsThen,
    startsWith, commentStart, readByte, isWhiteSpace, less]

/-- White space is not skipped where there is none. -/
theorem skipWhiteSpace_stay (solid : ∀ c ∈ p.head?, isWhiteSpace c = false) (nonempty : p ≠ []) :
    skipWhiteSpace p = some p := by
  obtain ⟨c, rest, rfl⟩ := List.exists_cons_of_ne_nil nonempty
  rw [skipWhiteSpace, scan, solid c rfl]
  rfl

/-- The new line behind a tag is skipped. -/
theorem skipWhiteSpace_newLine (solid : ∀ c ∈ p.head?, isWhiteSpace c = false) (nonempty : p ≠ []) :
    skipWhiteSpace (newLine :: p) = some p := by
  have blank : isWhiteSpace newLine = true := by decide
  rw [skipWhiteSpace, scan, if_pos blank]
  exact skipWhiteSpace_stay solid nonempty

section Attributes

variable {a : Attribute} {q : List UInt8}

/-- A printed value is read. -/
theorem parseAttValue_printed (elem : Element) (name : List UInt8) {value : List UInt8}
    (absent : quote ∉ value) (nonul : (0 : UInt8) ∉ value) (more : q ≠ []) :
    parseAttValue elem name (equalSign :: quote :: (value ++ quote :: q)) =
      some (some ((elementAddAttribute elem name value attributeTail).2, q)) := by
  have moved := advance_one equalSign (q := quote :: (value ++ quote :: q)) (by simp)
  have solid : ∀ c ∈ (quote :: (value ++ quote :: q)).head?, isWhiteSpace c = false := by
    rintro c ⟨⟩
    decide
  have skipped := skipWhiteSpace_stay solid (by simp)
  have movedToo := advance_one quote (q := value ++ quote :: q) (by simp)
  have found := strchr_cut q absent nonul
  have behind := advance_one quote more
  have text : between (value ++ quote :: q) (quote :: q) = value := by
    rw [between, List.length_append, Nat.add_sub_cancel, List.take_left]
  have isEqual : isEqualSign equalSign = true := by decide
  have read : readByte (equalSign :: quote :: (value ++ quote :: q)) = some equalSign := rfl
  have readMark : readByte (quote :: (value ++ quote :: q)) = some quote := rfl
  rw [parseAttValue, bind_of_some read, if_pos isEqual, bind_of_some moved, bind_of_some skipped,
    bind_of_some readMark, if_pos (.inl rfl), bind_of_some movedToo, bind_of_some found]
  dsimp only
  have granted : (elementAddAttribute elem name value attributeTail).1 = true := rfl
  rw [text, if_pos granted, bind_of_some behind]
  rfl

/-- A printed attribute is read, and put behind the others. -/
theorem parseAttribute_printed (elem : Element) (isName : IsName (fullName a.namePrefix a.name))
    (proper : ProperName a.namePrefix a.name) (absent : quote ∉ a.value)
    (nonul : (0 : UInt8) ∉ a.value) (more : q ≠ []) :
    parseAttribute elem
        (fullName a.namePrefix a.name ++ equalSign :: quote :: (a.value ++ quote :: q)) =
      some (some ({ elem with attributes := elem.attributes ++ [a] }, q)) := by
  have front : parseAttribute elem
      (fullName a.namePrefix a.name ++ ([] ++ equalSign :: quote :: (a.value ++ quote :: q))) =
        parseAttValue elem _ (equalSign :: quote :: (a.value ++ quote :: q)) :=
    parseAttribute_eq elem isName (.inl rfl) fun _ => by decide
  rw [List.nil_append] at front
  rw [front, parseAttValue_printed elem _ absent nonul more, elementAddAttribute, proper.1,
    if_neg (by decide), if_pos rfl]

/-- The printed attributes of a tag are read in order. -/
theorem attributeLoop_printed (skips : Bool) {stop : List UInt8} (nonempty : stop ≠ [])
    (attributes : List Attribute)
    (legible : ∀ a ∈ attributes, IsName (fullName a.namePrefix a.name) ∧ quote ∉ a.value)
    (proper : ∀ a ∈ attributes, ProperName a.namePrefix a.name ∧ (0 : UInt8) ∉ a.value)
    {turns : Nat} (enough : attributes.length < turns) (elem : Element) :
    attributeLoop skips turns stop elem (attributes.flatMap attributeText ++ stop) =
      some (some
        ({ elem with attributes := elem.attributes ++ attributes }, stop)) := by
  induction attributes generalizing turns elem with
  | nil =>
    obtain ⟨turns, rfl⟩ := Nat.exists_eq_succ_of_ne_zero (Nat.ne_of_gt enough)
    rw [List.flatMap_nil, List.nil_append, attributeLoop, if_neg (Nat.lt_irrefl _),
      List.append_nil]
  | cons a rest inductionHypothesis =>
    rw [List.forall_mem_cons] at legible proper
    obtain ⟨⟨isName, absent⟩, legible⟩ := legible
    obtain ⟨⟨properName, nonul⟩, proper⟩ := proper
    obtain ⟨turns, rfl⟩ := Nat.exists_eq_succ_of_ne_zero (Nat.ne_of_gt (Nat.zero_lt_of_lt enough))
    rw [List.length_cons] at enough
    have later : rest.flatMap attributeText ++ stop ≠ [] :=
      List.append_ne_nil_of_right_ne_nil _ nonempty
    have text : (a :: rest).flatMap attributeText ++ stop =
        space :: (fullName a.namePrefix a.name ++
          equalSign :: quote :: (a.value ++ quote :: (rest.flatMap attributeText ++ stop))) := by
      simp [attributeText]
    have before : stop.length < ((a :: rest).flatMap attributeText ++ stop).length := by
      rw [text]
      simp only [List.length_cons, List.length_append]
      omega
    have parsed := parseAttribute_printed elem isName properName absent nonul later
    obtain ⟨c, others, cut, starts, all⟩ := isName
    have solid : isWhiteSpace c = false := by
      rw [← Bool.not_eq_true]
      intro blank
      have name : isNameChar c = true := by
        rw [isNameChar, starts]
        rfl
      rw [not_isNameChar_of_space blank] at name
      cases name
    rw [cut, List.cons_append] at parsed text
    have blank : isWhiteSpace space = true := by decide
    have skipped : skipWhiteSpace ((a :: rest).flatMap attributeText ++ stop) =
        some (c :: (others ++
          equalSign :: quote :: (a.value ++ quote :: (rest.flatMap attributeText ++ stop)))) := by
      rw [text, skipWhiteSpace, scan, if_pos blank, scan, solid]
      rfl
    have read : readByte (c :: (others ++
        equalSign :: quote :: (a.value ++ quote :: (rest.flatMap attributeText ++ stop)))) =
        some c := rfl
    rw [attributeLoop, if_pos before, bind_of_some skipped, bind_of_some read, if_pos starts,
      bind_of_some parsed]
    dsimp only
    rw [inductionHypothesis legible proper (Nat.lt_of_succ_lt_succ enough), List.append_assoc]
    rfl

end Attributes

section Tags

variable {lead : List UInt8} {state : State}

/-- The texts of attributes have no end of a tag, and are strings. -/
theorem attributeText_absent {attributes : List Attribute}
    (legible : ∀ a ∈ attributes, IsName (fullName a.namePrefix a.name) ∧ greater ∉ a.value)
    (proper : ∀ a ∈ attributes, ProperName a.namePrefix a.name ∧ (0 : UInt8) ∉ a.value) :
    greater ∉ attributes.flatMap attributeText ∧
      (0 : UInt8) ∉ attributes.flatMap attributeText := by
  constructor
  · intro member
    obtain ⟨a, among, inside⟩ := List.mem_flatMap.mp member
    obtain ⟨isName, absent⟩ := legible a among
    have name := isName.notMem
    revert inside
    simp [attributeText, absent, name, space, equalSign, quote, greater]
  · intro member
    obtain ⟨a, among, inside⟩ := List.mem_flatMap.mp member
    obtain ⟨⟨-, name⟩, absent⟩ := proper a among
    revert inside
    simp [attributeText, absent, name, space, equalSign, quote]

/-- A printed tag starts with "<" and the first character of a name. -/
theorem Readable.tagText_cut (readable : Readable elem) : ∃ c rest,
    tagText elem = less :: c :: rest ∧ isNameStartChar c = true ∧ greater ∉ rest ∧
      (0 : UInt8) ∉ rest := by
  obtain ⟨⟨isName, -, legible, -⟩, proper, -⟩ := readable
  have absent := isName.notMem
  have nonul := proper.name.2
  obtain ⟨attributesAbsent, attributesNonul⟩ :=
    attributeText_absent (fun a among => ⟨(legible a among).1, (legible a among).2.2.1⟩)
      proper.attributes
  obtain ⟨c, rest, cut, starts, -⟩ := isName
  rw [cut, List.mem_cons, not_or] at absent nonul
  refine ⟨c, rest ++ elem.attributes.flatMap attributeText, ?_, starts, ?_, ?_⟩
  · rw [tagText, cut]
    rfl
  · rw [List.mem_append, not_or]
    exact ⟨absent.2, attributesAbsent⟩
  · rw [List.mem_append, not_or]
    exact ⟨nonul.2, attributesNonul⟩

/-- The last byte of a printed tag in front of its end is that of a name, or a quotation mark. -/
theorem Readable.tagText_last (readable : Readable elem) : ∃ front d,
    tagText elem = front ++ [d] ∧ d ≠ slash := by
  obtain none | ⟨others, a, cut⟩ := List.eq_nil_or_concat elem.attributes
  · obtain ⟨c, rest, cut, starts, all⟩ := readable.legible.isName
    obtain empty | ⟨front, d, ends⟩ := List.eq_nil_or_concat rest
    · refine ⟨[less], c, ?_, (not_marks starts).2.1⟩
      rw [tagText, none, cut, empty]
      rfl
    · refine ⟨less :: c :: front, d, ?_, ?_⟩
      · rw [tagText, none, cut, ends]
        simp
      · rintro rfl
        have absurd := all slash (by simp [ends])
        revert absurd
        decide
  · refine ⟨less :: fullName elem.namePrefix elem.name ++ others.flatMap attributeText ++
      (space :: fullName a.namePrefix a.name ++ equalSign :: quote :: a.value), quote, ?_, by decide⟩
    rw [tagText, cut]
    simp [attributeText]

/-- A printed tag is a start tag. -/
theorem Readable.opensTag (readable : Readable elem) (isLead : lead = [] ∨ lead = [slash]) :
    OpensTag (tagText elem ++ (lead ++ greater :: more)) := by
  obtain ⟨c, rest, cut, starts, absent, nonul⟩ := readable.tagText_cut
  refine ⟨c, rest ++ lead, more, ?_, starts, ?_, ?_⟩
  · rw [cut]
    simp
  · obtain rfl | rfl := isLead
    · simpa using absent
    · simpa [slash, greater] using absent
  · obtain rfl | rfl := isLead
    · simpa using nonul
    · simpa [slash] using nonul

/-- The tag of an empty element is told from a start tag. -/
theorem Readable.emptyTag (readable : Readable elem) (isLead : lead = [] ∨ lead = [slash]) :
    isXmlElementEmptyElementTag (tagText elem ++ (lead ++ greater :: more)) =
      some (decide (lead = [slash])) := by
  have opens : OpensTag (tagText elem ++ (lead ++ greater :: more)) := readable.opensTag isLead
  obtain ⟨c, rest, cut, starts, absent, nonul⟩ := readable.tagText_cut
  obtain ⟨notGreater, -, -, -, nonzero⟩ := not_marks starts
  have absentTag : greater ∉ tagText elem := by
    rw [cut]
    simp [less, greater, absent, Ne.symm notGreater]
  have nonulTag : (0 : UInt8) ∉ tagText elem := by
    rw [cut]
    simp [less, nonul, Ne.symm nonzero]
  obtain rfl | rfl := isLead
  · obtain ⟨front, d, last, notSlash⟩ := readable.tagText_last
    rw [last] at opens absentTag nonulTag ⊢
    rw [List.nil_append, List.append_assoc, List.singleton_append] at opens ⊢
    rw [opens.emptyTag absentTag nonulTag, decide_eq_false notSlash]
    rfl
  · rw [List.singleton_append] at opens ⊢
    have absentAll : greater ∉ tagText elem ++ [slash] := by simp [absentTag, slash, greater]
    have nonulAll : (0 : UInt8) ∉ tagText elem ++ [slash] := by simp [nonulTag, slash]
    rw [opens.emptyTag absentAll nonulAll]
    rfl

/-- A printed tag is read as its element, which is put into the array without its content. -/
theorem parseTag_printed (skips : Bool) (readable : Readable elem)
    (isLead : lead = [] ∨ lead = [slash]) {turns : Nat} (enough : elem.attributes.length < turns)
    {pi si index : Int} {q : List UInt8} {now : Xml}
    (here : state.cur.p = tagText elem ++ (lead ++ greater :: more))
    (skipped : skipWhiteSpace more = some q)
    (added : state.xml.addElement pi si { elem with content := none } = some (now, index)) :
    parseTag (attributeLoop skips turns) (lead ++ [greater]) state pi si =
      some (index, ⟨now, state.cur.passed q⟩) := by
  have nonempty : more ≠ [] := by
    rintro rfl
    cases skipped
  obtain ⟨front, tagRest, tagCut, tagStarts, absent, nonul⟩ := readable.tagText_cut
  obtain ⟨⟨isName, -, legible, -⟩, proper, plain⟩ := readable
  -- the end that is found is that of the tag
  have stopFound : strstr (lead ++ [greater]) (front :: tagRest ++ (lead ++ greater :: more)) =
      some (some (lead ++ greater :: more)) := by
    obtain ⟨notGreater, -, -, -, nonzero⟩ := not_marks tagStarts
    apply strstr_last
    · simp [absent, Ne.symm notGreater]
    · obtain rfl | rfl := isLead
      · exact List.not_mem_nil
      · decide
    · simp [nonul, Ne.symm nonzero]
  have text : tagText elem = less :: (fullName elem.namePrefix elem.name ++
      elem.attributes.flatMap attributeText) := rfl
  obtain ⟨c, others, cut, starts, all⟩ := isName
  have sameFront : front :: tagRest = c :: (others ++ elem.attributes.flatMap attributeText) := by
    rw [text, cut] at tagCut
    exact (List.cons.inj tagCut).2.symm
  -- behind the name is what is in no name
  obtain ⟨d, behind, restCut, ends⟩ : ∃ d behind,
      elem.attributes.flatMap attributeText ++ (lead ++ greater :: more) = d :: behind ∧
        isNameChar d = false := by
    cases elem.attributes with
    | nil =>
      obtain rfl | rfl := isLead
      · exact ⟨greater, more, rfl, by decide⟩
      · exact ⟨slash, greater :: more, rfl, by decide⟩
    | cons a rest => exact ⟨space, _, rfl, by decide⟩
  have size : (lead ++ greater :: more).length ≤ (d :: behind).length := by
    rw [← restCut]
    simp
  have scanned := scanName_cut all ends size
  rw [← restCut] at scanned
  have moved : advance 1 state.cur.p = some (front :: tagRest ++ (lead ++ greater :: more)) := by
    rw [here, tagCut]
    exact advance_one less (by simp)
  have movedToo : advance 1 (front :: tagRest ++ (lead ++ greater :: more)) =
      some (others ++ (elem.attributes.flatMap attributeText ++ (lead ++ greater :: more))) := by
    rw [sameFront, List.cons_append, List.append_assoc]
    exact advance_one c (by simp)
  have name : between (front :: tagRest ++ (lead ++ greater :: more))
      (elem.attributes.flatMap attributeText ++ (lead ++ greater :: more)) =
        fullName elem.namePrefix elem.name := by
    have regroup : front :: tagRest ++ (lead ++ greater :: more) =
        fullName elem.namePrefix elem.name ++
          (elem.attributes.flatMap attributeText ++ (lead ++ greater :: more)) := by
      rw [sameFront, cut]
      simp
    rw [regroup, between, List.length_append, Nat.add_sub_cancel, List.take_left]
  have behindName : lead ++ greater :: more ≠ [] := by simp
  have loop := attributeLoop_printed skips behindName elem.attributes
    (fun a among => ⟨(legible a among).1, (legible a among).2.1⟩) proper.attributes enough
    (elementNew (fullName elem.namePrefix elem.name) none)
  have read : { elementNew (fullName elem.namePrefix elem.name) none with
      attributes := (elementNew (fullName elem.namePrefix elem.name) none).attributes ++
        elem.attributes } = { elem with content := none } := by
    rw [elementNew, proper.name.1, plain]
    rfl
  have final : advance (lead ++ [greater]).length (lead ++ greater :: more) = some more := by
    have regroup : lead ++ greater :: more = (lead ++ [greater]) ++ more := by simp
    rw [regroup]
    exact advance_append _ nonempty
  rw [parseTag, bind_of_some moved, bind_of_some stopFound]
  dsimp only
  rw [bind_of_some movedToo, bind_of_some scanned, name, bind_of_some loop, read, closeTag,
    bind_of_some final, bind_of_some skipped, bind_of_some added]
  rfl

/-- A printed end tag closes the element in a slot. -/
theorem parseElementEtag_printed {name : Text} (isName : IsName name) (nonul : (0 : UInt8) ∉ name)
    {ei : Nat} {q : List UInt8} {here : Element} (inside : ei < state.xml.numElements)
    (slot : state.xml.elementAt ei = some here)
    (same : fullName here.namePrefix here.name = name)
    (text : state.cur.p = less :: slash :: (name ++ greater :: more))
    (skipped : skipWhiteSpace more = some q) :
    parseElementEtag state ei =
      some ((here.etagIndex : Int), ⟨state.xml, state.cur.passed q⟩) := by
  have nonempty : more ≠ [] := by
    rintro rfl
    cases skipped
  obtain ⟨entry, known, slot⟩ := Option.bind_eq_some_iff.mp slot
  obtain ⟨pointer, filled, stored⟩ := Option.bind_eq_some_iff.mp slot
  have moved : advance 2 state.cur.p = some (name ++ greater :: more) := by
    rw [text]
    exact advance_append [less, slash] (by simp)
  have found : strstr [greater] (name ++ greater :: more) = some (some (greater :: more)) :=
    strstr_greater isName.notMem nonul
  have behind := advance_one greater nonempty
  obtain ⟨c, others, rfl, -, all⟩ := isName
  have movedToo : advance 1 (c :: others ++ greater :: more) = some (others ++ greater :: more) :=
    advance_one c (by simp)
  have scanned : scanName (greater :: more) (others ++ greater :: more) = some (greater :: more) :=
    scanName_cut all (by decide) (Nat.le_refl _)
  have read : between (c :: others ++ greater :: more) (greater :: more) = c :: others := by
    rw [between, List.length_append, Nat.add_sub_cancel, List.take_left]
  rw [parseElementEtag, bind_of_some (ensure_of inside), bind_of_some known, bind_of_some moved,
    bind_of_some found]
  dsimp only
  rw [bind_of_some movedToo, bind_of_some scanned, bind_of_some filled, bind_of_some stored, read,
    if_pos same, bind_of_some behind, bind_of_some skipped]
  rfl

end Tags

end Ezcfg.XmlTree

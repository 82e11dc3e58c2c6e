import Ezcfg.XmlTree.ParsedTree
import Ezcfg.XmlTree.ReadingForest

/-!
# Parsing undoes writing

What is written for an array that is built is read back into the same slots: the document has no
carriage return and nothing in front of its root, so that the parser sees what was printed, and
reading the root puts the forest of the written array into the array that is filled.
-/

namespace Ezcfg.XmlTree

open Foundation Forest

variable {xml now : Xml} {elem : Element} {elems : Forest Element}

/-- A text without a carriage return is normalised. -/
theorem normalizeDocument_same {text : Text} (absent : carriageReturn ∉ text) :
    normalizeDocument text = text := by
  induction text using normalizeDocument.induct with
  | case1 => rfl
  | case2 => exact absurd (List.mem_singleton.mpr rfl) absent
  | case3 c other => rw [normalizeDocument, if_neg other]
  | case4 rest inductionHypothesis => exact absurd List.mem_cons_self absent
  | case5 next rest other inductionHypothesis => exact absurd List.mem_cons_self absent
  | case6 c next rest other inductionHypothesis =>
    rw [List.mem_cons, not_or] at absent
    rw [normalizeDocument, if_neg other, inductionHypothesis absent.2]

/-- There is no carriage return in a name. -/
theorem IsName.noReturn {name : Text} (isName : IsName name) : carriageReturn ∉ name := by
  obtain ⟨c, others, rfl, starts, all⟩ := isName
  rw [List.mem_cons, not_or]
  constructor
  · rintro rfl
    revert starts
    decide
  · intro member
    have absurd := all _ member
    revert absurd
    decide

/-- There is no carriage return in the text of attributes. -/
theorem attributes_noReturn {attributes : List Attribute}
    (legible : ∀ a ∈ attributes, IsName (fullName a.namePrefix a.name) ∧ carriageReturn ∉ a.value) :
    carriageReturn ∉ attributes.flatMap attributeText := by
  intro member
  obtain ⟨a, among, inside⟩ := List.mem_flatMap.mp member
  obtain ⟨isName, absent⟩ := legible a among
  have name := isName.noReturn
  revert inside
  simp [attributeText, absent, name, space, equalSign, quote, carriageReturn]

/-- There is no carriage return in the text of a node, when there is none in what is inside. -/
theorem Legible.noReturn (legible : Legible elem) {inner : Forest Element}
    (inside : carriageReturn ∉ forestText inner) : carriageReturn ∉ nodeText elem inner := by
  have name := legible.isName.noReturn
  have attributes := attributes_noReturn fun a among =>
    ⟨(legible.attributes a among).1, (legible.attributes a among).2.2.2⟩
  have content : carriageReturn ∉ elem.content.getD [] := by
    cases filling : elem.content with
    | none => exact List.not_mem_nil
    | some text => exact (legible.content text filling).2.2.2
  rw [nodeText]
  split_ifs
  · simp [emptyText, tagText, name, attributes, less, slash, greater, newLine, carriageReturn]
  · simp [elementText, tagText, name, attributes, content, inside, less, slash, greater, newLine,
      carriageReturn]

/-- There is no carriage return in the text of a forest. -/
theorem forestText_noReturn (readable : ∀ elem ∈ elems.nodes, Readable elem) :
    carriageReturn ∉ forestText elems := by
  induction elems with
  | nil => exact List.not_mem_nil
  | cons elem inner beside inChildren inRest =>
    rw [nodes, List.forall_mem_cons, List.forall_mem_append] at readable
    obtain ⟨here, inside, later⟩ := readable
    rw [forestText_cons, List.mem_append, not_or]
    exact ⟨here.legible.noReturn (inChildren inside), inRest later⟩

/-- There is no terminator in the text of a forest. -/
theorem forestText_nonul (readable : ∀ elem ∈ elems.nodes, Readable elem) :
    (0 : UInt8) ∉ forestText elems := by
  induction elems with
  | nil => exact List.not_mem_nil
  | cons elem inner beside inChildren inRest =>
    rw [nodes, List.forall_mem_cons, List.forall_mem_append] at readable
    obtain ⟨here, inside, later⟩ := readable
    have name := here.proper.name.2
    have nonulInside := inChildren inside
    have attributes := (attributeText_absent
      (fun a among => ⟨(here.legible.attributes a among).1,
        (here.legible.attributes a among).2.2.1⟩) here.proper.attributes).2
    have content : (0 : UInt8) ∉ elem.content.getD [] := by
      cases filling : elem.content with
      | none => exact List.not_mem_nil
      | some text => exact here.proper.content text filling
    rw [forestText_cons, List.mem_append, not_or]
    refine ⟨?_, inRest later⟩
    rw [nodeText]
    split_ifs
    · simp [emptyText, tagText, name, attributes, less, slash, greater, newLine]
    · simp [elementText, tagText, name, attributes, content, nonulInside, less, slash, greater,
        newLine]

/-- In front of a start tag there is nothing of a prolog. -/
theorem parseXmlDocumentProlog_none {turns : Nat} (enough : turns ≠ 0) (prolog : Prolog)
    {cur : Cursor} (positive : 0 < cur.len) (opens : OpensTag cur.p) :
    (parseXmlDocumentProlog turns prolog cur).result = some (prolog, some cur) := by
  obtain ⟨turns, rfl⟩ := Nat.exists_eq_succ_of_ne_zero enough
  obtain ⟨declaration, misc, doctype⟩ := opens.notProlog
  have read : (declarationOr (turns + 1) prolog cur).result = some (prolog, some cur) := by
    rw [declarationOr, Logged.lift_bind _ declaration]
    rfl
  have loop : miscLoop (turns + 1) cur = some (some cur) := by
    rw [miscLoop, bind_of_some misc]
    rfl
  have behind : doctypeOr (turns + 1) cur = some (some cur) := by
    rw [doctypeOr, bind_of_some doctype]
    rfl
  rw [parseXmlDocumentProlog, Logged.lift_bind _ (ensure_of positive),
    Logged.result_of_bind _ read]
  dsimp only
  rw [Logged.lift_bind _ loop]
  dsimp only
  rw [Logged.lift_bind _ behind]
  rfl

/-- An array without elements gets its root. -/
theorem WellNested.adds (tree : WellNested xml nil) : Adds xml [] [] (-1) (-1) := by
  intro elem
  have top : (-1 : Int) < 0 := by decide
  have sibling : xml.enlarge.pointerAt (-1) = some none := rfl
  obtain ⟨now, index, done, ⟨absurd, -⟩ | ⟨-, rfl, grown⟩⟩ :=
    addElement_top tree.holds top elem sibling
  · exact (absurd rfl).elim
  · exact ⟨now, done, grown⟩

/-- The text of a tree is parsed into an array, which shows the tree then. -/
theorem xmlParse_tree {elem : Element} {inner : Forest Element}
    (readable : ∀ other ∈ (cons elem inner nil).nodes, Readable other) {into : Xml}
    (tree : HoldsTree into) {turns : Nat} (enough : (forestText (cons elem inner nil)).length < turns)
    (short : (forestText (cons elem inner nil)).length < 2 ^ 31) (prolog : Prolog)
    (memory : List UInt8) {len : Int} (positive : 0 < len) :
    ∃ now, (xmlParse turns into prolog (forestText (cons elem inner nil)) memory len).result =
        some (true, now, prolog) ∧
      now.numElements = (cons elem inner nil).labels.length ∧ Shown now 0 (cons elem inner nil) := by
  obtain ⟨forest, tree⟩ := tree
  obtain ⟨cleared, deleted, empty⟩ := tree.deleteElements
  have text : forestText (cons elem inner nil) = nodeText elem inner := List.append_nil _
  have same := normalizeDocument_same (forestText_noReturn readable)
  rw [text] at enough short same
  have readableHere := readable elem List.mem_cons_self
  have readableInside : ∀ other ∈ inner.nodes, Readable other := by
    intro other member
    apply readable
    rw [nodes, nodes, List.append_nil]
    exact List.mem_cons_of_mem _ member
  obtain ⟨more, head⟩ := nodeText_head elem inner
  have length : 0 < (nodeText elem inner).length := by
    rw [head]
    exact Nat.succ_pos _
  have cursor : (⟨terminated (nodeText elem inner) ++ memory, (nodeText elem inner).length⟩ :
      Cursor) = cursorAt memory (nodeText elem inner) := by
    rw [cursorAt, terminated, List.append_assoc]
    rfl
  have left : 0 < (cursorAt memory (nodeText elem inner)).len := by
    rw [cursorAt]
    dsimp only
    omega
  have nonzero : turns ≠ 0 := by omega
  have front := parseXmlDocumentProlog_none nonzero prolog left (readableHere.node_opens inner _)
  obtain ⟨now, pointers, parsed, inserted⟩ := @node_read memory elem inner
    ⟨cleared, cursorAt memory (nodeText elem inner)⟩ [] turns [] [] (-1) (-1) readableHere
    readableInside (forest_read memory inner readableInside) enough
    (by rw [List.append_nil]) (by rw [List.append_nil]; exact short) (by rintro c ⟨⟩)
    empty.holds empty.adds
  have holds := inserted.holds
  rw [List.nil_append, List.append_nil] at holds
  have ends : miscLoop turns (cursorAt memory []) = some (some (cursorAt memory [])) := by
    obtain ⟨turns, rfl⟩ := Nat.exists_eq_succ_of_ne_zero nonzero
    have misc : isXmlMisc (cursorAt memory []).p = some false := notMisc_terminator
    rw [miscLoop, bind_of_some misc]
    rfl
  refine ⟨now, ?_, ?_, holds.shown inserted.different inserted.stores⟩
  · have notShort : ¬ (nodeText elem inner).length < 1 := by omega
    rw [xmlParse, Logged.lift_bind _ (ensure_of positive), Logged.lift_bind _ deleted, text]
    dsimp only
    rw [same, if_neg notShort, cursor, Logged.result_of_bind _ front]
    dsimp only
    rw [Logged.result_of_bind _ parsed]
    dsimp only
    rw [if_neg (by decide), Logged.lift_bind _ ends]
    rfl
  · rw [holds.count, inserted.stores.labels_length]

/-- The forest of an array that is built, and can be read. -/
theorem Built.readable (built : Built xml) (nonempty : 0 < xml.numElements)
    (legible : ∀ i elem, i < xml.numElements → xml.elementAt i = some elem → Legible elem) :
    ∃ elem inner, xml.numElements = (cons elem inner nil).labels.length ∧
      Shown xml 0 (cons elem inner nil) ∧
      ∀ other ∈ (cons elem inner nil).nodes, Readable other := by
  obtain ⟨forest, tree⟩ := built.isTree
  have known : ∀ pointer ∈ forest.nodes, ∃ elem, xml.plainAt pointer = some elem := by
    intro pointer member
    obtain ⟨elem, stored, -⟩ := tree.holds.ends pointer (mem_labels.mpr member)
    refine ⟨elem.plain, ?_⟩
    rw [Xml.plainAt, stored]
    rfl
  obtain ⟨elems, stores⟩ := exists_stores known
  have count := tree.holds.count
  rw [stores.labels_length] at count
  have readable : ∀ other ∈ elems.nodes, Readable other := by
    intro other member
    obtain ⟨pointer, among, here⟩ := stores.mem member
    have proper := tree.proper pointer other here
    obtain ⟨elem, stored, rfl⟩ := Option.map_eq_some_iff.mp here
    obtain ⟨i, inside, used⟩ := List.getElem_of_mem (mem_labels.mpr among)
    have slot := tree.holds.slots i pointer (List.getElem?_eq_some_iff.mpr ⟨inside, used⟩)
    have found : xml.elementAt i = some elem := by
      rw [Xml.elementAt, bind_of_some slot]
      exact stored
    rw [← tree.holds.count] at inside
    obtain ⟨isName, named, attributes, content⟩ := legible i elem inside found
    exact ⟨⟨isName, named, attributes, content⟩, proper, rfl⟩
  obtain rfl | ⟨root, children, rfl⟩ := tree.single
  · rw [tree.holds.count] at nonempty
    exact absurd nonempty (Nat.lt_irrefl 0)
  · have shown := tree.holds.shown tree.different stores
    cases stores with
    | cons here inside later =>
      cases later with
      | nil => exact ⟨_, _, count, shown, readable⟩

/-- The text of an array that shows a forest is that of the forest. -/
theorem Shown.messageText_eq (shown : Shown xml 0 elems)
    (count : xml.numElements = elems.labels.length) (named : ∀ elem ∈ elems.nodes, elem.name ≠ []) :
    messageText xml = forestText elems := by
  obtain ⟨pieces, printed, text⟩ := shown.pieces named
  rw [messageText, count, (printed_of_pieces printed).1, text]

/-- The letters are no terminators. -/
theorem letters_ne : (0x62 : UInt8) ≠ 0 ∧ (0x63 : UInt8) ≠ 0 ∧ (0x64 : UInt8) ≠ 0 ∧
    (0x78 : UInt8) ≠ 0 := by
  decide

/-- The root `<a b="c">x</a>`. -/
def rootElement : Element :=
  (elementAddAttribute (elementNew nameA.bytes (some [0x78])) [0x62] [0x63] attributeTail).2

/-- The array of the root alone. -/
def rootOnly : Xml where
  root := [some 0, some 0] ++ List.replicate 254 none
  numElements := 2
  elements := [⟨none, [0x61], some [0x78], 1, [⟨none, [0x62], [0x63]⟩]⟩]

/-- The array of the root with `<d/>` inside. -/
def rootWithChild : Xml where
  root := [some 0, some 1, some 1, some 0] ++ List.replicate 252 none
  numElements := 4
  elements := [⟨none, [0x61], some [0x78], 3, [⟨none, [0x62], [0x63]⟩]⟩,
    ⟨none, [0x64], none, 2, []⟩]

/-- The array is built from two elements and an attribute. -/
theorem rootWithChild_built : Built rootWithChild := by
  obtain ⟨b, c, d, x⟩ := letters_ne
  have root : Made rootElement :=
    .attributed (.new nameA (some (.single 0x78 x))) (.single 0x62 b) (.single 0x63 c) attributeTail
  have child : Made (elementNew [0x64] none) := .new (.single 0x64 d) none
  have first : xmlNew.addElement (-1) (-1) rootElement = some (rootOnly, 0) := by
    decide +kernel
  have second : rootOnly.addElement 0 (-1) (elementNew [0x64] none) =
      some (rootWithChild, 1) := by
    decide +kernel
  have built : Built rootOnly := .add .new root (.inl (by decide)) first (Int.le_refl 0)
  exact .add built child (.inr (by decide)) second (by decide)

/-- The elements of the array can be read. -/
theorem rootWithChild_legible (i : Nat) (elem : Element)
    (here : rootWithChild.elementAt i = some elem) : Legible elem := by
  obtain ⟨slot, -, here⟩ := Option.bind_eq_some_iff.mp here
  obtain ⟨pointer, -, stored⟩ := Option.bind_eq_some_iff.mp here
  have member : elem ∈ rootWithChild.elements := List.mem_of_getElem? stored
  have isName : ∀ c, isNameStartChar c = true → IsName [c] :=
    fun c starts => ⟨c, [], rfl, starts, fun _ absurd => by cases absurd⟩
  simp only [rootWithChild, List.mem_cons, List.not_mem_nil, or_false] at member
  obtain rfl | rfl := member
  · refine ⟨isName 0x61 (by decide), by decide, ?_, ?_⟩
    · intro a among
      obtain rfl := List.mem_singleton.mp among
      exact ⟨isName 0x62 (by decide), by decide, by decide, by decide⟩
    · rintro text ⟨⟩
      exact ⟨⟨0x78, [], rfl, by decide⟩, by decide, by decide, by decide⟩
  · refine ⟨isName 0x64 (by decide), by decide, ?_, ?_⟩
    · intro a absurd
      cases absurd
    · intro text absurd
      cases absurd

end Ezcfg.XmlTree

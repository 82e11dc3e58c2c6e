import Ezcfg.XmlTree.Parser
import Ezcfg.XmlTree.Places

/-!
# The tree while a document is parsed

Each element that the parser reads is added by a valid call: to no parent, or to the element whose
content is parsed, behind the child that came before it. So the array keeps holding a tree, also
where the document is refused. What was put into the array by calls or by parsing is a tree
therefore, with two slots for each element, and deleting the elements releases each once.
-/

namespace Ezcfg.XmlTree

open Foundation Forest

variable {xml now : Xml} {forest : Forest Nat} {pi si : Int}

/-- The array holds a tree. -/
def HoldsTree (xml : Xml) : Prop := ∃ forest, WellNested xml forest

section Contents

variable {pointer : Nat} {change : Element → Element}

/-- Changing an element leaves it in its slot. -/
theorem elementAt_modify (xml : Xml) (pointer : Nat) (change : Element → Element) (i : Nat) :
    (xml.modify pointer change).elementAt i = none ∧ xml.elementAt i = none ∨
      ∃ elem, xml.elementAt i = some elem ∧
        ((xml.modify pointer change).elementAt i = some elem ∨
          (xml.modify pointer change).elementAt i = some (change elem)) := by
  rw [Xml.elementAt, Xml.elementAt, Xml.modify]
  dsimp only
  cases slot : xml.root[i]? with
  | none => exact .inl ⟨rfl, rfl⟩
  | some leads =>
    rw [bind_of_some rfl, bind_of_some rfl]
    cases leads with
    | none => exact .inl ⟨rfl, rfl⟩
    | some label =>
      rw [bind_of_some rfl, bind_of_some rfl, List.getElem?_modify]
      cases found : xml.elements[label]? with
      | none => exact .inl ⟨rfl, rfl⟩
      | some elem =>
        refine .inr ⟨elem, rfl, ?_⟩
        rw [Option.map_eq_map, Option.map_some]
        split
        · exact .inr rfl
        · exact .inl rfl

/-- A change that keeps the end of an element keeps where the elements end. -/
theorem endsAt_modify (keeps : ∀ elem, (change elem).etagIndex = elem.etagIndex) (i final : Nat) :
    EndsAt (xml.modify pointer change) i final ↔ EndsAt xml i final := by
  rw [EndsAt, EndsAt]
  obtain ⟨gone, goneToo⟩ | ⟨elem, found, same | changed⟩ := elementAt_modify xml pointer change i
  · rw [gone, goneToo]
  · rw [found, same]
  · rw [found, changed]
    constructor
    · rintro ⟨_, here, ends⟩
      obtain rfl := Option.some.inj here
      exact ⟨elem, rfl, by rw [← ends, keeps]⟩
    · rintro ⟨_, here, ends⟩
      obtain rfl := Option.some.inj here
      exact ⟨change elem, rfl, by rw [← ends, keeps]⟩

/-- Such a change keeps what starts where, and what is a child of what. -/
theorem keptUpTo_modify (keeps : ∀ elem, (change elem).etagIndex = elem.etagIndex) (bound : Nat) :
    KeptUpTo bound xml (xml.modify pointer change) := by
  have starts : ∀ i, Starts (xml.modify pointer change) i ↔ Starts xml i := by
    intro i
    simp only [Starts, endsAt_modify keeps]
    rfl
  have encloses : ∀ outer inner,
      Encloses (xml.modify pointer change) outer inner ↔ Encloses xml outer inner := by
    intro outer inner
    simp only [Encloses, endsAt_modify keeps]
  refine ⟨fun i _ here => (starts i).mpr here, ?_⟩
  intro parent child _ isChild
  refine ⟨(starts _).mpr isChild.outer, (starts _).mpr isChild.inner,
    (encloses _ _).mpr isChild.inside, ?_⟩
  intro other here enclosed enclosing
  rw [starts] at here
  rw [encloses] at enclosed enclosing
  exact isChild.between other here enclosed enclosing

/-- Such a change keeps the tree. -/
theorem WellNested.modify (tree : WellNested xml forest)
    (keeps : ∀ elem, (change elem).etagIndex = elem.etagIndex) :
    WellNested (xml.modify pointer change) forest where
  holds := by
    refine ⟨tree.holds.count, tree.holds.room, tree.holds.slots, ?_⟩
    intro label member
    obtain ⟨elem, found, last⟩ := tree.holds.ends label member
    rw [Xml.modify]
    dsimp only
    rw [List.getElem?_modify, found, Option.map_eq_map, Option.map_some]
    split
    · refine ⟨change elem, rfl, ?_⟩
      rw [keeps]
      exact last
    · exact ⟨elem, rfl, last⟩
  different := tree.different
  single := tree.single
  empty nothing := by
    obtain ⟨gone, -⟩ | ⟨elem, found, -⟩ := elementAt_modify xml pointer change 0
    · exact gone
    · rw [tree.empty nothing] at found
      cases found

end Contents

/-- A tag puts an element into the array, or it leaves the array. -/
theorem parseTag_joined
    {loop : List UInt8 → Element → List UInt8 → Option (Option (Element × List UInt8))}
    {final : List UInt8} {state next : State} {ei : Int} (tree : HoldsTree state.xml)
    (valid : ValidCall state.xml pi si)
    (parsed : parseTag loop final state pi si = some (ei, next)) :
    HoldsTree next.xml ∧ (ei = -1 ∨ ∃ index : Nat, ei = index ∧ Joined state.xml next.xml pi index) := by
  obtain ⟨forest, tree⟩ := tree
  rw [parseTag] at parsed
  obtain ⟨name, -, parsed⟩ := Option.bind_eq_some_iff.mp parsed
  obtain ⟨stop, -, parsed⟩ := Option.bind_eq_some_iff.mp parsed
  cases stop with
  | none =>
    obtain ⟨rfl, rfl⟩ := Prod.mk.inj (Option.some.inj parsed)
    exact ⟨⟨forest, tree⟩, .inl rfl⟩
  | some stop =>
    obtain ⟨first, -, parsed⟩ := Option.bind_eq_some_iff.mp parsed
    obtain ⟨p, -, parsed⟩ := Option.bind_eq_some_iff.mp parsed
    obtain ⟨attributes, -, parsed⟩ := Option.bind_eq_some_iff.mp parsed
    cases attributes with
    | none =>
      obtain ⟨rfl, rfl⟩ := Prod.mk.inj (Option.some.inj parsed)
      exact ⟨⟨forest, tree⟩, .inl rfl⟩
    | some read =>
      obtain ⟨elem, p⟩ := read
      rw [closeTag] at parsed
      obtain ⟨q, -, parsed⟩ := Option.bind_eq_some_iff.mp parsed
      obtain ⟨q, -, parsed⟩ := Option.bind_eq_some_iff.mp parsed
      obtain ⟨now, index, grown, done, treeNow, joined⟩ := valid.added tree elem
      rw [bind_of_some done] at parsed
      obtain ⟨rfl, rfl⟩ := Prod.mk.inj (Option.some.inj parsed)
      exact ⟨⟨grown, treeNow⟩, .inr ⟨index, rfl, joined⟩⟩

/-- Character data is put into an element. -/
theorem parseXmlCharData_kept {state next : State} {parent : Nat} {done : Bool}
    (tree : HoldsTree state.xml)
    (parsed : parseXmlCharData state parent = some (done, next)) :
    HoldsTree next.xml ∧ ∀ bound, KeptUpTo bound state.xml next.xml := by
  obtain ⟨forest, tree⟩ := tree
  rw [parseXmlCharData] at parsed
  obtain ⟨slot, -, parsed⟩ := Option.bind_eq_some_iff.mp parsed
  cases slot with
  | none =>
    obtain ⟨-, rfl⟩ := Prod.mk.inj (Option.some.inj parsed)
    exact ⟨⟨forest, tree⟩, fun bound => .refl bound _⟩
  | some pointer =>
    obtain ⟨p, -, parsed⟩ := Option.bind_eq_some_iff.mp parsed
    obtain ⟨q, -, parsed⟩ := Option.bind_eq_some_iff.mp parsed
    obtain ⟨-, rfl⟩ := Prod.mk.inj (Option.some.inj parsed)
    refine ⟨⟨forest, tree.modify fun _ => rfl⟩, ?_⟩
    intro bound
    apply keptUpTo_modify
    intro _
    rfl

/-- Parsing an element keeps the tree, and the element that comes out of it joins its parent. -/
def Parses (parseElement : State → Int → Int → Logged Call (Int × State)) : Prop :=
  ∀ (state next : State) (pi si ei : Int), HoldsTree state.xml → ValidCall state.xml pi si →
    (parseElement state pi si).result = some (ei, next) →
    HoldsTree next.xml ∧ (ei = -1 ∨ ∃ index : Nat, ei = index ∧ Joined state.xml next.xml pi index)

/-- Where a parent is given, it starts there, and the sibling is none or a child of it. -/
theorem ValidCall.sibling (valid : ValidCall xml pi si) {parent : Nat} (given : pi = parent) :
    Starts xml parent ∧ (si = -1 ∨ ∃ sibling : Nat, si = sibling ∧ IsChild xml parent sibling) := by
  cases valid with
  | first empty => omega
  | last starts =>
    obtain rfl := Int.ofNat.inj given
    exact ⟨starts, .inl rfl⟩
  | beside isChild =>
    obtain rfl := Int.ofNat.inj given
    exact ⟨isChild.outer, .inr ⟨_, rfl, isChild⟩⟩

/-- A call that is valid stays so when everything is kept. -/
theorem ValidCall.kept {parent : Nat} (valid : ValidCall xml parent si)
    (kept : ∀ bound, KeptUpTo bound xml now) : ValidCall now parent si := by
  obtain ⟨starts, rfl | ⟨sibling, rfl, isChild⟩⟩ := valid.sibling rfl
  · exact .last ((kept parent).starts parent (Nat.le_refl _) starts)
  · exact .beside ((kept sibling).children parent sibling (Nat.le_refl _) isChild)

/-- Character data leaves the tree. -/
theorem charDataOr_kept {state next : State} {parent : Nat} {done : Bool}
    (tree : HoldsTree state.xml)
    (parsed : (charDataOr state parent).result = some (done, next)) :
    HoldsTree next.xml ∧ ∀ bound, KeptUpTo bound state.xml next.xml := by
  rw [charDataOr] at parsed
  obtain ⟨markup, -, parsed⟩ := Logged.result_bind parsed
  cases markup with
  | true =>
    obtain ⟨-, rfl⟩ := Prod.mk.inj (Option.some.inj parsed)
    exact ⟨tree, fun bound => .refl bound _⟩
  | false => exact parseXmlCharData_kept tree parsed

/-- A part that only moves the cursor leaves the tree. -/
theorem skipPart_kept {state next : State} {ci : Int} {index : Option Int}
    {part : Cursor → Option (Option Cursor)}
    (parsed : (skipPart state ci part).result = some (index, next)) :
    next.xml = state.xml ∧ ∀ same, index = some same → same = ci := by
  rw [skipPart] at parsed
  obtain ⟨cursor, -, parsed⟩ := Logged.result_bind parsed
  cases cursor with
  | none =>
    obtain ⟨rfl, rfl⟩ := Prod.mk.inj (Option.some.inj parsed)
    exact ⟨rfl, fun _ absurd => by cases absurd⟩
  | some cursor =>
    obtain ⟨rfl, rfl⟩ := Prod.mk.inj (Option.some.inj parsed)
    exact ⟨rfl, fun _ same => (Option.some.inj same).symm⟩

/-- A part of the content keeps the tree, and its last element is a child. -/
theorem parsePart_kept {parseElement : State → Int → Int → Logged Call (Int × State)}
    (parses : Parses parseElement) {state next : State} {parent : Nat} {ci : Int}
    {index : Option Int} (tree : HoldsTree state.xml) (valid : ValidCall state.xml parent ci)
    (parsed : (parsePart parseElement state parent ci).result = some (index, next)) :
    HoldsTree next.xml ∧ ∀ last, index = some last →
      ValidCall next.xml parent last ∧ KeptUpTo parent state.xml next.xml := by
  have skipped : ∀ {part}, (skipPart state ci part).result = some (index, next) →
      HoldsTree next.xml ∧ ∀ last, index = some last →
        ValidCall next.xml parent last ∧ KeptUpTo parent state.xml next.xml := by
    intro part parsed
    obtain ⟨same, unmoved⟩ := skipPart_kept parsed
    rw [same]
    refine ⟨tree, ?_⟩
    intro last found
    rw [unmoved last found]
    exact ⟨valid, .refl parent _⟩
  rw [parsePart] at parsed
  obtain ⟨element, -, parsed⟩ := Logged.result_bind parsed
  cases element with
  | true =>
    obtain ⟨⟨ei, after⟩, done, parsed⟩ := Logged.result_bind parsed
    obtain ⟨rfl, rfl⟩ := Prod.mk.inj (Option.some.inj parsed)
    obtain ⟨treeNow, rfl | ⟨index, rfl, joined⟩⟩ := parses _ _ _ _ _ tree valid done
    · refine ⟨treeNow, ?_⟩
      intro last absurd
      cases absurd
    · refine ⟨treeNow, ?_⟩
      intro last found
      have found := found
      rw [if_neg (by omega)] at found
      obtain rfl := Option.some.inj found
      obtain ⟨isChild, kept⟩ := joined.parent parent rfl
      exact ⟨.beside isChild, kept⟩
  | false =>
    obtain ⟨reference, -, parsed⟩ := Logged.result_bind parsed
    cases reference with
    | true => exact skipped parsed
    | false =>
      obtain ⟨cdata, -, parsed⟩ := Logged.result_bind parsed
      cases cdata with
      | true => exact skipped parsed
      | false =>
        obtain ⟨instruction, -, parsed⟩ := Logged.result_bind parsed
        cases instruction with
        | true => exact skipped parsed
        | false =>
          obtain ⟨comment, -, parsed⟩ := Logged.result_bind parsed
          cases comment with
          | true => exact skipped parsed
          | false =>
            obtain ⟨rfl, rfl⟩ := Prod.mk.inj (Option.some.inj parsed)
            refine ⟨tree, ?_⟩
            intro last found
            obtain rfl := Option.some.inj found
            exact ⟨valid, .refl parent _⟩

/-- The content of an element keeps the tree, and what is in front of the element and its own
slots in order. -/
theorem contentLoop_kept {parseElement : State → Int → Int → Logged Call (Int × State)}
    (parses : Parses parseElement) (turns : Nat) {state next : State} {parent : Nat} {ci ei : Int}
    (tree : HoldsTree state.xml) (valid : ValidCall state.xml parent ci)
    (parsed : (contentLoop parseElement turns state parent ci).result = some (ei, next)) :
    HoldsTree next.xml ∧ (ei = -1 ∨ KeptUpTo parent state.xml next.xml) := by
  induction turns generalizing state ci with
  | zero => cases parsed
  | succ turns inductionHypothesis =>
    rw [contentLoop] at parsed
    obtain ⟨markup, -, parsed⟩ := Logged.result_bind parsed
    cases markup with
    | false =>
      obtain ⟨rfl, rfl⟩ := Prod.mk.inj (Option.some.inj parsed)
      exact ⟨tree, .inr (.refl parent _)⟩
    | true =>
      obtain ⟨⟨index, after⟩, part, parsed⟩ := Logged.result_bind parsed
      obtain ⟨treeAfter, goesOn⟩ := parsePart_kept parses tree valid part
      cases index with
      | none =>
        obtain ⟨rfl, rfl⟩ := Prod.mk.inj (Option.some.inj parsed)
        exact ⟨treeAfter, .inl rfl⟩
      | some last =>
        obtain ⟨validAfter, kept⟩ := goesOn last rfl
        obtain ⟨⟨done, later⟩, data, parsed⟩ := Logged.result_bind parsed
        obtain ⟨treeLater, keptAll⟩ := charDataOr_kept treeAfter data
        obtain ⟨treeNow, refused | keptToo⟩ :=
          inductionHypothesis treeLater (validAfter.kept keptAll) parsed
        · exact ⟨treeNow, .inl refused⟩
        · have least := Nat.le_refl parent
          exact ⟨treeNow, .inr ((kept.trans (keptAll parent) least).trans keptToo least)⟩

/-- The content of an element, with the character data in front. -/
theorem parseElementContent_kept {parseElement : State → Int → Int → Logged Call (Int × State)}
    (parses : Parses parseElement) (turns : Nat) {state next : State} {parent : Nat} {ei : Int}
    (tree : HoldsTree state.xml) (starts : Starts state.xml parent)
    (parsed : (parseElementContent parseElement turns state parent (-1)).result = some (ei, next)) :
    HoldsTree next.xml ∧ (ei = -1 ∨ KeptUpTo parent state.xml next.xml) := by
  rw [parseElementContent] at parsed
  obtain ⟨⟨done, after⟩, data, parsed⟩ := Logged.result_bind parsed
  obtain ⟨treeAfter, keptAll⟩ := charDataOr_kept tree data
  have valid : ValidCall after.xml parent (-1) := (ValidCall.last starts).kept keptAll
  cases done with
  | false =>
    obtain ⟨rfl, rfl⟩ := Prod.mk.inj (Option.some.inj parsed)
    exact ⟨treeAfter, .inl rfl⟩
  | true =>
    obtain ⟨treeNow, refused | kept⟩ := contentLoop_kept parses turns treeAfter valid parsed
    · exact ⟨treeNow, .inl refused⟩
    · exact ⟨treeNow, .inr ((keptAll parent).trans kept (Nat.le_refl parent))⟩

/-- An end tag leaves the array. -/
theorem parseElementEtag_xml {state next : State} {ei : Nat} {etag : Int}
    (parsed : parseElementEtag state ei = some (etag, next)) : next.xml = state.xml := by
  rw [parseElementEtag] at parsed
  obtain ⟨_, -, parsed⟩ := Option.bind_eq_some_iff.mp parsed
  obtain ⟨slot, -, parsed⟩ := Option.bind_eq_some_iff.mp parsed
  obtain ⟨name, -, parsed⟩ := Option.bind_eq_some_iff.mp parsed
  obtain ⟨stop, -, parsed⟩ := Option.bind_eq_some_iff.mp parsed
  cases stop with
  | none =>
    obtain ⟨-, rfl⟩ := Prod.mk.inj (Option.some.inj parsed)
    rfl
  | some final =>
    obtain ⟨first, -, parsed⟩ := Option.bind_eq_some_iff.mp parsed
    obtain ⟨p, -, parsed⟩ := Option.bind_eq_some_iff.mp parsed
    obtain ⟨elem, -, parsed⟩ := Option.bind_eq_some_iff.mp parsed
    obtain ⟨here, -, parsed⟩ := Option.bind_eq_some_iff.mp parsed
    split at parsed
    · obtain ⟨behind, -, parsed⟩ := Option.bind_eq_some_iff.mp parsed
      obtain ⟨q, -, parsed⟩ := Option.bind_eq_some_iff.mp parsed
      obtain ⟨-, rfl⟩ := Prod.mk.inj (Option.some.inj parsed)
      rfl
    · obtain ⟨-, rfl⟩ := Prod.mk.inj (Option.some.inj parsed)
      rfl

/-- An element with content joins its parent. -/
theorem parseElementStagContentEtag_joined
    {parseElement : State → Int → Int → Logged Call (Int × State)}
    (parses : Parses parseElement) (turns : Nat) :
    Parses (parseElementStagContentEtag parseElement turns) := by
  intro state next pi si ei tree valid parsed
  rw [parseElementStagContentEtag] at parsed
  obtain ⟨⟨stag, after⟩, tag, parsed⟩ := Logged.result_bind parsed
  obtain ⟨treeAfter, rfl | ⟨index, rfl, joined⟩⟩ := parseTag_joined tree valid tag
  · obtain ⟨rfl, rfl⟩ := Prod.mk.inj (Option.some.inj parsed)
    exact ⟨treeAfter, .inl rfl⟩
  · dsimp only at parsed
    rw [if_neg (by omega)] at parsed
    obtain ⟨⟨content, later⟩, inside, parsed⟩ := Logged.result_bind parsed
    obtain ⟨treeLater, refused⟩ :=
      parseElementContent_kept parses turns treeAfter joined.starts inside
    dsimp only at parsed
    split at parsed
    · obtain ⟨rfl, rfl⟩ := Prod.mk.inj (Option.some.inj parsed)
      exact ⟨treeLater, .inl rfl⟩
    · rename_i accepted
      have kept := refused.resolve_left accepted
      have joinedLater : Joined state.xml later.xml pi index := by
        refine ⟨kept.starts index (Nat.le_refl _) joined.starts, ?_⟩
        intro parent same
        obtain ⟨isChild, keptFirst⟩ := joined.parent parent same
        have less : parent < index := isChild.inside.1
        exact ⟨kept.children parent index (Nat.le_refl _) isChild,
          keptFirst.trans kept (by omega)⟩
      obtain ⟨endTag, -, parsed⟩ := Logged.result_bind parsed
      cases endTag with
      | false =>
        obtain ⟨rfl, rfl⟩ := Prod.mk.inj (Option.some.inj parsed)
        exact ⟨treeLater, .inl rfl⟩
      | true =>
        obtain ⟨_, -, parsed⟩ := Logged.result_bind parsed
        obtain ⟨⟨etag, final⟩, closing, parsed⟩ := Logged.result_bind parsed
        have same := parseElementEtag_xml closing
        obtain ⟨rfl, rfl⟩ := Prod.mk.inj (Option.some.inj parsed)
        rw [same]
        refine ⟨treeLater, ?_⟩
        split
        · exact .inl rfl
        · exact .inr ⟨index, rfl, joinedLater⟩

/-- Parsing an element keeps the tree, by induction on the turns. -/
theorem parseXmlDocumentElement_parses (turns : Nat) : Parses (parseXmlDocumentElement turns) := by
  induction turns with
  | zero =>
    intro state next pi si ei tree valid parsed
    cases parsed
  | succ turns inductionHypothesis =>
    intro state next pi si ei tree valid parsed
    rw [parseXmlDocumentElement] at parsed
    obtain ⟨_, -, parsed⟩ := Logged.result_bind parsed
    obtain ⟨startTag, -, parsed⟩ := Logged.result_bind parsed
    cases startTag with
    | false =>
      obtain ⟨rfl, rfl⟩ := Prod.mk.inj (Option.some.inj parsed)
      exact ⟨tree, .inl rfl⟩
    | true =>
      obtain ⟨emptyTag, -, parsed⟩ := Logged.result_bind parsed
      cases emptyTag with
      | true => exact parseTag_joined tree valid parsed
      | false =>
        exact parseElementStagContentEtag_joined inductionHypothesis turns _ _ _ _ _ tree valid
          parsed

/-- Parsing a document into an array that holds a tree leaves one that does, whatever the document
and the bytes behind it are, and whether it is accepted or not. -/
theorem xmlParse_holdsTree (turns : Nat) {prolog after : Prolog} {text behind : List UInt8}
    {len : Int} {accepted : Bool} (tree : HoldsTree xml)
    (parsed : (xmlParse turns xml prolog text behind len).result = some (accepted, now, after)) :
    HoldsTree now := by
  obtain ⟨forest, tree⟩ := tree
  obtain ⟨cleared, deleted, treeCleared⟩ := tree.deleteElements
  rw [xmlParse] at parsed
  obtain ⟨_, -, parsed⟩ := Logged.result_bind parsed
  rw [Logged.lift_bind _ deleted] at parsed
  dsimp only at parsed
  split at parsed
  · obtain ⟨-, rfl, -⟩ := Prod.mk.inj (Option.some.inj parsed) |>.imp id Prod.mk.inj
    exact ⟨nil, treeCleared⟩
  · obtain ⟨⟨prologRead, cursor⟩, -, parsed⟩ := Logged.result_bind parsed
    cases cursor with
    | none =>
      obtain ⟨-, rfl, -⟩ := Prod.mk.inj (Option.some.inj parsed) |>.imp id Prod.mk.inj
      exact ⟨nil, treeCleared⟩
    | some cursor =>
      obtain ⟨⟨ei, state⟩, element, parsed⟩ := Logged.result_bind parsed
      have valid : ValidCall cleared (-1) (-1) := .first treeCleared.holds.count
      have treeNow :=
        (parseXmlDocumentElement_parses turns _ _ _ _ _ ⟨nil, treeCleared⟩ valid element).1
      dsimp only at parsed
      split at parsed
      · obtain ⟨-, rfl, -⟩ := Prod.mk.inj (Option.some.inj parsed) |>.imp id Prod.mk.inj
        exact treeNow
      · obtain ⟨misc, -, parsed⟩ := Logged.result_bind parsed
        obtain ⟨-, rfl, -⟩ := Prod.mk.inj (Option.some.inj parsed) |>.imp id Prod.mk.inj
        exact treeNow

/-- An array that comes out of a run of valid calls and of parsing documents. -/
inductive Reached : Xml → Prop where
  | new : Reached xmlNew
  | added {xml now : Xml} {pi si index : Int} {elem : Element} (reached : Reached xml)
    (valid : ValidCall xml pi si) (done : xml.addElement pi si elem = some (now, index)) :
    Reached now
  | parsed {xml now : Xml} {turns : Nat} {prolog after : Prolog} {text behind : List UInt8}
    {len : Int} {accepted : Bool} (reached : Reached xml)
    (returned : (xmlParse turns xml prolog text behind len).result =
      some (accepted, now, after)) : Reached now

/-- The array is a tour through a tree: each element has the slot where it starts and the one
where it ends. Every valid call is granted; the new element becomes the root, the last child of
its parent, or the child behind its sibling, and the others stay in order. Deleting the elements
releases each of them once. -/
structure Tour (xml : Xml) (forest : Forest Nat) : Prop where
  tree : WellNested xml forest
  slots : TwoSlots xml forest
  root : xml.numElements = 0 → ∀ elem, ∃ now, xml.addElement (-1) (-1) elem = some (now, 0) ∧
    Added xml now elem 0 forest (cons xml.elements.length nil nil)
  last : ∀ parent elem, Starts xml parent → ∃ (node : Child Nat) (now : Xml) (index : Nat),
    NodeAt 0 forest node ∧ node.start = parent ∧
    xml.addElement parent (-1) elem = some (now, (index : Int)) ∧ index + 1 = node.behind ∧
    Added xml now elem index forest (addLast node.label xml.elements.length forest)
  beside : ∀ parent sibling elem, IsChild xml parent sibling →
    ∃ (outer inner : Child Nat) (now : Xml) (index : Nat), NodeAt 0 forest outer ∧
    outer.start = parent ∧ inner ∈ tops (outer.start + 1) outer.children ∧ inner.start = sibling ∧
    xml.addElement parent sibling elem = some (now, (index : Int)) ∧ index = inner.behind ∧
    Added xml now elem index forest (addBeside inner.label xml.elements.length forest)
  released : forest.nodes.Nodup ∧ ∃ now, xml.deleteElements = some (now, forest.nodes) ∧
    now.numElements = 0

/-- A tree is a tour. -/
theorem WellNested.tour (tree : WellNested xml forest) : Tour xml forest where
  tree := tree
  slots := tree.twoSlots
  root empty elem := by
    obtain rfl | ⟨root, children, rfl⟩ := tree.single
    · exact add_first tree elem
    · rw [tree.holds.count, labels_cons_length] at empty
      omega
  last parent elem starts := by
    obtain ⟨node, found, rfl⟩ := tree.exists_node starts
    obtain ⟨now, index, done, place, added⟩ := add_last tree found elem
    exact ⟨node, now, index, found, rfl, done, place, added⟩
  beside parent sibling elem isChild := by
    obtain ⟨outer, inner, found, rfl, member, rfl⟩ := tree.exists_child isChild
    obtain ⟨now, index, done, place, added⟩ := add_beside tree found member elem
    exact ⟨outer, inner, now, index, found, rfl, member, rfl, done, place, added⟩
  released := by
    obtain ⟨now, done, empty⟩ := tree.deleteElements
    exact ⟨tree.different, now, done, empty.holds.count⟩

/-- A new array holds an empty tree. -/
theorem xmlNew_wellNested : WellNested xmlNew nil where
  holds := xmlNew_holds
  different := List.nodup_nil
  single := .inl rfl
  empty _ := by
    rw [Xml.elementAt, xmlNew]
    dsimp only
    rw [List.getElem?_replicate, if_pos (by decide)]
    rfl

/-- Every array that is reached holds a tree, by induction on the run. -/
theorem Reached.holdsTree (reached : Reached xml) : HoldsTree xml := by
  induction reached with
  | new => exact ⟨nil, xmlNew_wellNested⟩
  | added reached valid done inductionHypothesis =>
    obtain ⟨forest, tree⟩ := inductionHypothesis
    obtain ⟨now, index, grown, doneToo, treeNow, -⟩ := valid.added tree _
    rw [done] at doneToo
    obtain ⟨rfl, -⟩ := Prod.mk.inj (Option.some.inj doneToo)
    exact ⟨grown, treeNow⟩
  | parsed reached returned inductionHypothesis =>
    exact xmlParse_holdsTree _ inductionHypothesis returned

end Ezcfg.XmlTree

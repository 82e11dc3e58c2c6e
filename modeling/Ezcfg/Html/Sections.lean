import Ezcfg.Html.Document
import Ezcfg.Http.Handle

/-!
# The slots of the sections

The slots of the root, the head and the body are remembered when these are put in, while every
later element moves what is behind its place. What is remembered stays right as long as no element
is put in front of the body, and no head is put in once there is a body. `Sections` are the
elements that became the root, the head and the body.
-/

namespace Ezcfg.Html

open Foundation Forest XmlTree

/-- The functions that put in a section. -/
inductive Setter where
  | root
  | head
  | body
deriving DecidableEq

/-- A call of a builder function. -/
inductive Call where
  | setRoot (name : CString)
  | setHead (name : CString)
  | setBody (name : CString)
  | addHeadChild (pi si : Int) (name : CString) (content : Option CString)
  | addBodyChild (pi si : Int) (name : CString) (content : Option CString)

/-- What a call does. -/
def Call.perform (html : Document) : Call → Option (Document × Int)
  | .setRoot name => htmlSetRoot html name.bytes
  | .setHead name => htmlSetHead html name.bytes
  | .setBody name => htmlSetBody html name.bytes
  | .addHeadChild pi si name content =>
    htmlAddHeadChild html pi si name.bytes (content.map CString.bytes)
  | .addBodyChild pi si name content =>
    htmlAddBodyChild html pi si name.bytes (content.map CString.bytes)

/-- The section that a call puts in. -/
def Call.setter : Call → Option Setter
  | .setRoot _ => some .root
  | .setHead _ => some .head
  | .setBody _ => some .body
  | .addHeadChild .. => none
  | .addBodyChild .. => none

/-- An element starts in the slot of an index. -/
def StartIndex (xml : Xml) (index : Int) : Prop := 0 ≤ index ∧ Starts xml index.toNat

/-- A parent and a sibling that are there; there may be no sibling. -/
def Current (xml : Xml) (pi si : Int) : Prop := StartIndex xml pi ∧ (si < 0 ∨ StartIndex xml si)

/-- A call is given the indices of elements. -/
def Call.IsCurrent (xml : Xml) : Call → Prop
  | .addHeadChild pi si _ _ => Current xml pi si
  | .addBodyChild pi si _ _ => Current xml pi si
  | _ => True

/-- The elements that became sections. -/
structure Sections where
  root : Option Nat
  head : Option Nat
  body : Option Nat
deriving DecidableEq

/-- No element has become a section. -/
def noSections : Sections := ⟨none, none, none⟩

/-- An element becomes a section by a call. -/
def Sections.put (sections : Sections) (elem : Nat) : Call → Sections
  | .setRoot _ => { sections with root := some elem }
  | .setHead _ => { sections with head := some elem }
  | .setBody _ => { sections with body := some elem }
  | .addHeadChild .. => sections
  | .addBodyChild .. => sections

/-- The sections behind a call with its result; an element that is put in is the next one. -/
def Sections.behind (sections : Sections) (html : Document) (call : Call) (index : Int) :
    Sections :=
  if index < 0 then sections else sections.put html.xml.elements.length call

/-- Calls one behind the other, from a new or a reset document on. Each section is put in at most
once, and of each call is known what is allowed. -/
inductive Run (allowed : Document → Call → Prop) : List Call → Document → Sections → Prop where
  | new : Run allowed [] htmlNew noSections
  | reset {html now : Document} (done : htmlResetAttributes html = some now) :
    Run allowed [] now noSections
  | call {calls : List Call} {html now : Document} {sections : Sections} {index : Int}
    (run : Run allowed calls html sections) (call : Call) (current : call.IsCurrent html.xml)
    (once : call.setter = none ∨ call.setter ∉ calls.map Call.setter) (may : allowed html call)
    (performed : call.perform html = some (now, index)) :
    Run allowed (calls ++ [call]) now (sections.behind html call index)

/-- An index that is not negative is that of the slot where an element starts. -/
def StartsIn (xml : Xml) (index : Int) (elem : Option Nat) : Prop :=
  0 ≤ index → ∃ pointer, elem = some pointer ∧
    xml.root[index.toNat]? = some (some pointer) ∧ Starts xml index.toNat

/-- The indices are those of the sections, and the body is behind the head. -/
structure Placed (html : Document) (sections : Sections) : Prop where
  root : StartsIn html.xml html.rootIndex sections.root
  head : StartsIn html.xml (htmlGetHeadIndex html) sections.head
  body : StartsIn html.xml (htmlGetBodyIndex html) sections.body
  order : 0 ≤ html.headIndex → 0 ≤ html.bodyIndex →
    ∃ last, EndsAt html.xml html.headIndex.toNat last ∧ last < html.bodyIndex

/-- The element that an element is put behind, or in. -/
def neighbour (pi si : Int) : Int := if si < 0 then pi else si

/-- This element ends behind the slot that is remembered for the body. -/
def PutBehind (html : Document) (pi si : Int) : Prop :=
  ∀ final, EndsAt html.xml (neighbour pi si).toNat final → html.bodyIndex < final

/-- A call puts nothing in front of the body: the head is put in while there is no body, and a
child where its neighbour ends behind the start of the body. -/
def Call.SparesBody (html : Document) : Call → Prop
  | .setHead _ => html.bodyIndex < 0
  | .addHeadChild pi si _ _ => 0 ≤ html.headIndex → PutBehind html pi si
  | .addBodyChild pi si _ _ => PutBehind html pi si
  | _ => True

/-! ## One element more -/

section Growth

variable {xml now : Xml} {before after : List Nat} {elem : Element}

/-- An element that is put in gets the place that its neighbour leaves. -/
theorem addElement_current {pointers : List Nat} (holds : Holds xml pointers) {pi si : Int}
    (current : Current xml pi si) (elem : Element) :
    ∃ (now : Xml) (before after : List Nat) (final : Nat), pointers = before ++ after ∧
      xml.addElement pi si elem = some (now, (before.length : Int)) ∧
      Grown xml before after elem now ∧ EndsAt xml (neighbour pi si).toNat final ∧
      final < xml.numElements ∧ neighbour pi si < final ∧
      before.length = if si < 0 then final else final + 1 := by
  have ending : ∀ index : Int, StartIndex xml index → ∃ (place pointer final : Nat),
      index = place ∧ pointers[place]? = some pointer ∧ LastAt pointers pointer final ∧
        EndsAt xml index.toNat final ∧ index < final := by
    rintro index ⟨low, inside, final, ends, later⟩
    obtain ⟨place, rfl⟩ := Int.eq_ofNat_of_zero_le low
    rw [Int.toNat_natCast] at inside ends later
    obtain ⟨pointer, used⟩ : ∃ pointer, pointers[place]? = some pointer :=
      ⟨_, List.getElem?_eq_getElem (Nat.lt_of_lt_of_eq inside holds.count)⟩
    obtain ⟨here, -, last⟩ := holds.ends _ (List.mem_of_getElem? used)
    rw [(holds.endsAt used last).unique ends] at last
    exact ⟨place, pointer, final, rfl, used, last, ends, Int.ofNat_lt.mpr later⟩
  obtain ⟨parent, sibling⟩ := current
  obtain ⟨place, pointer, final, rfl, used, last, ends, later⟩ := ending pi parent
  by_cases alone : si < 0
  · rw [neighbour, if_pos alone]
    obtain ⟨before, after, rfl, length⟩ := exists_cut (Nat.le_of_lt last.lt)
    have inside := last.lt
    rw [← length] at last
    obtain ⟨now, done, grown⟩ := addElement_child holds used alone last (by omega) elem
    refine ⟨now, before, after, final, rfl, done, grown, ends, ?_, later, ?_⟩
    · rw [holds.count]
      exact inside
    · rw [if_pos alone]
      exact length
  · rw [neighbour, if_neg alone]
    obtain ⟨placeToo, other, finalToo, rfl, usedToo, lastToo, endsToo, laterToo⟩ :=
      ending si (sibling.resolve_left alone)
    obtain ⟨before, after, rfl, length⟩ := exists_cut (Nat.succ_le_of_lt lastToo.lt)
    obtain ⟨now, done, grown⟩ :=
      addElement_beside holds used usedToo lastToo length (by omega) elem
    refine ⟨now, before, after, finalToo, rfl, done, grown, endsToo, ?_, laterToo, ?_⟩
    · rw [holds.count]
      exact lastToo.lt
    · rw [if_neg alone]
      exact length

/-- A section in front of a new element stays where it is. -/
theorem StartsIn.grown {index : Int} {known : Option Nat} (starts : StartsIn xml index known)
    (holds : Holds xml (before ++ after)) (grown : Grown xml before after elem now)
    (below : index < before.length) : StartsIn now index known := by
  intro low
  obtain ⟨pointer, same, slot, inside, final, ends, later⟩ := starts low
  obtain ⟨place, rfl⟩ := Int.eq_ofNat_of_zero_le low
  have front : place < before.length := Int.ofNat_lt.mp below
  rw [Int.toNat_natCast] at slot inside ends later ⊢
  have used : before[place]? = some before[place] := List.getElem?_eq_getElem front
  have held := holds.slots place before[place] (by rw [List.getElem?_append_left front]; exact used)
  obtain rfl : before[place] = pointer := Option.some.inj (Option.some.inj (held.symm.trans slot))
  obtain ⟨last, old, new⟩ := holds.endsAt_insert grown.holds holds.fresh front
  obtain rfl := old.unique ends
  refine ⟨before[place], same, ?_, ?_, _, new, ?_⟩
  · apply grown.holds.slots
    rw [List.append_assoc, List.getElem?_append_left front]
    exact used
  · have count := holds.count
    have countNow := grown.holds.count
    simp only [List.length_append, List.length_cons, List.length_nil] at count countNow
    omega
  · split
    · omega
    · exact later

/-- A new element is where it was put in. -/
theorem startsIn_new (holds : Holds xml (before ++ after)) (grown : Grown xml before after elem now) :
    StartsIn now before.length (some xml.elements.length) := by
  intro low
  refine ⟨xml.elements.length, rfl, ?_, ?_, before.length + 1, ?_, Nat.lt_succ_self _⟩
  · apply grown.holds.slots
    rw [Int.toNat_natCast, List.append_assoc, List.getElem?_append_right (Nat.le_refl _),
      Nat.sub_self]
    rfl
  · have countNow := grown.holds.count
    simp only [List.length_append, List.length_cons, List.length_nil] at countNow
    rw [Int.toNat_natCast]
    omega
  · rw [Int.toNat_natCast]
    exact grown.holds.endsAt_pair holds.fresh

/-- An element that ends in front of a new one still does. -/
theorem endsAt_grown (holds : Holds xml (before ++ after)) (grown : Grown xml before after elem now)
    {i final : Nat} (below : i < before.length) (ends : EndsAt xml i final)
    (front : final < before.length) : EndsAt now i final := by
  obtain ⟨last, old, new⟩ := holds.endsAt_insert grown.holds holds.fresh below
  obtain rfl := old.unique ends
  rwa [if_neg (Nat.not_le.mpr front)] at new

/-- Where an element starts is an element. -/
theorem xmlGetElementByIndex_start {pointers : List Nat} (holds : Holds xml pointers) {index : Int}
    (starts : StartIndex xml index) :
    ∃ pointer, xmlGetElementByIndex xml index = some (some pointer) := by
  obtain ⟨low, inside, -⟩ := starts
  obtain ⟨pointer, used⟩ : ∃ pointer, pointers[index.toNat]? = some pointer :=
    ⟨_, List.getElem?_eq_getElem (Nat.lt_of_lt_of_eq inside holds.count)⟩
  refine ⟨pointer, ?_⟩
  rw [xmlGetElementByIndex, bind_of_some (ensure_of (by omega)), bind_of_some (ensure_of low)]
  exact holds.slots _ _ used

end Growth

/-! ## One call -/

/-- The root is in the first slot, and the head behind it; as long as there is no root the array
is empty, and without head and body there is nothing but the root. -/
structure Shape (calls : List Call) (html : Document) : Prop where
  holds : ∃ pointers, Holds html.xml pointers
  rootIndex : html.rootIndex = -1 ∨ html.rootIndex = 0
  headIndex : html.headIndex = -1 ∨ html.headIndex = 1
  empty : html.rootIndex = -1 →
    html.xml.numElements = 0 ∧ html.headIndex = -1 ∧ html.bodyIndex = -1
  bare : html.rootIndex = 0 → html.headIndex = -1 → html.bodyIndex < 0 →
    html.xml.numElements = 2
  rootSet : html.rootIndex = 0 → some Setter.root ∈ calls.map Call.setter
  headSet : html.headIndex = 1 → some Setter.head ∈ calls.map Call.setter

variable {calls : List Call} {html now : Document} {sections : Sections} {index : Int}

/-- A call behind others that leaves the document. -/
theorem Shape.more (shape : Shape calls html) (call : Call) : Shape (calls ++ [call]) html where
  holds := shape.holds
  rootIndex := shape.rootIndex
  headIndex := shape.headIndex
  empty := shape.empty
  bare := shape.bare
  rootSet rooted := by
    rw [List.map_append]
    exact List.mem_append_left _ (shape.rootSet rooted)
  headSet headed := by
    rw [List.map_append]
    exact List.mem_append_left _ (shape.headSet headed)

/-- The last call is one of the calls. -/
theorem setter_last (calls : List Call) (call : Call) :
    call.setter ∈ (calls ++ [call]).map Call.setter :=
  List.mem_map_of_mem (List.mem_append_right calls (List.mem_singleton_self call))

/-- A document without elements and sections. -/
theorem shape_empty {xml : Xml} (empty : xml.numElements = 0) :
    Shape [] ⟨xml, 0, 0, -1, -1, -1⟩ where
  holds := by
    refine ⟨[], empty, Nat.zero_le _, ?_, ?_⟩
    · intro i pointer here
      cases here
    · intro pointer member
      cases member
  rootIndex := .inl rfl
  headIndex := .inl rfl
  empty _ := ⟨empty, rfl, rfl⟩
  bare rooted := by cases rooted
  rootSet rooted := by cases rooted
  headSet headed := by cases headed

/-- Without sections nothing is in a wrong slot. -/
theorem placed_empty (xml : Xml) : Placed ⟨xml, 0, 0, -1, -1, -1⟩ noSections where
  root low := by cases low
  head low := by cases low
  body low := by cases low
  order low := by cases low

/-- An element that is put in becomes what the call makes of it. -/
theorem behind_put (sections : Sections) (html : Document) (call : Call) (index : Nat) :
    sections.behind html call index = sections.put html.xml.elements.length call :=
  if_neg (Int.not_lt.mpr (Int.natCast_nonneg index))

/-- The root is put into an empty array. -/
theorem setRoot_placed (shape : Shape calls html) (name : CString)
    (once : some Setter.root ∉ calls.map Call.setter)
    (performed : (Call.setRoot name).perform html = some (now, index)) :
    Placed now (sections.behind html (.setRoot name) index) ∧
      Shape (calls ++ [.setRoot name]) now := by
  have unset : html.rootIndex = -1 := shape.rootIndex.resolve_right fun rooted =>
    once (shape.rootSet rooted)
  obtain ⟨unused, noHead, noBody⟩ := shape.empty unset
  obtain ⟨pointers, holds⟩ := shape.holds
  obtain rfl : pointers = [] := List.length_eq_zero_iff.mp (holds.count.symm.trans unused)
  have top : (-1 : Int) < 0 := by decide
  have sibling : html.xml.enlarge.pointerAt (-1) = some none := rfl
  obtain ⟨xml, place, added, ⟨absurd, -⟩ | ⟨-, rfl, grown⟩⟩ :=
    addElement_top holds top (elementNew name.bytes none) sibling
  · exact (absurd rfl).elim
  · rw [Call.perform, htmlSetRoot, bind_of_some added] at performed
    obtain ⟨rfl, rfl⟩ := Prod.mk.inj (Option.some.inj performed)
    have first : StartsIn xml ([] : List Nat).length (some html.xml.elements.length) :=
      startsIn_new holds grown
    constructor
    · constructor
      · exact first
      · intro low
        rw [htmlGetHeadIndex, noHead] at low
        cases low
      · intro low
        rw [htmlGetBodyIndex, noBody] at low
        cases low
      · intro low
        rw [noHead] at low
        cases low
    · constructor
      · exact ⟨_, grown.holds⟩
      · exact .inr rfl
      · exact .inl noHead
      · intro absurd
        cases absurd
      · intro _ _ _
        exact grown.holds.count
      · intro _
        exact setter_last calls (.setRoot name)
      · intro headed
        rw [noHead] at headed
        cases headed

/-- The root of a document. -/
theorem Placed.startIndex (placed : Placed html sections)
    (rooted : html.rootIndex = 0) : StartIndex html.xml html.rootIndex := by
  have low := Int.le_of_eq rooted.symm
  obtain ⟨pointer, -, -, starts⟩ := placed.root low
  exact ⟨low, starts⟩

/-- The head is put in behind the root, while there is nothing else. -/
theorem setHead_placed (placed : Placed html sections) (shape : Shape calls html) (name : CString)
    (once : some Setter.head ∉ calls.map Call.setter) (noBody : html.bodyIndex < 0)
    (performed : (Call.setHead name).perform html = some (now, index)) :
    Placed now (sections.behind html (.setHead name) index) ∧
      Shape (calls ++ [.setHead name]) now := by
  rw [Call.perform, htmlSetHead] at performed
  by_cases unset : html.rootIndex < 0
  · rw [if_pos unset] at performed
    obtain ⟨rfl, rfl⟩ := Prod.mk.inj (Option.some.inj performed)
    exact ⟨placed, shape.more _⟩
  · have rooted : html.rootIndex = 0 := shape.rootIndex.resolve_left (by omega)
    have noHead : html.headIndex = -1 := shape.headIndex.resolve_right fun headed =>
      once (shape.headSet headed)
    obtain ⟨pointers, holds⟩ := shape.holds
    have root := placed.startIndex rooted
    obtain ⟨pointer, got⟩ := xmlGetElementByIndex_start holds root
    have alone : (-1 : Int) < 0 := by decide
    obtain ⟨xml, before, after, final, rfl, added, grown, -, inside, later, place⟩ :=
      addElement_current holds ⟨root, .inl alone⟩ (elementNew name.bytes none)
    rw [shape.bare rooted noHead noBody] at inside
    rw [neighbour, if_pos alone] at later
    rw [if_pos alone] at place
    have second : before.length = 1 := by omega
    rw [if_neg unset, bind_of_some got, if_neg (Option.some_ne_none pointer),
      bind_of_some added] at performed
    obtain ⟨rfl, rfl⟩ := Prod.mk.inj (Option.some.inj performed)
    rw [behind_put]
    constructor
    · constructor
      · exact placed.root.grown holds grown (by omega)
      · exact startsIn_new holds grown
      · intro low
        exact absurd low (by rw [htmlGetBodyIndex]; dsimp only; omega)
      · intro _ low
        exact absurd low (by dsimp only; omega)
    · constructor
      · exact ⟨_, grown.holds⟩
      · exact .inr rooted
      · right
        dsimp only
        omega
      · intro absurd
        dsimp only at absurd
        omega
      · intro _ absurd
        dsimp only at absurd
        omega
      · intro _
        exact (shape.more _).rootSet rooted
      · intro _
        exact setter_last calls (.setHead name)

/-- The body is put in behind the head, or at the end of the root. -/
theorem setBody_placed (placed : Placed html sections) (shape : Shape calls html) (name : CString)
    (performed : (Call.setBody name).perform html = some (now, index)) :
    Placed now (sections.behind html (.setBody name) index) ∧
      Shape (calls ++ [.setBody name]) now := by
  rw [Call.perform, htmlSetBody] at performed
  by_cases unset : html.rootIndex < 0
  · rw [if_pos unset] at performed
    obtain ⟨rfl, rfl⟩ := Prod.mk.inj (Option.some.inj performed)
    exact ⟨placed, shape.more _⟩
  · have rooted : html.rootIndex = 0 := shape.rootIndex.resolve_left (by omega)
    obtain ⟨pointers, holds⟩ := shape.holds
    have root := placed.startIndex rooted
    obtain ⟨pointer, got⟩ := xmlGetElementByIndex_start holds root
    have head : html.headIndex < 0 ∨ StartIndex html.xml html.headIndex := by
      by_cases low : 0 ≤ html.headIndex
      · obtain ⟨_, -, -, starts⟩ := placed.head low
        exact .inr ⟨low, starts⟩
      · exact .inl (Int.not_le.mp low)
    obtain ⟨xml, before, after, final, rfl, added, grown, ends, -, later, place⟩ :=
      addElement_current holds ⟨root, head⟩ (elementNew name.bytes none)
    have behind : html.headIndex < before.length ∧ 0 < before.length := by
      rw [neighbour] at later
      split at place
      · rw [if_pos (by assumption)] at later
        omega
      · rw [if_neg (by assumption)] at later
        omega
    rw [if_neg unset, bind_of_some got, if_neg (Option.some_ne_none pointer),
      bind_of_some added] at performed
    obtain ⟨rfl, rfl⟩ := Prod.mk.inj (Option.some.inj performed)
    rw [behind_put]
    constructor
    · constructor
      · exact placed.root.grown holds grown (by omega)
      · exact placed.head.grown holds grown behind.1
      · exact startsIn_new holds grown
      · intro low _
        have present : ¬ html.headIndex < 0 := Int.not_lt.mpr low
        rw [neighbour, if_neg present] at ends later
        rw [if_neg present] at place
        refine ⟨final, endsAt_grown holds grown ?_ ends ?_, ?_⟩
        · dsimp only
          omega
        · omega
        · dsimp only
          omega
    · constructor
      · exact ⟨_, grown.holds⟩
      · exact .inr rooted
      · exact shape.headIndex
      · intro absurd
        dsimp only at absurd
        omega
      · intro _ _ absurd
        dsimp only at absurd
        omega
      · intro _
        exact (shape.more _).rootSet rooted
      · exact (shape.more _).headSet

/-- A child is put in behind the start of the body, when its neighbour ends there. -/
theorem addChild_placed {sectionIndex : Document → Int} (placed : Placed html sections)
    (shape : Shape calls html) {pi si : Int} {name : Text} {content : Option Text}
    (present : 0 ≤ sectionIndex html → 0 ≤ html.headIndex ∨ 0 ≤ html.bodyIndex)
    (current : Current html.xml pi si) (may : 0 ≤ sectionIndex html → PutBehind html pi si)
    (call : Call) (performed : addChild sectionIndex html pi si name content = some (now, index)) :
    Placed now sections ∧ Shape (calls ++ [call]) now := by
  rw [addChild] at performed
  obtain ⟨_, asserted, performed⟩ := Option.bind_eq_some_iff.mp performed
  have positive : 0 < pi := by
    by_contra absurd
    rw [ensure, if_neg absurd] at asserted
    cases asserted
  by_cases unset : sectionIndex html < 0
  · rw [if_pos unset] at performed
    obtain ⟨rfl, rfl⟩ := Prod.mk.inj (Option.some.inj performed)
    exact ⟨placed, shape.more _⟩
  · have known := present (Int.not_lt.mp unset)
    obtain ⟨pointers, holds⟩ := shape.holds
    obtain ⟨parent, got⟩ := xmlGetElementByIndex_start holds current.1
    obtain ⟨xml, before, after, final, rfl, added, grown, ends, -, later, place⟩ :=
      addElement_current holds current (elementNew name content)
    have front := may (Int.not_lt.mp unset) final ends
    have behind : 1 < before.length ∧ html.bodyIndex < before.length := by
      rw [neighbour] at later
      split at place
      · rw [if_pos (by assumption)] at later
        omega
      · rw [if_neg (by assumption)] at later
        omega
    have result : now = { html with xml := xml } := by
      rw [if_neg unset, bind_of_some got, if_neg (Option.some_ne_none parent)] at performed
      by_cases beside : 0 < si
      · obtain ⟨sibling, gotToo⟩ :=
          xmlGetElementByIndex_start holds (current.2.resolve_left (by omega))
        rw [if_pos beside, bind_of_some gotToo, if_neg (Option.some_ne_none sibling),
          bind_of_some added] at performed
        exact (Prod.mk.inj (Option.some.inj performed)).1.symm
      · rw [if_neg beside, bind_of_some added] at performed
        exact (Prod.mk.inj (Option.some.inj performed)).1.symm
    subst result
    have rooted := shape.rootIndex
    have headed := shape.headIndex
    have rootless := shape.empty
    constructor
    · constructor
      · exact placed.root.grown holds grown (by omega)
      · exact placed.head.grown holds grown (by rw [htmlGetHeadIndex]; omega)
      · exact placed.body.grown holds grown behind.2
      · intro low lowToo
        obtain ⟨last, ends, less⟩ := placed.order low lowToo
        refine ⟨last, endsAt_grown holds grown ?_ ends ?_, less⟩
        · dsimp only
          omega
        · omega
    · constructor
      · exact ⟨_, grown.holds⟩
      · exact rooted
      · exact headed
      · intro absurd
        have none := rootless absurd
        omega
      · intro _ noHead noBody
        dsimp only at noHead noBody
        omega
      · exact (shape.more _).rootSet
      · exact (shape.more _).headSet

/-- In a run whose calls put nothing in front of the body, the indices are those of the sections. -/
theorem run_placed {calls : List Call} {html : Document} {sections : Sections}
    (run : Run (fun html call => call.SparesBody html) calls html sections) :
    Placed html sections := by
  have both : Placed html sections ∧ Shape calls html := by
    induction run with
    | new => exact ⟨placed_empty xmlNew, shape_empty rfl⟩
    | reset done =>
      obtain ⟨xml, cleared, same⟩ := Option.bind_eq_some_iff.mp done
      obtain rfl := Option.some.inj same
      obtain ⟨deleted, -, rest⟩ := Option.bind_eq_some_iff.mp cleared
      obtain rfl := Option.some.inj rest
      exact ⟨placed_empty _, shape_empty rfl⟩
    | call run call current once may performed inductionHypothesis =>
      obtain ⟨placed, shape⟩ := inductionHypothesis
      cases call with
      | setRoot name =>
        exact setRoot_placed shape name (once.resolve_left (Option.some_ne_none _)) performed
      | setHead name =>
        exact setHead_placed placed shape name (once.resolve_left (Option.some_ne_none _)) may
          performed
      | setBody name => exact setBody_placed placed shape name performed
      | addHeadChild pi si name content =>
        rw [Sections.behind, Sections.put, ite_self]
        exact addChild_placed placed shape .inl current may _ performed
      | addBodyChild pi si name content =>
        rw [Sections.behind, Sections.put, ite_self]
        exact addChild_placed placed shape .inr current (fun _ => may) _ performed
  exact both.1

/-- A run with one call more, where document and sections are known. -/
theorem Run.next {allowed : Document → Call → Prop} {later : Sections}
    (run : Run allowed calls html sections) (call : Call) (current : call.IsCurrent html.xml)
    (once : call.setter = none ∨ call.setter ∉ calls.map Call.setter) (may : allowed html call)
    (performed : call.perform html = some (now, index) ∧ sections.behind html call index = later) :
    Run allowed (calls ++ [call]) now later := by
  obtain ⟨performed, rfl⟩ := performed
  exact run.call call current once may performed

/-- The document behind a call. -/
def behindCall (html : Document) (call : Call) : Document :=
  ((call.perform html).map Prod.fst).getD html

/-- The call that sets the root "html". -/
def setHtml : Call := .setRoot (Http.constant "html")

/-- The call that sets the head. -/
def setHead : Call := .setHead (Http.constant "head")

/-- The call that sets the body. -/
def setBody : Call := .setBody (Http.constant "body")

/-- The call that adds a title to the head. -/
def addTitle : Call := .addHeadChild 1 (-1) (Http.constant "title") none

/-- A document with a root. -/
def rootedDocument : Document := behindCall htmlNew setHtml

/-- A document with a root and a head. -/
def headedDocument : Document := behindCall rootedDocument setHead

/-- A document with a root, a head and a body. -/
def bodiedDocument : Document := behindCall headedDocument setBody

/-- The calls that put in the sections are a run. -/
theorem run_sections {allowed : Document → Call → Prop}
    (may : ∀ html call, html.bodyIndex < 0 → allowed html call) :
    Run allowed [setHtml, setHead, setBody] bodiedDocument ⟨some 0, some 1, some 2⟩ := by
  have rooted : Run allowed [setHtml] rootedDocument ⟨some 0, none, none⟩ :=
    Run.new.next setHtml trivial (.inr (by decide)) (may _ _ (by decide))
      (show _ = some (_, 0) ∧ _ by decide +kernel)
  have headed : Run allowed [setHtml, setHead] headedDocument ⟨some 0, some 1, none⟩ :=
    rooted.next setHead trivial (.inr (by decide)) (may _ _ (by decide +kernel))
      (show _ = some (_, 1) ∧ _ by decide +kernel)
  exact headed.next setBody trivial (.inr (by decide)) (may _ _ (by decide +kernel))
    (show _ = some (_, 3) ∧ _ by decide +kernel)

/-- The sections of a document with a head and a body are in the slots of its indices. -/
theorem run_placed_sections : Placed bodiedDocument ⟨some 0, some 1, some 2⟩ := by
  apply run_placed (run_sections _)
  intro html call without
  cases call with
  | setRoot name => exact trivial
  | setHead name => exact without
  | setBody name => exact trivial
  | addHeadChild pi si name content =>
    intro _ final _
    omega
  | addBodyChild pi si name content =>
    intro final _
    omega

/-- A title that is put into the head when there is a body moves the body, and its index stays. -/
theorem run_not_placed : ¬ ∀ (calls : List Call) (html : Document) (sections : Sections),
    Run (fun _ _ => True) calls html sections → Placed html sections := by
  intro placed
  have current : Current bodiedDocument.xml 1 (-1) := by
    refine ⟨⟨by decide, by decide +kernel, 2, ?_, by decide⟩, .inl (by decide)⟩
    exact ⟨⟨none, Http.ascii "head", none, 2, []⟩, by decide +kernel, rfl⟩
  have sections : Run (fun _ _ => True) [setHtml, setHead, setBody] bodiedDocument
      ⟨some 0, some 1, some 2⟩ := run_sections fun _ _ _ => trivial
  have run : Run (fun _ _ => True) [setHtml, setHead, setBody, addTitle]
      (behindCall bodiedDocument addTitle) ⟨some 0, some 1, some 2⟩ :=
    sections.next addTitle current (.inl rfl) trivial
      (show _ = some (_, 2) ∧ _ by decide +kernel)
  have remembered : htmlGetBodyIndex (behindCall bodiedDocument addTitle) = 3 := by
    decide +kernel
  have other : (behindCall bodiedDocument addTitle).xml.root[3]? ≠ some (some 2) := by
    decide +kernel
  have body := (placed _ _ _ run).body
  rw [remembered] at body
  obtain ⟨pointer, same, slot, -⟩ := body (by decide)
  obtain rfl := Option.some.inj same
  exact other slot

end Ezcfg.Html

import Ezcfg.Foundation.ForestChildren
import Ezcfg.XmlTree.Building

/-!
# Looking for the next child

The search starts behind the slot where the sibling starts. When the sibling has children, these
are what stands there, so they are taken for children of the parent; behind the slot where the
sibling ends the search goes on from child to child. The result is right exactly when no child of
the sibling has the name that is looked for. In an array without elements there is no first slot
to look into.
-/

namespace Ezcfg.XmlTree

open Foundation Forest

/-- The loop of `ezcfg_xml_get_element_index`, with a bound on its turns. -/
def searchLoop (xml : Xml) (name : Text) (stop : Nat) : Nat → Nat → Option Int
  | 0, _ => none
  | turns + 1, i =>
    if i < stop then do
      let elem ← xml.elementAt i
      if elem.name = name ∧ elem.etagIndex ≠ i then return i
      searchLoop xml name stop turns (elem.etagIndex + 1)
    else some (-1)

/-- `ezcfg_xml_get_element_index`. There are not more turns than slots, and one more. -/
def getElementIndex (xml : Xml) (pi si : Int) (name : Text) : Option Int := do
  ensure (-1 ≤ pi)
  ensure (-1 ≤ si)
  ensure (pi < xml.numElements)
  ensure (si < xml.numElements)
  let elem ← xml.elementAt (if pi = -1 then 0 else pi.toNat)
  let i := if si = -1 then pi + 1 else si + 1
  searchLoop xml (splitName name).2 elem.etagIndex (xml.numElements + 1) i.toNat

/-- The slots in use are those of a forest of different elements, with one root; without an
element there is none in the first slot. -/
structure WellNested (xml : Xml) (forest : Forest Nat) : Prop where
  holds : Holds xml forest.labels
  different : forest.nodes.Nodup
  single : forest = nil ∨ ∃ root children, forest = cons root children nil
  empty : forest = nil → xml.elementAt 0 = none

/-- The children of the document, and those of an element by its index. -/
inductive IsParent (forest : Forest Nat) : Int → List (Child Nat) → Prop where
  | document : IsParent forest (-1) (tops 0 forest)
  | element {node : Child Nat} (found : NodeAt 0 forest node) :
    IsParent forest node.start (tops (node.start + 1) node.children)

/-- Whether a child has a name; the part in front of a colon does not count. -/
def named (xml : Xml) (name : Text) (child : Child Nat) : Bool :=
  (xml.elements[child.label]?).map Element.name = some (splitName name).2

/-- The index of a child, or minus one. -/
def indexOf : Option (Child Nat) → Int
  | some child => child.start
  | none => -1

/-- The index of the first child behind an index that has a name, or minus one. -/
def nextChild (xml : Xml) (children : List (Child Nat)) (si : Int) (name : Text) : Int :=
  indexOf (children.find? fun child => decide (si < child.start) && named xml name child)

/-- What the loop over the children finds one after the other, from a sibling on. -/
inductive Visits (xml : Xml) (pi : Int) (name : Text) : Int → List Int → Prop where
  | done {si : Int} (ended : getElementIndex xml pi si name = some (-1)) : Visits xml pi name si []
  | next {si index : Int} {later : List Int} (found : getElementIndex xml pi si name = some index)
    (valid : 0 ≤ index) (rest : Visits xml pi name index later) :
    Visits xml pi name si (index :: later)

/-- No child of a node has a name. -/
def NoneInside (xml : Xml) (name : Text) (child : Child Nat) : Prop :=
  ∀ inner ∈ tops (child.start + 1) child.children, named xml name inner = false

/-- A slot leads to an element, and this ends at a place. -/
def SlotEnds (xml : Xml) (i pointer final : Nat) : Prop :=
  xml.root[i]? = some (some pointer) ∧
    ∃ elem, xml.elements[pointer]? = some elem ∧ elem.etagIndex = final

variable {xml : Xml} {forest : Forest Nat}

/-- The element in a slot. -/
theorem SlotEnds.elementAt {i pointer final : Nat} (slot : SlotEnds xml i pointer final) :
    ∃ elem, xml.elementAt i = some elem ∧ xml.elements[pointer]? = some elem ∧
      elem.etagIndex = final := by
  obtain ⟨leads, elem, found, ends⟩ := slot
  refine ⟨elem, ?_, found, ends⟩
  rw [Xml.elementAt, bind_of_some leads, bind_of_some rfl]
  exact found

/-- The slots of a tree are laid out. -/
theorem laidOut_of_holds (holds : Holds xml forest.labels) (different : forest.nodes.Nodup) :
    LaidOut (SlotEnds xml) 0 forest := by
  have ends := map_ends (fun pointer =>
    ((xml.elements[pointer]?).map Element.etagIndex).getD 0) forest [] [] different
      (fun _ _ absurd => by cases absurd) ?_
  · apply laidOut_of_layout
    intro i node here
    rw [List.length_nil] at ends
    rw [← ends, List.getElem?_map] at here
    obtain ⟨pointer, used, same⟩ := Option.map_eq_some_iff.mp here
    obtain ⟨elem, found, -⟩ := holds.ends pointer (List.mem_of_getElem? used)
    rw [Nat.zero_add, ← same]
    refine ⟨holds.slots i pointer used, elem, found, ?_⟩
    rw [found]
    rfl
  · intro pointer member place last
    rw [List.nil_append, List.append_nil] at last
    obtain ⟨elem, found, final⟩ := holds.ends pointer (mem_labels.mpr member)
    rw [found]
    exact final.unique last

section Walk

variable {name : Text} {stop : Nat}

/-- The search goes from child to child, and on behind the last one. -/
theorem searchLoop_walk {place : Nat} {forest : Forest Nat} (laid : LaidOut (SlotEnds xml) place forest)
    (inside : place + forest.labels.length ≤ stop + 1) (turns : Nat) :
    searchLoop xml (splitName name).2 stop (turns + (tops place forest).length) place =
      match (tops place forest).find? (named xml name) with
      | some child => some (child.start : Int)
      | none => searchLoop xml (splitName name).2 stop turns (place + forest.labels.length) := by
  induction forest generalizing place with
  | nil => rfl
  | cons label children rest inChildren inRest =>
    obtain ⟨starts, -, -, beside⟩ := laid
    obtain ⟨elem, here, found, ends⟩ := starts.elementAt
    rw [labels_cons_length] at inside
    have within : place < stop := by omega
    have open' : elem.etagIndex ≠ place := by omega
    have next : place + 1 + children.labels.length + 1 = place + 2 + children.labels.length := by
      omega
    rw [next] at beside
    have others := inRest beside (by omega)
    rw [tops, List.length_cons, ← Nat.add_assoc, searchLoop, if_pos within, bind_of_some here,
      ends, next]
    by_cases same : elem.name = (splitName name).2
    · have matching : named xml name ⟨place, label, children⟩ = true := by
        rw [named, decide_eq_true_iff, found, Option.map_some, same]
      have both : elem.name = (splitName name).2 ∧ elem.etagIndex ≠ place := ⟨same, open'⟩
      rw [ends] at both
      rw [List.find?_cons_of_pos matching, if_pos both]
      rfl
    · have other : ¬ named xml name ⟨place, label, children⟩ = true := by
        rw [named, decide_eq_true_iff, found, Option.map_some, Option.some_inj]
        exact same
      have total : place + 2 + children.labels.length + rest.labels.length =
          place + (cons label children rest).labels.length := by
        rw [labels_cons_length]
        omega
      rw [List.find?_cons_of_neg other, if_neg (fun both => same both.1), others, total]

/-- The search goes on behind the slot where an element ends. -/
theorem searchLoop_end {pointer final : Nat} (slot : SlotEnds xml final pointer final)
    (inside : final < stop) (turns : Nat) :
    searchLoop xml name stop (turns + 1) final = searchLoop xml name stop turns (final + 1) := by
  obtain ⟨elem, here, -, ends⟩ := slot.elementAt
  rw [searchLoop, if_pos inside, bind_of_some here, ends, if_neg]
  intro both
  exact both.2 rfl

/-- The search ends at the end of the parent. -/
theorem searchLoop_stop {i : Nat} (beyond : stop ≤ i) (turns : Nat) :
    searchLoop xml name stop (turns + 1) i = some (-1) := by
  rw [searchLoop, if_neg (Nat.not_lt.mpr beyond)]

end Walk

/-- The first child behind minus one is the first one. -/
theorem nextChild_first (children : List (Child Nat)) (name : Text) :
    nextChild xml children (-1) name = indexOf (children.find? (named xml name)) := by
  have all : (fun child : Child Nat => decide ((-1 : Int) < child.start) && named xml name child) =
      named xml name := by
    funext child
    have behind : (-1 : Int) < child.start := by omega
    rw [decide_eq_true behind, Bool.true_and]
  rw [nextChild, all]

/-- The first child behind another one is among those behind it. -/
theorem nextChild_after {before after : List (Child Nat)} {child : Child Nat}
    (earlier : ∀ other ∈ before, other.start < child.start)
    (later : ∀ other ∈ after, child.start < other.start) (name : Text) :
    nextChild xml (before ++ child :: after) child.start name =
      indexOf (after.find? (named xml name)) := by
  have skipped : ∀ other ∈ before ++ [child],
      ¬ (decide ((child.start : Int) < other.start) && named xml name other) = true := by
    intro other member
    rw [Bool.and_eq_true, decide_eq_true_iff]
    rintro ⟨behind, -⟩
    rw [List.mem_append, List.mem_singleton] at member
    obtain inFront | rfl := member
    · have smaller := earlier other inFront
      omega
    · omega
  have same : after.find? (fun other =>
      decide ((child.start : Int) < other.start) && named xml name other) =
        after.find? (named xml name) := by
    rw [← List.head?_filter, ← List.head?_filter]
    congr 1
    apply List.filter_congr
    intro other member
    have behind : (child.start : Int) < other.start := by
      have larger := later other member
      omega
    rw [decide_eq_true behind, Bool.true_and]
  rw [nextChild, List.append_cons, List.find?_append, List.find?_eq_none.mpr skipped,
    Option.none_or, same]

/-- What the search finds in the children that are left, when it comes to the first of them. -/
theorem searchLoop_children {name : Text} {place stop turns : Nat} {rest : Forest Nat}
    (laid : LaidOut (SlotEnds xml) place rest) (ends : stop ≤ place + rest.labels.length)
    (inside : place + rest.labels.length ≤ stop + 1) (enough : rest.labels.length < turns) :
    searchLoop xml (splitName name).2 stop turns place =
      some (indexOf ((tops place rest).find? (named xml name))) := by
  have fewer := tops_length_le place rest
  obtain ⟨spare, rfl⟩ : ∃ spare, turns = spare + 1 + (tops place rest).length :=
    ⟨turns - 1 - (tops place rest).length, by omega⟩
  rw [searchLoop_walk laid inside]
  cases (tops place rest).find? (named xml name) with
  | some child => rfl
  | none => exact searchLoop_stop ends spare

/-- What the search finds when it starts in a child: a child of this one first. -/
theorem searchLoop_inside {name : Text} {stop turns : Nat} {child : Child Nat} {rest : Forest Nat}
    (laid : LaidOut (SlotEnds xml) child.start (cons child.label child.children rest))
    (ends : stop ≤ child.behind + rest.labels.length)
    (within : child.behind + rest.labels.length ≤ stop + 1)
    (enough : child.children.labels.length + rest.labels.length + 1 < turns) :
    searchLoop xml (splitName name).2 stop turns (child.start + 1) =
      match (tops (child.start + 1) child.children).find? (named xml name) with
      | some inner => some (inner.start : Int)
      | none => some (indexOf ((tops child.behind rest).find? (named xml name))) := by
  obtain ⟨-, inside, final, beside⟩ := laid
  have fewer := tops_length_le (child.start + 1) child.children
  have behind : child.start + 1 + child.children.labels.length + 1 = child.behind := by
    rw [Child.behind]
    omega
  obtain ⟨spare, rfl⟩ : ∃ spare,
      turns = spare + 1 + (tops (child.start + 1) child.children).length :=
    ⟨turns - 1 - (tops (child.start + 1) child.children).length, by omega⟩
  rw [searchLoop_walk inside (by omega)]
  cases (tops (child.start + 1) child.children).find? (named xml name) with
  | some inner => rfl
  | none =>
    dsimp only
    by_cases last : child.start + 1 + child.children.labels.length < stop
    · rw [searchLoop_end final last, behind]
      rw [behind] at beside
      exact searchLoop_children beside ends within (by omega)
    · rw [searchLoop_stop (Nat.le_of_not_lt last)]
      cases rest with
      | nil => rfl
      | cons label inner others =>
        rw [labels_cons_length] at within
        omega

/-- The indices of a call are checked, and the search starts behind the one of the sibling. -/
theorem getElementIndex_eq {pi si : Int} {elem : Element} {i : Nat} (low : -1 ≤ pi) (lowToo : -1 ≤ si)
    (used : pi < xml.numElements) (usedToo : si < xml.numElements)
    (parent : xml.elementAt (pi.toNat) = some elem)
    (start : (if si = -1 then pi + 1 else si + 1) = i) (name : Text) :
    getElementIndex xml pi si name =
      searchLoop xml (splitName name).2 elem.etagIndex (xml.numElements + 1) i := by
  have place : (if pi = -1 then 0 else pi.toNat) = pi.toNat := by
    split_ifs with document
    · rw [document]
      rfl
    · rfl
  rw [getElementIndex, bind_of_some (ensure_of low), bind_of_some (ensure_of lowToo),
    bind_of_some (ensure_of used), bind_of_some (ensure_of usedToo), place, bind_of_some parent,
    start]
  rfl

section Calls

variable {children : List (Child Nat)} {pi : Int}

/-- What is known of the children of a parent: where they stand, the end that stops the search,
and what a call does for an index of a sibling. -/
structure Frame (xml : Xml) (pi : Int) (children : List (Child Nat)) (place stop : Nat)
    (inner : Forest Nat) : Prop where
  kids : children = tops place inner
  laid : LaidOut (SlotEnds xml) place inner
  start : pi + 1 = place
  low : stop ≤ place + inner.labels.length
  high : place + inner.labels.length ≤ stop + 1
  room : place + inner.labels.length ≤ xml.numElements
  call : ∀ (si : Int) (i : Nat) (name : Text), -1 ≤ si → si < xml.numElements →
    (if si = -1 then pi + 1 else si + 1) = i → getElementIndex xml pi si name =
      searchLoop xml (splitName name).2 stop (xml.numElements + 1) i

/-- The children of an element stand between its slots; for the document the search stops at the
slot where the root ends. -/
theorem frame_of_parent (tree : WellNested xml forest) (parent : IsParent forest pi children)
    (present : forest ≠ nil) : ∃ place stop inner, Frame xml pi children place stop inner := by
  have laid := laidOut_of_holds tree.holds tree.different
  have count := tree.holds.count
  cases parent with
  | document =>
    obtain rfl | ⟨root, inner, rfl⟩ := tree.single
    · exact absurd rfl present
    have total := labels_cons_length root inner nil
    rw [labels, List.length_nil] at total
    refine ⟨0, 0 + 1 + inner.labels.length, cons root inner nil, rfl, laid, rfl, ?_, ?_, ?_, ?_⟩
    · omega
    · omega
    · omega
    · intro si i name low inside start
      obtain ⟨elem, here, -, ends⟩ := laid.1.elementAt
      rw [getElementIndex_eq (Int.le_refl (-1)) low (by omega) inside here start, ends]
  | @element node found =>
    obtain ⟨starts, inside, -, -⟩ := laid.node found
    have within := found.behind_le
    rw [Child.behind] at within
    refine ⟨node.start + 1, node.start + 1 + node.children.labels.length, node.children, rfl, inside,
      rfl, Nat.le_refl _, Nat.le_succ _, ?_, ?_⟩
    · omega
    · intro si i name low inside start
      obtain ⟨elem, here, -, ends⟩ := starts.elementAt
      have first : xml.elementAt (node.start : Int).toNat = some elem := here
      rw [getElementIndex_eq (by omega) low (by omega) inside first start, ends]

/-- Without a sibling the search finds the first child. -/
theorem search_first (tree : WellNested xml forest) (parent : IsParent forest pi children)
    (present : forest ≠ nil) (name : Text) :
    getElementIndex xml pi (-1) name = some (nextChild xml children (-1) name) := by
  obtain ⟨place, stop, inner, frame⟩ := frame_of_parent tree parent present
  have room := frame.room
  rw [nextChild_first, frame.call (-1) place name (Int.le_refl _) (by omega) frame.start, frame.kids,
    searchLoop_children frame.laid frame.low frame.high (by omega)]

/-- Behind a sibling the search finds a child of the sibling first, and then the next child. -/
theorem search_after (tree : WellNested xml forest) (parent : IsParent forest pi children)
    {child : Child Nat} (member : child ∈ children) (name : Text) :
    getElementIndex xml pi child.start name =
      match (tops (child.start + 1) child.children).find? (named xml name) with
      | some inner => some (inner.start : Int)
      | none => some (nextChild xml children child.start name) := by
  have present : forest ≠ nil := by
    rintro rfl
    cases parent with
    | document => cases member
    | element found => cases found
  obtain ⟨place, stop, inner, frame⟩ := frame_of_parent tree parent present
  rw [frame.kids] at member
  obtain ⟨before, rest, cut, earlier, ends, laid⟩ := tops_cut member
  have later : ∀ other ∈ tops child.behind rest, child.start < other.start := by
    intro other among
    have behind := le_of_mem_tops among
    rw [Child.behind] at behind
    omega
  have low := frame.low
  have high := frame.high
  have room := frame.room
  have within := le_of_mem_tops member
  have size : child.behind = child.start + 2 + child.children.labels.length := rfl
  have start : (if (child.start : Int) = -1 then pi + 1 else (child.start : Int) + 1) =
      (child.start + 1 : Nat) := by
    rw [if_neg (by omega)]
    rfl
  rw [frame.call child.start (child.start + 1) name (by omega) (by omega) start, frame.kids, cut,
    nextChild_after earlier later,
    searchLoop_inside (laid _ frame.laid) (by omega) (by omega) (by omega)]

/-- In an array without elements the search has no result. -/
theorem search_empty (tree : WellNested xml nil) (parent : IsParent nil pi children) (si : Int)
    (name : Text) : getElementIndex xml pi si name = none := by
  cases parent with
  | document =>
    simp [getElementIndex, tree.empty rfl]
  | element found => cases found

/-- A next child is one of the children, behind the sibling. -/
theorem mem_of_nextChild {si : Int} {name : Text} {place : Nat}
    (found : nextChild xml children si name = place) :
    ∃ child ∈ children, si < child.start ∧ child.start = place := by
  rw [nextChild] at found
  cases same : children.find? fun child => decide (si < child.start) && named xml name child with
  | none =>
    rw [same, indexOf] at found
    omega
  | some child =>
    rw [same, indexOf] at found
    have holds := List.find?_some same
    rw [Bool.and_eq_true, decide_eq_true_iff] at holds
    exact ⟨child, List.mem_of_find?_eq_some same, holds.1, Int.ofNat_inj.mp found⟩

/-- Behind a sibling the search is right if and only if no child of the sibling has the name. -/
theorem search_after_iff (tree : WellNested xml forest) (parent : IsParent forest pi children)
    {child : Child Nat} (member : child ∈ children) (name : Text) :
    getElementIndex xml pi child.start name = some (nextChild xml children child.start name) ↔
      NoneInside xml name child := by
  rw [search_after tree parent member]
  cases found : (tops (child.start + 1) child.children).find? (named xml name) with
  | none =>
    apply iff_of_true
    · rfl
    · intro inner among
      exact Bool.eq_false_iff.mpr (List.find?_eq_none.mp found inner among)
  | some inner =>
    have among := List.mem_of_find?_eq_some found
    apply iff_of_false
    · intro same
      obtain ⟨other, beside, behind, place⟩ := mem_of_nextChild (Option.some.inj same).symm
      have first := le_of_mem_tops among
      have last := behind_le_of_mem_tops among
      obtain ⟨place', inner', kids⟩ : ∃ place inner, children = tops place inner := by
        cases parent with
        | document => exact ⟨0, forest, rfl⟩
        | element found => exact ⟨_, _, rfl⟩
      rw [kids] at member beside
      obtain ⟨before, rest, cut, earlier, -⟩ := tops_cut member
      rw [cut, List.mem_append, List.mem_cons] at beside
      rw [Child.behind] at last
      obtain inFront | rfl | later := beside
      · have smaller := earlier other inFront
        omega
      · omega
      · have larger := le_of_mem_tops later
        rw [Child.behind] at larger
        omega
    · intro none
      have holds := List.find?_some found
      rw [none inner among] at holds
      cases holds

/-- Without a sibling the search is right if and only if there is an element. -/
theorem search_first_iff (tree : WellNested xml forest) (parent : IsParent forest pi children)
    (name : Text) :
    getElementIndex xml pi (-1) name = some (nextChild xml children (-1) name) ↔ forest ≠ nil := by
  constructor
  · rintro found rfl
    rw [search_empty tree parent] at found
    cases found
  · intro present
    exact search_first tree parent present name

end Calls

section Iteration

variable {children : List (Child Nat)} {pi : Int} {name : Text}

/-- The next child is the next one of those with the name. -/
theorem nextChild_filter (sorted : children.Pairwise fun first second => first.start < second.start)
    {before after : List (Child Nat)} {child : Child Nat}
    (cut : children.filter (named xml name) = before ++ child :: after) :
    nextChild xml children child.start name = indexOf after.head? := by
  have ordered := sorted.filter (named xml name)
  rw [cut, List.pairwise_append, List.pairwise_cons] at ordered
  obtain ⟨-, ⟨later, -⟩, earlier⟩ := ordered
  have dropped : before.filter (fun other => decide ((child.start : Int) < other.start)) = [] := by
    rw [List.filter_eq_nil_iff]
    intro other member
    have smaller := earlier other member child List.mem_cons_self
    rw [decide_eq_true_iff]
    omega
  have kept : after.filter (fun other => decide ((child.start : Int) < other.start)) = after := by
    rw [List.filter_eq_self]
    intro other member
    have larger := later other member
    rw [decide_eq_true_iff]
    omega
  have rest : (child :: after).filter (fun other => decide ((child.start : Int) < other.start)) =
      after := by
    rw [List.filter_cons, if_neg (by simp), kept]
  rw [nextChild, ← List.head?_filter, ← List.filter_filter, cut, List.filter_append, dropped, rest,
    List.nil_append]

/-- The children of a parent are in the order of their places. -/
theorem IsParent.sorted (parent : IsParent forest pi children) :
    children.Pairwise fun first second => first.start < second.start := by
  cases parent with
  | document => exact tops_sorted 0 forest
  | element found => exact tops_sorted _ _

/-- A loop over the children begins with a call that has a result. -/
theorem Visits.call {si : Int} {list : List Int} (visits : Visits xml pi name si list) :
    ∃ index, getElementIndex xml pi si name = some index := by
  cases visits with
  | done ended => exact ⟨-1, ended⟩
  | next found valid rest => exact ⟨_, found⟩

/-- The loop visits the children with the name that are left, when these have no child with the
name. -/
theorem visits_of_none (tree : WellNested xml forest) (parent : IsParent forest pi children)
    {before after : List (Child Nat)} (cut : children.filter (named xml name) = before ++ after)
    (none : ∀ child ∈ after, NoneInside xml name child) {si : Int}
    (found : getElementIndex xml pi si name = some (indexOf after.head?)) :
    Visits xml pi name si (after.map fun child => (child.start : Int)) := by
  induction after generalizing before si with
  | nil => exact .done found
  | cons child after inductionHypothesis =>
    rw [List.forall_mem_cons] at none
    have member : child ∈ children := by
      apply List.mem_of_mem_filter
      rw [cut]
      exact List.mem_append_right _ List.mem_cons_self
    refine .next found (Int.natCast_nonneg _) ?_
    apply @inductionHypothesis (before ++ [child])
    · rw [cut, List.append_assoc]
      rfl
    · exact none.2
    · rw [(search_after_iff tree parent member name).mpr none.1,
        nextChild_filter parent.sorted cut]

/-- When the loop visits the children with the name that are left, these have no child with the
name. -/
theorem none_of_visits (tree : WellNested xml forest) (parent : IsParent forest pi children)
    {before after : List (Child Nat)} (cut : children.filter (named xml name) = before ++ after)
    {si : Int} (visits : Visits xml pi name si (after.map fun child => (child.start : Int))) :
    ∀ child ∈ after, NoneInside xml name child := by
  induction after generalizing before si with
  | nil =>
    intro child absurd
    cases absurd
  | cons child after inductionHypothesis =>
    have member : child ∈ children := by
      apply List.mem_of_mem_filter
      rw [cut]
      exact List.mem_append_right _ List.mem_cons_self
    cases visits with
    | next found valid rest =>
    have call : getElementIndex xml pi child.start name = some (indexOf after.head?) := by
      cases after with
      | nil =>
        cases rest with
        | done ended => exact ended
      | cons other after =>
        cases rest with
        | next found valid rest => exact found
    rw [List.forall_mem_cons]
    constructor
    · rw [← search_after_iff tree parent member name, call, nextChild_filter parent.sorted cut]
    · refine @inductionHypothesis (before ++ [child]) ?_ _ rest
      rw [cut, List.append_assoc]
      rfl

end Iteration

/-- The search finds the next child with the name if and only if there is an element, and no
child of the sibling has the name. The loop over the children visits those with the name if and
only if none of them has a child with the name. -/
theorem getElementIndex_iff (tree : WellNested xml forest) {pi : Int} {children : List (Child Nat)}
    (parent : IsParent forest pi children) (name : Text) :
    (∀ sibling : Option (Child Nat), (∀ child, sibling = some child → child ∈ children) →
      (getElementIndex xml pi (indexOf sibling) name =
          some (nextChild xml children (indexOf sibling) name) ↔
        forest ≠ nil ∧ ∀ child, sibling = some child → NoneInside xml name child)) ∧
    (Visits xml pi name (-1)
        ((children.filter (named xml name)).map fun child => (child.start : Int)) ↔
      forest ≠ nil ∧ ∀ child ∈ children, named xml name child = true →
        NoneInside xml name child) := by
  constructor
  · intro sibling among
    cases sibling with
    | none =>
      rw [indexOf, search_first_iff tree parent]
      constructor
      · intro present
        exact ⟨present, fun child absurd => by cases absurd⟩
      · exact fun both => both.1
    | some child =>
      have member := among child rfl
      rw [indexOf, search_after_iff tree parent member]
      constructor
      · intro none
        constructor
        · rintro rfl
          cases parent with
          | document => cases member
          | element found => cases found
        · intro other same
          obtain rfl := Option.some.inj same
          exact none
      · exact fun both => both.2 child rfl
  · constructor
    · intro visits
      constructor
      · rintro rfl
        obtain ⟨index, found⟩ := visits.call
        rw [search_empty tree parent] at found
        cases found
      · intro child member matching
        exact none_of_visits  tree parent (List.nil_append _).symm visits child
          (List.mem_filter.mpr ⟨member, matching⟩)
    · rintro ⟨present, none⟩
      apply visits_of_none  tree parent (List.nil_append _).symm
      · intro child member
        obtain ⟨among, matching⟩ := List.mem_filter.mp member
        exact none child among matching
      · rw [search_first tree parent present, nextChild_first, List.head?_filter]

/-- The array of `<r><a><a/></a></r>`. -/
def nested : Xml where
  root := [some 0, some 1, some 2, some 2, some 1, some 0]
  numElements := 6
  elements := [⟨none, [0x72], none, 5, []⟩, ⟨none, [0x61], none, 4, []⟩, ⟨none, [0x61], none, 3, []⟩]

/-- The forest of the array: each element is in the one before. -/
def nestedForest : Forest Nat := cons 0 (cons 1 (cons 2 nil nil) nil) nil

/-- The array is well nested. -/
theorem nested_wellNested : WellNested nested nestedForest where
  holds := by
    refine ⟨rfl, Nat.le_refl _, ?_, ?_⟩
    · intro i pointer here
      have slots : nested.root = nestedForest.labels.map some := rfl
      rw [slots, List.getElem?_map, here]
      rfl
    · intro pointer member
      have known : pointer = 0 ∨ pointer = 1 ∨ pointer = 2 := by
        simpa [nestedForest, nodes] using mem_labels.mp member
      obtain rfl | rfl | rfl := known
      · exact ⟨_, rfl, [0, 1, 2, 2, 1], [], rfl, by decide, rfl⟩
      · exact ⟨_, rfl, [0, 1, 2, 2], [0], rfl, by decide, rfl⟩
      · exact ⟨_, rfl, [0, 1, 2], [1, 0], rfl, by decide, rfl⟩
  different := by decide
  single := .inr ⟨0, _, rfl⟩
  empty absurd := by cases absurd

/-- The loop over the children of the document visits the root. -/
theorem visits_nested : Visits nested (-1) [0x72] (-1) [0] :=
  (getElementIndex_iff nested_wellNested .document [0x72]).2.mpr
    ⟨by rintro ⟨⟩, by unfold NoneInside; decide⟩

/-- Behind the only child of the root, which has a child of its own name, this one is found. -/
theorem not_nextChild : WellNested nested nestedForest ∧
    IsParent nestedForest 0 [⟨1, 1, cons 2 nil nil⟩] ∧
      getElementIndex nested 0 1 [0x61] ≠
        some (nextChild nested [⟨1, 1, cons 2 nil nil⟩] 1 [0x61]) := by
  refine ⟨nested_wellNested, ?_, by decide⟩
  exact IsParent.element (NodeAt.here 0 0 (cons 1 (cons 2 nil nil) nil) nil)

end Ezcfg.XmlTree

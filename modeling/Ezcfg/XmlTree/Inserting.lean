import Ezcfg.XmlTree.TreeTexts

/-!
# Putting a forest into the array

The parser adds the elements in the order in which they start. So a new element is always put at
the same place among the slots: in front of it are those of all elements that have ended, and of
the starts of those that are open, and behind it are the ends of the open ones. The elements of a
forest are put there one after the other, and what was known of the others does not change.
-/

namespace Ezcfg.XmlTree

open Foundation Forest

/-- The element that starts at an index is open, and ends right behind the slots in front. -/
def IsOpen (before after : List Nat) (pi : Nat) : Prop :=
  ∃ parent tail, before[pi]? = some parent ∧ after = parent :: tail ∧ parent ∉ tail

/-- There is no sibling yet, or it is the one that ends in the last slot in front. -/
inductive Follows (before after : List Nat) : Int → Prop where
  | first : Follows before after (-1)
  | beside {si sibling : Nat} {front : List Nat} (cut : before = front ++ [sibling])
    (starts : before[si]? = some sibling) (absent : sibling ∉ after) (positive : front ≠ []) :
    Follows before after si

/-- The elements of a forest have been put into the array between the slots in front and behind. -/
structure Inserted (xml now : Xml) (before after : List Nat) (elems : Forest Element)
    (pointers : Forest Nat) : Prop where
  holds : Holds now (before ++ (pointers.labels ++ after))
  stores : Stores now pointers elems
  different : pointers.nodes.Nodup
  fresh : ∀ pointer ∈ pointers.nodes, xml.elements.length ≤ pointer
  grown : xml.elements.length ≤ now.elements.length
  kept : ∀ pointer, pointer < xml.elements.length → now.plainAt pointer = xml.plainAt pointer

variable {xml mid now : Xml} {before after : List Nat} {pi : Nat} {si : Int} {elem : Element}
  {elems : Forest Element} {pointers : Forest Nat}

/-- An element is added at the place, whatever it is. -/
theorem add_open (holds : Holds xml (before ++ after)) (isOpen : IsOpen before after pi)
    (follows : Follows before after si) (elem : Element) :
    ∃ now, xml.addElement pi si elem = some (now, (before.length : Int)) ∧
      Grown xml before after elem now := by
  obtain ⟨parent, tail, starts, cut, absent⟩ := isOpen
  have inside := (List.getElem?_eq_some_iff.mp starts).1
  have used : (before ++ after)[pi]? = some parent := by
    rw [List.getElem?_append_left inside]
    exact starts
  cases follows with
  | first =>
    have last : LastAt (before ++ after) parent before.length :=
      ⟨before, tail, by rw [cut], absent, rfl⟩
    exact addElement_child holds used (by decide) last (Nat.zero_lt_of_lt inside) elem
  | @beside si sibling front beforeCut startsToo absentToo positive =>
    have insideToo := (List.getElem?_eq_some_iff.mp startsToo).1
    have usedToo : (before ++ after)[si]? = some sibling := by
      rw [List.getElem?_append_left insideToo]
      exact startsToo
    have last : LastAt (before ++ after) sibling front.length := by
      refine ⟨front, after, ?_, absentToo, rfl⟩
      rw [beforeCut, List.append_assoc]
      rfl
    have behind : before.length = front.length + 1 := by
      rw [beforeCut, List.length_append, List.length_singleton]
    exact addElement_beside holds used usedToo last behind (List.length_pos_iff.mpr positive) elem

/-- An element that has been added is open until something is added behind it. -/
theorem Grown.isOpen (grown : Grown xml before after elem now)
    (fresh : xml.elements.length ∉ before ++ after) :
    Holds now ((before ++ [xml.elements.length]) ++ (xml.elements.length :: after)) ∧
      IsOpen (before ++ [xml.elements.length]) (xml.elements.length :: after) before.length := by
  constructor
  · have holds := grown.holds
    rw [List.append_assoc] at holds ⊢
    exact holds
  · refine ⟨_, after, ?_, rfl, ?_⟩
    · rw [List.getElem?_append_right (Nat.le_refl _), Nat.sub_self]
      rfl
    · intro member
      exact fresh (List.mem_append_right before member)

/-- An open element stays open behind more slots. -/
theorem IsOpen.behind (isOpen : IsOpen before after pi) (more : List Nat) :
    IsOpen (before ++ more) after pi := by
  obtain ⟨parent, tail, starts, cut, absent⟩ := isOpen
  have inside := (List.getElem?_eq_some_iff.mp starts).1
  refine ⟨parent, tail, ?_, cut, absent⟩
  rw [List.getElem?_append_left inside]
  exact starts

/-- Changing an element, but not its end, leaves the slots. -/
theorem Holds.modify {pointer : Nat} {change : Element → Element} {slots : List Nat}
    (holds : Holds xml slots) (keeps : ∀ elem, (change elem).etagIndex = elem.etagIndex) :
    Holds (xml.modify pointer change) slots := by
  refine ⟨holds.count, holds.room, holds.slots, ?_⟩
  intro label member
  obtain ⟨elem, found, last⟩ := holds.ends label member
  rw [Xml.modify]
  dsimp only
  rw [List.getElem?_modify, found, Option.map_eq_map, Option.map_some]
  split
  · refine ⟨change elem, rfl, ?_⟩
    rw [keeps]
    exact last
  · exact ⟨elem, rfl, last⟩

/-- The content of an element that has been added is that of another one. -/
theorem Grown.withContent (content : Text)
    (grown : Grown xml before after { elem with content := none } now) :
    Grown xml before after { elem with content := some content }
      (now.modify xml.elements.length fun here => { here with content := some content }) where
  holds := grown.holds.modify fun _ => rfl
  elements := by
    rw [← grown.elements]
    exact List.length_modify ..
  fresh := by
    have known := grown.fresh
    obtain ⟨here, found, plain⟩ := Option.map_eq_some_iff.mp known
    rw [Xml.plainAt, Xml.modify]
    dsimp only
    rw [List.getElem?_modify_eq, found, Option.map_eq_map, Option.map_some, Option.map_some]
    have same := congrArg (fun here : Element => { here with content := some content }) plain
    exact congrArg some same
  kept := by
    intro pointer old
    rw [← grown.kept pointer old, Xml.plainAt, Xml.modify]
    dsimp only
    rw [List.getElem?_modify_ne _ _ (Nat.ne_of_gt old)]
    rfl

/-- Pointers lead to the elements that they led to before. -/
theorem Stores.kept (stores : Stores mid pointers elems) (known : ∀ pointer ∈ pointers.nodes,
    now.plainAt pointer = mid.plainAt pointer) : Stores now pointers elems := by
  induction stores with
  | nil => exact .nil
  | cons here inside later inChildren inRest =>
    rw [nodes, List.forall_mem_cons, List.forall_mem_append] at known
    obtain ⟨same, within, beside⟩ := known
    exact .cons (same.trans here) (inChildren within) (inRest beside)

/-- Where nothing has been put there is a forest without elements. -/
theorem inserted_nil (holds : Holds xml (before ++ after)) : Inserted xml xml before after nil nil where
  holds := holds
  stores := .nil
  different := List.nodup_nil
  fresh _ member := by cases member
  grown := Nat.le_refl _
  kept _ _ := rfl

/-- What has been put inside an element that was added makes a tree with it. -/
theorem Grown.inserted (grown : Grown xml before after elem mid)
    (inside : Inserted mid now (before ++ [xml.elements.length]) (xml.elements.length :: after) elems
      pointers) : Inserted xml now before after (cons elem.plain elems nil)
        (cons xml.elements.length pointers nil) where
  holds := by
    have holds := inside.holds
    rw [labels, labels]
    simpa using holds
  stores := by
    have old : xml.elements.length < mid.elements.length := by
      rw [grown.elements]
      exact Nat.lt_succ_self _
    exact .cons ((inside.kept _ old).trans grown.fresh) inside.stores .nil
  different := by
    rw [nodes, nodes, List.append_nil, List.nodup_cons]
    refine ⟨?_, inside.different⟩
    intro member
    have later := inside.fresh _ member
    rw [grown.elements] at later
    omega
  fresh := by
    intro pointer member
    rw [nodes, nodes, List.append_nil, List.mem_cons] at member
    obtain rfl | within := member
    · exact Nat.le_refl _
    · have later := inside.fresh pointer within
      rw [grown.elements] at later
      omega
  grown := by
    have more := inside.grown
    rw [grown.elements] at more
    omega
  kept := by
    intro pointer old
    have oldToo : pointer < mid.elements.length := by
      rw [grown.elements]
      omega
    rw [inside.kept pointer oldToo, grown.kept pointer old]

/-- A tree that has been put into the array is a sibling for what follows. -/
theorem Inserted.follows {root : Nat} {children : Forest Nat} {inner : Forest Element}
    (inserted : Inserted xml mid before after (cons elem inner nil) (cons root children nil))
    (nonempty : before ≠ []) (old : ∀ pointer ∈ after, pointer < xml.elements.length) :
    Follows (before ++ (cons root children nil).labels) after before.length := by
  refine @Follows.beside _ _ before.length root (before ++ root :: children.labels) ?_ ?_ ?_ ?_
  · rw [labels, labels]
    simp
  · rw [List.getElem?_append_right (Nat.le_refl _), Nat.sub_self]
    rfl
  · intro member
    have fresh := inserted.fresh root List.mem_cons_self
    exact Nat.lt_irrefl _ (Nat.lt_of_lt_of_le (old root member) fresh)
  · exact List.append_ne_nil_of_left_ne_nil nonempty _

/-- What has been put behind a tree makes a forest with it. -/
theorem Inserted.beside {root : Nat} {children rest : Forest Nat} {inner others : Forest Element}
    (first : Inserted xml mid before after (cons elem inner nil) (cons root children nil))
    (later : Inserted mid now (before ++ (cons root children nil).labels) after others rest) :
    Inserted xml now before after (cons elem inner others) (cons root children rest) where
  holds := by
    have holds := later.holds
    rw [labels, labels] at holds
    rw [labels]
    simpa using holds
  stores := by
    have known : ∀ pointer ∈ (cons root children nil).nodes,
        now.plainAt pointer = mid.plainAt pointer := by
      intro pointer member
      apply later.kept
      apply first.holds.pointer_lt
      rw [List.mem_append, List.mem_append, mem_labels]
      exact .inr (.inl member)
    cases first.stores.kept known with
    | cons here inside last => exact .cons here inside later.stores
  different := by
    have apart : ∀ pointer ∈ (cons root children nil).nodes, pointer ∉ rest.nodes := by
      intro pointer member among
      have fresh := later.fresh pointer among
      have inside : pointer < mid.elements.length := by
        apply first.holds.pointer_lt
        rw [List.mem_append, List.mem_append, mem_labels]
        exact .inr (.inl member)
      omega
    have differentFirst := first.different
    rw [nodes, nodes, List.append_nil] at differentFirst apart
    rw [nodes, ← List.cons_append, List.nodup_append]
    refine ⟨differentFirst, later.different, ?_⟩
    rintro pointer member _ among rfl
    exact apart pointer member among
  fresh := by
    intro pointer member
    rw [nodes, ← List.cons_append, List.mem_append] at member
    obtain here | behind := member
    · apply first.fresh
      rw [nodes, nodes, List.append_nil]
      exact here
    · exact Nat.le_trans first.grown (later.fresh pointer behind)
  grown := Nat.le_trans first.grown later.grown
  kept := by
    intro pointer old
    rw [later.kept pointer (Nat.lt_of_lt_of_le old first.grown), first.kept pointer old]

end Ezcfg.XmlTree

import Ezcfg.Foundation.Forest

/-!
# The children in the labels of a forest

In the list of the labels a node starts at a place, its children stand behind it, and the node
beside it starts behind its end. The children of a node are listed with the places where they
start; these are increasing.
-/

namespace Foundation.Forest

variable {α : Type}

/-- A node of a forest: the place where it starts, its label, and its children. -/
structure Child (α : Type) where
  start : Nat
  label : α
  children : Forest α

/-- The place behind a node. -/
def Child.behind (child : Child α) : Nat := child.start + 2 + child.children.labels.length

/-- The nodes of a forest that are beside each other, for labels from a place on. -/
def tops (place : Nat) : Forest α → List (Child α)
  | nil => []
  | cons label children rest =>
    ⟨place, label, children⟩ :: tops (place + 2 + children.labels.length) rest

/-- A node anywhere in a forest whose labels stand from a place on. -/
inductive NodeAt : Nat → Forest α → Child α → Prop where
  | here (place : Nat) (label : α) (children rest : Forest α) :
    NodeAt place (cons label children rest) ⟨place, label, children⟩
  | inside {place : Nat} {label : α} {children rest : Forest α} {node : Child α}
    (within : NodeAt (place + 1) children node) : NodeAt place (cons label children rest) node
  | beside {place : Nat} {label : α} {children rest : Forest α} {node : Child α}
    (later : NodeAt (place + 2 + children.labels.length) rest node) :
    NodeAt place (cons label children rest) node

/-- A node takes two labels more than its children. -/
theorem labels_cons_length (label : α) (children rest : Forest α) :
    (cons label children rest).labels.length =
      2 + children.labels.length + rest.labels.length := by
  rw [labels, List.length_cons, List.length_append, List.length_cons]
  omega

/-- The nodes start from the place on. -/
theorem le_of_mem_tops {place : Nat} {forest : Forest α} {child : Child α}
    (member : child ∈ tops place forest) : place ≤ child.start := by
  induction forest generalizing place with
  | nil => cases member
  | cons label children rest inChildren inRest =>
    rw [tops, List.mem_cons] at member
    obtain rfl | later := member
    · exact Nat.le_refl place
    · have behind := inRest later
      omega

/-- A node and what is in it stand in front of the end of the forest. -/
theorem behind_le_of_mem_tops {place : Nat} {forest : Forest α} {child : Child α}
    (member : child ∈ tops place forest) : child.behind ≤ place + forest.labels.length := by
  induction forest generalizing place with
  | nil => cases member
  | cons label children rest inChildren inRest =>
    rw [tops, List.mem_cons] at member
    rw [labels_cons_length]
    obtain rfl | later := member
    · rw [Child.behind]
      dsimp only
      omega
    · have within := inRest later
      omega

/-- There are at most as many nodes as labels. -/
theorem tops_length_le (place : Nat) (forest : Forest α) :
    (tops place forest).length ≤ forest.labels.length := by
  induction forest generalizing place with
  | nil => exact Nat.le_refl 0
  | cons label children rest inChildren inRest =>
    have others := inRest (place + 2 + children.labels.length)
    rw [tops, List.length_cons, labels_cons_length]
    omega

/-- Where the nodes start increases. -/
theorem tops_sorted (place : Nat) (forest : Forest α) :
    (tops place forest).Pairwise fun first second => first.start < second.start := by
  induction forest generalizing place with
  | nil => exact List.Pairwise.nil
  | cons label children rest inChildren inRest =>
    rw [tops, List.pairwise_cons]
    constructor
    · intro later member
      have behind := le_of_mem_tops member
      dsimp only
      omega
    · exact inRest _

/-- A property of the nodes and their ends, for labels from a place on: it holds where each node
starts, where it ends, and for what is in it and beside it. -/
def LaidOut (holds : Nat → α → Nat → Prop) : Nat → Forest α → Prop
  | _, nil => True
  | place, cons label children rest =>
    let final := place + 1 + children.labels.length
    holds place label final ∧ LaidOut holds (place + 1) children ∧ holds final label final ∧
      LaidOut holds (final + 1) rest

variable {holds : Nat → α → Nat → Prop}

/-- What a property implies holds as well. -/
theorem LaidOut.imp {other : Nat → α → Nat → Prop} {place : Nat} {forest : Forest α}
    (laid : LaidOut holds place forest)
    (implied : ∀ i label final, holds i label final → other i label final) :
    LaidOut other place forest := by
  induction forest generalizing place with
  | nil => trivial
  | cons label children rest inChildren inRest =>
    obtain ⟨starts, inside, ends, beside⟩ := laid
    exact ⟨implied _ _ _ starts, inChildren inside, implied _ _ _ ends, inRest beside⟩

/-- A property of all places of a layout is one of the nodes. -/
theorem laidOut_of_layout {place : Nat} {forest : Forest α}
    (known : ∀ (i : Nat) node, (forest.layout place)[i]? = some node →
      holds (place + i) node.1 node.2) : LaidOut holds place forest := by
  induction forest generalizing place with
  | nil => trivial
  | cons label children rest inChildren inRest =>
    rw [LaidOut]
    refine ⟨?_, ?_, ?_, ?_⟩
    · exact known 0 _ rfl
    · apply inChildren
      intro i node here
      have inside : i < (layout (place + 1) children).length :=
        (List.getElem?_eq_some_iff.mp here).1
      have found := known (i + 1) node
      rw [layout, List.getElem?_cons_succ, List.getElem?_append_left inside] at found
      have same : place + 1 + i = place + (i + 1) := by omega
      rw [same]
      exact found here
    · have found := known (children.labels.length + 1)
        (label, place + 1 + children.labels.length)
      rw [layout, List.getElem?_cons_succ,
        List.getElem?_append_right (Nat.le_of_eq (layout_length _ _)), layout_length,
        Nat.sub_self] at found
      have same : place + 1 + children.labels.length = place + (children.labels.length + 1) := by
        omega
      rw [same] at found ⊢
      exact found rfl
    · apply inRest
      intro i node here
      have found := known (children.labels.length + (i + 1) + 1) node
      rw [layout, List.getElem?_cons_succ,
        List.getElem?_append_right (by rw [layout_length]; omega), layout_length,
        Nat.add_sub_cancel_left, List.getElem?_cons_succ] at found
      have same : place + 1 + children.labels.length + 1 + i =
          place + (children.labels.length + (i + 1) + 1) := by
        omega
      rw [same]
      exact found here

/-- What holds of a forest holds of a node in it. -/
theorem LaidOut.node {place : Nat} {forest : Forest α} {node : Child α}
    (laid : LaidOut holds place forest) (found : NodeAt place forest node) :
    LaidOut holds node.start (cons node.label node.children nil) := by
  induction found with
  | here place label children rest =>
    obtain ⟨starts, inside, ends, -⟩ := laid
    exact ⟨starts, inside, ends, trivial⟩
  | inside within inductionHypothesis => exact inductionHypothesis laid.2.1
  | @beside place label children rest node later inductionHypothesis =>
    apply inductionHypothesis
    have same : place + 2 + children.labels.length = place + 1 + children.labels.length + 1 := by
      omega
    rw [same]
    exact laid.2.2.2

/-- A node anywhere in a forest ends inside. -/
theorem NodeAt.behind_le {place : Nat} {forest : Forest α} {node : Child α}
    (found : NodeAt place forest node) : node.behind ≤ place + forest.labels.length := by
  induction found with
  | here place label children rest =>
    rw [labels_cons_length, Child.behind]
    dsimp only
    omega
  | inside within inductionHypothesis =>
    rw [labels_cons_length]
    omega
  | beside later inductionHypothesis =>
    rw [labels_cons_length]
    omega

/-- The forest is cut at a node: what is in front of the node, and the nodes behind it. -/
theorem tops_cut {place : Nat} {forest : Forest α} {child : Child α}
    (member : child ∈ tops place forest) : ∃ before rest,
      tops place forest = before ++ child :: tops child.behind rest ∧
        (∀ earlier ∈ before, earlier.start < child.start) ∧
        child.behind + rest.labels.length = place + forest.labels.length ∧
        ∀ holds, LaidOut holds place forest →
          LaidOut holds child.start (cons child.label child.children rest) := by
  induction forest generalizing place with
  | nil => cases member
  | cons label children rest inChildren inRest =>
    rw [tops, List.mem_cons] at member
    rw [labels_cons_length]
    obtain rfl | later := member
    · refine ⟨[], rest, rfl, ?_, ?_, fun _ laid => laid⟩
      · intro earlier absurd
        cases absurd
      · rw [Child.behind]
        dsimp only
        omega
    · obtain ⟨before, others, cut, smaller, ends, laid⟩ := inRest later
      have further := le_of_mem_tops later
      refine ⟨⟨place, label, children⟩ :: before, others, ?_, ?_, ?_, ?_⟩
      · rw [tops, cut]
        rfl
      · rw [List.forall_mem_cons]
        constructor
        · dsimp only
          omega
        · exact smaller
      · omega
      · intro holds whole
        apply laid
        have same : place + 2 + children.labels.length =
            place + 1 + children.labels.length + 1 := by
          omega
        rw [same]
        exact whole.2.2.2

end Foundation.Forest

import Mathlib.Data.List.Basic

/-!
# Ordered forests and their labels

A forest is written as a list that has the label of each node twice: where the node starts and
where it ends, with the labels of its children between. A pair of equal labels may be put
anywhere into such a list, and it remains one of a forest.
-/

namespace Foundation

/-- An ordered forest: the first node, its children, and the nodes beside it. -/
inductive Forest (α : Type) where
  | nil
  | cons (label : α) (children rest : Forest α)

namespace Forest

variable {α : Type}

/-- The labels where the nodes start and end. -/
def labels : Forest α → List α
  | nil => []
  | cons label children rest => label :: (labels children ++ label :: labels rest)

/-- The labels of the nodes, each once. -/
def nodes : Forest α → List α
  | nil => []
  | cons label children rest => label :: (nodes children ++ nodes rest)

/-- Whether there is no node. -/
def isNil : Forest α → Bool
  | nil => true
  | cons _ _ _ => false

/-- The labels from a place on, each with the place where its node ends. -/
def layout (place : Nat) : Forest α → List (α × Nat)
  | nil => []
  | cons label children rest =>
    let final := place + 1 + children.labels.length
    (label, final) :: (layout (place + 1) children ++
      (label, final) :: layout (final + 1) rest)

/-- The labels are those of the nodes. -/
theorem mem_labels {forest : Forest α} {label : α} :
    label ∈ forest.labels ↔ label ∈ forest.nodes := by
  induction forest with
  | nil => rfl
  | cons first children rest inChildren inRest =>
    simp only [labels, nodes, List.mem_cons, List.mem_append, inChildren, inRest]
    constructor
    · rintro (here | inside | again | beside)
      · exact Or.inl here
      · exact Or.inr (Or.inl inside)
      · exact Or.inl again
      · exact Or.inr (Or.inr beside)
    · rintro (here | inside | beside)
      · exact Or.inl here
      · exact Or.inr (Or.inl inside)
      · exact Or.inr (Or.inr (Or.inr beside))

/-- Every node takes two labels. -/
theorem labels_length (forest : Forest α) : forest.labels.length = 2 * forest.nodes.length := by
  induction forest with
  | nil => rfl
  | cons label children rest inChildren inRest =>
    simp only [labels, nodes, List.length_cons, List.length_append, inChildren, inRest]
    omega

/-- The layout has a place for each label. -/
theorem layout_length (place : Nat) (forest : Forest α) :
    (forest.layout place).length = forest.labels.length := by
  induction forest generalizing place with
  | nil => rfl
  | cons label children rest inChildren inRest =>
    simp only [layout, labels, List.length_cons, List.length_append, inChildren, inRest]

/-- A pair of equal labels may be put at any place. -/
theorem insert_pair (label : α) (forest : Forest α) (before after : List α)
    (cut : forest.labels = before ++ after) :
    ∃ grown : Forest α, grown.labels = before ++ label :: label :: after ∧
      grown.nodes.Perm (label :: forest.nodes) := by
  induction forest generalizing before after with
  | nil =>
    obtain ⟨rfl, rfl⟩ := List.append_eq_nil_iff.mp cut.symm
    exact ⟨cons label nil nil, rfl, List.Perm.refl _⟩
  | cons first children rest inChildren inRest =>
    cases before with
    | nil =>
      obtain rfl : (cons first children rest).labels = after := cut
      exact ⟨cons label nil (cons first children rest), rfl, List.Perm.refl _⟩
    | cons head before =>
      rw [Forest.labels, List.cons_append] at cut
      obtain ⟨rfl, behind⟩ := List.cons.inj cut
      obtain ⟨middle, rfl, later⟩ | ⟨middle, inside, rfl⟩ := List.append_eq_append_iff.mp behind
      · cases middle with
        | nil =>
          obtain rfl : first :: rest.labels = after := later
          obtain ⟨grown, labels, perm⟩ := inChildren children.labels [] (List.append_nil _).symm
          refine ⟨cons first grown rest, ?_, ?_⟩
          · rw [Forest.labels, labels]
            simp
          · exact ((perm.append_right _).cons first).trans (List.Perm.swap ..)
        | cons again middle =>
          obtain ⟨rfl, beside⟩ := List.cons.inj later
          obtain ⟨grown, labels, perm⟩ := inRest middle after beside
          refine ⟨cons first children grown, ?_, ?_⟩
          · rw [Forest.labels, labels]
            simp
          · refine List.Perm.trans ?_ (List.Perm.swap ..)
            exact ((perm.append_left _).trans List.perm_middle).cons first
      · obtain ⟨grown, labels, perm⟩ := inChildren before middle inside
        refine ⟨cons first grown rest, ?_, ?_⟩
        · rw [Forest.labels, labels]
          simp
        · exact ((perm.append_right _).cons first).trans (List.Perm.swap ..)

/-- Inside a node a pair of equal labels may be put at any place. -/
theorem insert_inside (label root : α) (children : Forest α) {before after : List α}
    (cut : (cons root children nil).labels = before ++ after) (started : before ≠ [])
    (unended : after ≠ []) :
    ∃ grown : Forest α, (cons root grown nil).labels = before ++ label :: label :: after ∧
      (cons root grown nil).nodes.Perm (label :: (cons root children nil).nodes) := by
  obtain ⟨first, before, rfl⟩ := List.exists_cons_of_ne_nil started
  obtain rfl | ⟨after, final, rfl⟩ := List.eq_nil_or_concat after
  · exact absurd rfl unended
  · rw [labels, labels, List.cons_append, List.concat_eq_append, ← List.append_assoc] at cut
    obtain ⟨rfl, inside⟩ := List.cons.inj cut
    obtain ⟨within, rfl⟩ := List.append_inj' inside rfl |>.imp id fun same => (List.cons.inj same).1
    obtain ⟨grown, grownLabels, perm⟩ := insert_pair label children before after within
    refine ⟨grown, ?_, ?_⟩
    · rw [labels, labels, grownLabels]
      simp
    · rw [nodes, nodes, List.append_nil]
      exact (perm.cons root).trans (by rw [nodes, nodes, List.append_nil]; exact List.Perm.swap ..)

/-- A list of labels has a label at a place for the last time. -/
def LastAt (list : List α) (label : α) (place : Nat) : Prop :=
  ∃ before after, list = before ++ label :: after ∧ label ∉ after ∧ before.length = place

/-- The last place of a label is inside the list. -/
theorem LastAt.lt {list : List α} {label : α} {place : Nat} (last : LastAt list label place) :
    place < list.length := by
  obtain ⟨before, after, rfl, -, rfl⟩ := last
  rw [List.length_append, List.length_cons]
  omega

/-- At the last place of a label is the label. -/
theorem LastAt.get {list : List α} {label : α} {place : Nat} (last : LastAt list label place) :
    list[place]? = some label := by
  obtain ⟨before, after, rfl, -, rfl⟩ := last
  rw [List.getElem?_append_right (Nat.le_refl _), Nat.sub_self]
  rfl

/-- Behind the last place of a label are others. -/
theorem LastAt.behind {list : List α} {label other : α} {place i : Nat}
    (last : LastAt list label place) (beyond : place < i) (here : list[i]? = some other) :
    other ≠ label := by
  obtain ⟨before, after, rfl, absent, rfl⟩ := last
  obtain ⟨j, rfl⟩ : ∃ j, i = before.length + (j + 1) := ⟨i - before.length - 1, by omega⟩
  rw [List.getElem?_append_right (Nat.le_add_right _ _), Nat.add_sub_cancel_left,
    List.getElem?_cons_succ] at here
  rintro rfl
  exact absent (List.mem_of_getElem? here)

/-- A label has one last place. -/
theorem LastAt.unique {list : List α} {label : α} {first second : Nat}
    (last : LastAt list label first) (other : LastAt list label second) : first = second := by
  obtain less | same | greater := Nat.lt_trichotomy first second
  · exact absurd rfl (last.behind less other.get)
  · exact same
  · exact absurd rfl (other.behind greater last.get)

/-- Labels that are put between others move those behind them. -/
theorem LastAt.insert {before after inserted : List α} {label : α} {place : Nat}
    (absent : label ∉ inserted) (last : LastAt (before ++ after) label place) :
    LastAt (before ++ inserted ++ after) label
      (if before.length ≤ place then place + inserted.length else place) := by
  obtain ⟨first, second, cut, behind, rfl⟩ := last
  obtain ⟨middle, rfl, rfl⟩ | ⟨middle, rfl, later⟩ := List.append_eq_append_iff.mp cut
  · rw [if_pos (by rw [List.length_append]; omega)]
    refine ⟨before ++ inserted ++ middle, second, by simp, behind, ?_⟩
    simp only [List.length_append]
    omega
  · cases middle with
    | nil =>
      rw [List.nil_append] at later
      subst later
      rw [List.append_nil, if_pos (Nat.le_refl _)]
      exact ⟨first ++ inserted, second, by simp, behind, List.length_append⟩
    | cons head middle =>
      obtain ⟨rfl, rfl⟩ := List.cons.inj later
      rw [if_neg (by simp)]
      refine ⟨first, middle ++ inserted ++ after, by simp, ?_, rfl⟩
      obtain ⟨notMiddle, notAfter⟩ := not_or.mp (mt List.mem_append.mpr behind)
      rw [List.mem_append, List.mem_append, not_or, not_or]
      exact ⟨⟨notMiddle, absent⟩, notAfter⟩

/-- When no two nodes have the same label, the nodes end where their labels are for the last
time. -/
theorem map_ends (final : α → Nat) (forest : Forest α) (before after : List α)
    (different : forest.nodes.Nodup) (others : ∀ label ∈ forest.nodes, label ∉ after)
    (known : ∀ label ∈ forest.nodes, ∀ place,
      LastAt (before ++ forest.labels ++ after) label place → final label = place) :
    forest.labels.map (fun label => (label, final label)) = forest.layout before.length := by
  induction forest generalizing before after with
  | nil => rfl
  | cons label children rest inChildren inRest =>
    rw [nodes, List.nodup_cons, List.nodup_append] at different
    obtain ⟨fresh, differentChildren, differentRest, apart⟩ := different
    rw [List.mem_append, not_or] at fresh
    simp only [nodes, List.mem_cons, List.mem_append] at others known
    have here : final label = before.length + 1 + children.labels.length := by
      refine known label (Or.inl rfl) _
        ⟨before ++ label :: children.labels, rest.labels ++ after, ?_, ?_, ?_⟩
      · simp [labels]
      · rw [List.mem_append, mem_labels, not_or]
        exact ⟨fresh.2, others label (Or.inl rfl)⟩
      · rw [List.length_append, List.length_cons]
        omega
    have inside := inChildren (before ++ [label]) (label :: (rest.labels ++ after))
      differentChildren ?_ ?_
    · have beside := inRest (before ++ label :: (children.labels ++ [label])) after differentRest
        ?_ ?_
      · have first : (before ++ [label]).length = before.length + 1 := List.length_append
        have second : (before ++ label :: (children.labels ++ [label])).length =
            before.length + 1 + children.labels.length + 1 := by
          simp only [List.length_append, List.length_cons, List.length_nil]
          omega
        rw [first] at inside
        rw [second] at beside
        rw [labels, List.map_cons, List.map_append, List.map_cons, inside, beside, here, layout]
      · exact fun other member => others other (Or.inr (Or.inr member))
      · intro other member place last
        refine known other (Or.inr (Or.inr member)) place ?_
        have same : before ++ label :: (children.labels ++ [label]) ++ rest.labels ++ after =
            before ++ (cons label children rest).labels ++ after := by simp [labels]
        rwa [same] at last
    · intro other member
      rw [List.mem_cons, List.mem_append, not_or, not_or]
      refine ⟨?_, ?_, others other (Or.inr (Or.inl member))⟩
      · rintro rfl
        exact fresh.1 member
      · rw [mem_labels]
        exact fun beside => apart other member other beside rfl
    · intro other member place last
      refine known other (Or.inr (Or.inl member)) place ?_
      have same : before ++ [label] ++ children.labels ++ label :: (rest.labels ++ after) =
          before ++ (cons label children rest).labels ++ after := by simp [labels]
      rwa [same] at last

end Forest

end Foundation

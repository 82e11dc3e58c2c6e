import Ezcfg.Foundation.ForestChildren

/-!
# Growing a forest

A new node becomes the last child of a node, or it is put right beside a node. In the labels the
new one then stands twice in front of the end of the first node, or behind that of the second.
-/

namespace Foundation.Forest

variable {α : Type}

/-- Nodes beside each other, and then others. -/
def append : Forest α → Forest α → Forest α
  | nil, others => others
  | cons label children rest, others => cons label children (append rest others)

section Growing

variable [DecidableEq α]

/-- The children of the node with a label, and the nodes beside it, are changed. -/
def growAt (target : α) (grow : Forest α → Forest α → Forest α × Forest α) : Forest α → Forest α
  | nil => nil
  | cons label children rest =>
    if label = target then cons label (grow children rest).1 (grow children rest).2
    else cons label (growAt target grow children) (growAt target grow rest)

/-- The last child of the node with a label is a new one. -/
def addLast (parent new : α) : Forest α → Forest α :=
  growAt parent fun children rest => (append children (cons new nil nil), rest)

/-- Right beside the node with a label is a new one. -/
def addBeside (sibling new : α) : Forest α → Forest α :=
  growAt sibling fun children rest => (children, cons new nil rest)

end Growing

/-- The labels of nodes and of others stand behind each other. -/
theorem labels_append (forest others : Forest α) :
    (append forest others).labels = forest.labels ++ others.labels := by
  induction forest with
  | nil => rfl
  | cons label children rest inChildren inRest =>
    rw [append, labels, labels, inRest]
    simp

/-- The nodes and the others are the nodes. -/
theorem nodes_append (forest others : Forest α) :
    (append forest others).nodes = forest.nodes ++ others.nodes := by
  induction forest with
  | nil => rfl
  | cons label children rest inChildren inRest =>
    rw [append, nodes, nodes, inRest]
    simp

/-- The node is one of the forest. -/
theorem NodeAt.mem {place : Nat} {forest : Forest α} {node : Child α}
    (found : NodeAt place forest node) : node.label ∈ forest.nodes := by
  induction found with
  | here place label children rest => exact List.mem_cons_self
  | inside within inductionHypothesis =>
    rw [nodes, List.mem_cons, List.mem_append]
    exact .inr (.inl inductionHypothesis)
  | beside later inductionHypothesis =>
    rw [nodes, List.mem_cons, List.mem_append]
    exact .inr (.inr inductionHypothesis)

/-- The labels of the children stand behind that of their parent. -/
theorem labels_cons_inside (label : α) {children : Forest α} (rest : Forest α) {i : Nat} {inner : α}
    (here : children.labels[i]? = some inner) :
    (cons label children rest).labels[i + 1]? = some inner := by
  have inside := (List.getElem?_eq_some_iff.mp here).1
  rw [labels, List.getElem?_cons_succ, List.getElem?_append_left inside]
  exact here

/-- The label stands again behind those of the children. -/
theorem labels_cons_final (label : α) (children rest : Forest α) :
    (cons label children rest).labels[children.labels.length + 1]? = some label := by
  rw [labels, List.getElem?_cons_succ, List.getElem?_append_right (Nat.le_refl _), Nat.sub_self]
  rfl

/-- The labels of the nodes beside a node stand behind it. -/
theorem labels_cons_beside (label : α) (children : Forest α) {rest : Forest α} {i : Nat} {other : α}
    (here : rest.labels[i]? = some other) :
    (cons label children rest).labels[children.labels.length + (i + 1) + 1]? = some other := by
  rw [labels, List.getElem?_cons_succ, List.getElem?_append_right (Nat.le_add_right _ _),
    Nat.add_sub_cancel_left, List.getElem?_cons_succ]
  exact here

/-- A node starts where its label is. -/
theorem NodeAt.starts {place : Nat} {forest : Forest α} {node : Child α}
    (found : NodeAt place forest node) :
    ∃ i, node.start = place + i ∧ forest.labels[i]? = some node.label := by
  induction found with
  | here place label children rest => exact ⟨0, rfl, rfl⟩
  | @inside place label children rest node within inductionHypothesis =>
    obtain ⟨i, start, here⟩ := inductionHypothesis
    exact ⟨i + 1, by omega, labels_cons_inside label rest here⟩
  | @beside place label children rest node later inductionHypothesis =>
    obtain ⟨i, start, here⟩ := inductionHypothesis
    exact ⟨children.labels.length + (i + 1) + 1, by omega, labels_cons_beside label children here⟩

/-- The nodes beside each other are nodes of the forest. -/
theorem NodeAt.of_mem_tops {place : Nat} {forest : Forest α} {child : Child α}
    (member : child ∈ tops place forest) : NodeAt place forest child := by
  induction forest generalizing place with
  | nil => cases member
  | cons label children rest inChildren inRest =>
    rw [tops, List.mem_cons] at member
    obtain rfl | later := member
    · exact .here place label children rest
    · exact .beside (inRest later)

/-- The children of a node are nodes of the forest. -/
theorem NodeAt.child {place : Nat} {forest : Forest α} {node child : Child α}
    (found : NodeAt place forest node)
    (member : child ∈ tops (node.start + 1) node.children) : NodeAt place forest child := by
  induction found with
  | here place label children rest => exact .inside (.of_mem_tops member)
  | inside within inductionHypothesis => exact .inside (inductionHypothesis member)
  | beside later inductionHypothesis => exact .beside (inductionHypothesis member)

/-- At each place of the labels a node starts or ends. -/
theorem exists_nodeAt (place : Nat) (forest : Forest α) {i : Nat}
    (inside : i < forest.labels.length) :
    ∃ node, NodeAt place forest node ∧ (place + i = node.start ∨ place + i = node.behind - 1) := by
  induction forest generalizing place i with
  | nil => cases inside
  | cons label children rest inChildren inRest =>
    have last : (⟨place, label, children⟩ : Child α).behind - 1 =
        place + 1 + children.labels.length := by
      rw [Child.behind]
      dsimp only
      omega
    rw [labels_cons_length] at inside
    by_cases first : i = 0
    · refine ⟨_, .here place label children rest, .inl ?_⟩
      dsimp only
      omega
    by_cases within : i - 1 < children.labels.length
    · obtain ⟨node, found, here⟩ := inChildren (place + 1) within
      refine ⟨node, .inside found, ?_⟩
      omega
    by_cases final : i = children.labels.length + 1
    · refine ⟨_, .here place label children rest, .inr ?_⟩
      omega
    · obtain ⟨node, found, here⟩ := inRest (place + 2 + children.labels.length)
        (i := i - 2 - children.labels.length) (by omega)
      refine ⟨node, .beside found, ?_⟩
      omega

/-- A node that starts behind another one is in it, or stands behind its end. -/
theorem NodeAt.apart {place : Nat} {forest : Forest α} {first second : Child α}
    (found : NodeAt place forest first) (foundToo : NodeAt place forest second)
    (later : first.start < second.start) :
    NodeAt (first.start + 1) first.children second ∨ first.behind ≤ second.start := by
  induction found with
  | here place label children rest =>
    cases foundToo with
    | here => exact absurd later (Nat.lt_irrefl _)
    | inside within => exact .inl within
    | beside beyond =>
      obtain ⟨i, start, -⟩ := beyond.starts
      right
      rw [Child.behind]
      dsimp only
      omega
  | @inside place label children rest node within inductionHypothesis =>
    have ends := within.behind_le
    cases foundToo with
    | here =>
      obtain ⟨i, start, -⟩ := within.starts
      dsimp only at later
      omega
    | inside withinToo => exact inductionHypothesis withinToo later
    | beside beyond =>
      obtain ⟨i, start, -⟩ := beyond.starts
      exact .inr (by omega)
  | @beside place label children rest node beyond inductionHypothesis =>
    obtain ⟨i, start, -⟩ := beyond.starts
    cases foundToo with
    | here =>
      dsimp only at later
      omega
    | inside within =>
      have ends := within.behind_le
      rw [Child.behind] at ends
      omega
    | beside beyondToo => exact inductionHypothesis beyondToo later

/-- A node of a forest is one of those beside each other, or it is in one of them. -/
theorem NodeAt.top_or_inside {place : Nat} {forest : Forest α} {node : Child α}
    (found : NodeAt place forest node) : node ∈ tops place forest ∨
      ∃ top ∈ tops place forest, NodeAt (top.start + 1) top.children node := by
  induction found with
  | here place label children rest => exact .inl List.mem_cons_self
  | inside within => exact .inr ⟨_, List.mem_cons_self, within⟩
  | beside later inductionHypothesis =>
    obtain member | ⟨top, member, within⟩ := inductionHypothesis
    · exact .inl (List.mem_cons_of_mem _ member)
    · exact .inr ⟨top, List.mem_cons_of_mem _ member, within⟩

/-- Where no two nodes have the same label, a label is that of one node. -/
theorem NodeAt.unique {place : Nat} {forest : Forest α} {first second : Child α}
    (found : NodeAt place forest first) (different : forest.nodes.Nodup)
    (foundToo : NodeAt place forest second) (same : first.label = second.label) :
    first = second := by
  induction found with
  | here place label children rest =>
    rw [nodes, List.nodup_cons, List.mem_append, not_or] at different
    obtain ⟨⟨notInside, notBeside⟩, -⟩ := different
    dsimp only at same
    cases foundToo with
    | here => rfl
    | inside within =>
      rw [same] at notInside
      exact absurd within.mem notInside
    | beside later =>
      rw [same] at notBeside
      exact absurd later.mem notBeside
  | @inside place label children rest node within inductionHypothesis =>
    rw [nodes, List.nodup_cons, List.nodup_append] at different
    obtain ⟨fresh, differentChildren, -, apart⟩ := different
    cases foundToo with
    | here =>
      dsimp only at same
      rw [← same] at fresh
      exact absurd (List.mem_append_left _ within.mem) fresh
    | inside withinToo => exact inductionHypothesis differentChildren withinToo same
    | beside later =>
      exact absurd same (apart node.label within.mem second.label later.mem)
  | @beside place label children rest node later inductionHypothesis =>
    rw [nodes, List.nodup_cons, List.nodup_append] at different
    obtain ⟨fresh, -, differentRest, apart⟩ := different
    cases foundToo with
    | here =>
      dsimp only at same
      rw [← same] at fresh
      exact absurd (List.mem_append_right _ later.mem) fresh
    | inside within =>
      exact absurd same.symm (apart second.label within.mem node.label later.mem)
    | beside laterToo => exact inductionHypothesis differentRest laterToo same

variable [DecidableEq α]

/-- Without the node nothing is changed. -/
theorem growAt_absent {target : α} {grow : Forest α → Forest α → Forest α × Forest α}
    {forest : Forest α} (absent : target ∉ forest.nodes) : growAt target grow forest = forest := by
  induction forest with
  | nil => rfl
  | cons label children rest inChildren inRest =>
    rw [nodes, List.mem_cons, List.mem_append, not_or, not_or] at absent
    rw [growAt, if_neg (Ne.symm absent.1), inChildren absent.2.1, inRest absent.2.2]

/-- A new label stands twice at a place between the others. -/
structure PairAt (new : α) (before after : List α) (forest grown : Forest α) : Prop where
  cut : forest.labels = before ++ after
  labels : grown.labels = before ++ [new, new] ++ after
  nodes : grown.nodes.Perm (new :: forest.nodes)

omit [DecidableEq α] in
/-- What stands in the children of a node stands in the node. -/
theorem PairAt.inside {new : α} {before after : List α} {children grown : Forest α}
    (pair : PairAt new before after children grown) (label : α) (rest : Forest α) :
    PairAt new (label :: before) (after ++ label :: rest.labels) (cons label children rest)
      (cons label grown rest) where
  cut := by
    rw [Forest.labels, pair.cut]
    simp
  labels := by
    rw [Forest.labels, pair.labels]
    simp
  nodes := ((pair.nodes.append_right _).cons label).trans (List.Perm.swap ..)

omit [DecidableEq α] in
/-- What stands in the nodes beside a node stands behind it. -/
theorem PairAt.beside {new : α} {before after : List α} {rest grown : Forest α}
    (pair : PairAt new before after rest grown) (label : α) (children : Forest α) :
    PairAt new (label :: (children.labels ++ label :: before)) after (cons label children rest)
      (cons label children grown) where
  cut := by
    rw [Forest.labels, pair.cut]
    simp
  labels := by
    rw [Forest.labels, pair.labels]
    simp
  nodes := (((pair.nodes.append_left _).trans List.perm_middle).cons label).trans
    (List.Perm.swap ..)

/-- When a change at a node puts a pair into its labels, it does so in those of the forest. -/
theorem growAt_pair {new : α} {grow : Forest α → Forest α → Forest α × Forest α} {place gap : Nat}
    {forest : Forest α} {node : Child α} (found : NodeAt place forest node)
    (different : forest.nodes.Nodup)
    (here : ∀ rest, ∃ before after, PairAt new before after (cons node.label node.children rest)
        (cons node.label (grow node.children rest).1 (grow node.children rest).2) ∧
      node.start + before.length + gap = node.behind) :
    ∃ before after, PairAt new before after forest (growAt node.label grow forest) ∧
      place + before.length + gap = node.behind := by
  induction found with
  | here place label children rest =>
    obtain ⟨before, after, pair, ends⟩ := here rest
    refine ⟨before, after, ?_, ends⟩
    rw [growAt, if_pos rfl]
    exact pair
  | @inside place label children rest node within inductionHypothesis =>
    rw [Forest.nodes, List.nodup_cons, List.nodup_append] at different
    obtain ⟨fresh, differentChildren, -, apart⟩ := different
    obtain ⟨before, after, pair, ends⟩ := inductionHypothesis differentChildren here
    have other : label ≠ node.label := by
      rintro rfl
      exact fresh (List.mem_append_left _ within.mem)
    have absent : node.label ∉ rest.nodes := fun member =>
      apart node.label within.mem node.label member rfl
    refine ⟨label :: before, after ++ label :: rest.labels, ?_, ?_⟩
    · rw [growAt, if_neg other, growAt_absent absent]
      exact pair.inside label rest
    · rw [List.length_cons]
      omega
  | @beside place label children rest node later inductionHypothesis =>
    rw [Forest.nodes, List.nodup_cons, List.nodup_append] at different
    obtain ⟨fresh, -, differentRest, apart⟩ := different
    obtain ⟨before, after, pair, ends⟩ := inductionHypothesis differentRest here
    have other : label ≠ node.label := by
      rintro rfl
      exact fresh (List.mem_append_right _ later.mem)
    have absent : node.label ∉ children.nodes := fun member =>
      apart node.label member node.label later.mem rfl
    refine ⟨label :: (children.labels ++ label :: before), after, ?_, ?_⟩
    · rw [growAt, if_neg other, growAt_absent absent]
      exact pair.beside label children
    · simp only [List.length_cons, List.length_append]
      omega

/-- A last child stands in front of the end of its parent. -/
theorem addLast_pair (new : α) {place : Nat} {forest : Forest α} {node : Child α}
    (found : NodeAt place forest node) (different : forest.nodes.Nodup) :
    ∃ before after, PairAt new before after forest (addLast node.label new forest) ∧
      place + before.length + 1 = node.behind := by
  apply growAt_pair found different
  intro rest
  refine ⟨node.label :: node.children.labels, node.label :: rest.labels, ⟨rfl, ?_, ?_⟩, ?_⟩
  · rw [Forest.labels, labels_append]
    simp [Forest.labels]
  · rw [Forest.nodes, nodes_append]
    have moved : (node.children.nodes ++ [new] ++ rest.nodes).Perm
        (new :: (node.children.nodes ++ rest.nodes)) := by
      rw [List.append_assoc]
      exact List.perm_middle
    exact (moved.cons node.label).trans (List.Perm.swap ..)
  · rw [Child.behind, List.length_cons]
    omega

/-- A node beside another one stands behind its end. -/
theorem addBeside_pair (new : α) {place : Nat} {forest : Forest α} {node : Child α}
    (found : NodeAt place forest node) (different : forest.nodes.Nodup) :
    ∃ before after, PairAt new before after forest (addBeside node.label new forest) ∧
      place + before.length + 0 = node.behind := by
  apply growAt_pair found different
  intro rest
  refine ⟨node.label :: (node.children.labels ++ [node.label]), rest.labels, ⟨?_, ?_, ?_⟩, ?_⟩
  · rw [Forest.labels]
    simp
  · rw [Forest.labels, Forest.labels]
    simp [Forest.labels]
  · rw [Forest.nodes, Forest.nodes, Forest.nodes]
    exact (List.perm_middle.cons node.label).trans (List.Perm.swap ..)
  · simp only [Child.behind, List.length_cons, List.length_append, List.length_nil]
    omega

end Foundation.Forest

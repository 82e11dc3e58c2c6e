import Ezcfg.Json.Turns

/-!
# The parser always returns

Every link leads to a later node, every pointer on the stack is the index of a node,
below the top of the stack are only containers and pairs, and a literal on top has its
letters in front of it. Every turn keeps this, so no turn reads through a bad pointer or
past the terminator, and every turn lowers three times the length of the text left plus
the height of the stack, so the loop ends within its bound.
-/

namespace Ezcfg.Json

open Foundation Foundation.Json

/-- Every link leads to a later node of the list. -/
def Linked (nodes : List Node) : Prop :=
  ∀ i node, nodes[i]? = some node →
    (∀ next, node.left = some next → i < next ∧ next < nodes.length) ∧
    (∀ next, node.right = some next → i < next ∧ next < nodes.length)

/-- The type of the node at an index. -/
def typeAt (nodes : List Node) (np : Nat) : Option ValueType := (nodes[np]?).map Node.type

/-- The types of nodes that stay on the stack while their children are read. -/
def isParent : ValueType → Bool
  | .object | .nvPair | .array => .true
  | _ => .false

/-- A literal has its letters in front of it. -/
def Covered (type : ValueType) (cur : List UInt8) : Prop :=
  ∀ word, type = literalType word → word.bytes.length ≤ (skipWs cur).length

/-- Every pointer leads to a node that stays on the stack. -/
def Parents (nodes : List Node) (stack : List Nat) : Prop :=
  ∀ np ∈ stack, ∃ type, typeAt nodes np = some type ∧ isParent type

/-- The nodes and the stack can be used. -/
structure Safe (json : Json) (cur : List UInt8) : Prop where
  linked : Linked json.nodes
  top : ∀ np rest, json.stack = np :: rest → ∃ type, typeAt json.nodes np = some type ∧
    Covered type cur
  below : Parents json.nodes json.stack.tail

/-- What a turn may end in, with a bound on what is left to do. -/
def Proceeds (bound : Nat) : Option Flow → Prop
  | none => False
  | some .funcOut => True
  | some (.next json cur) => Safe json cur ∧ 3 * cur.length + json.stack.length < bound

/-! ## Nodes -/

/-- An index with a type is in range. -/
theorem typeAt_lt {nodes : List Node} {np : Nat} {type : ValueType}
    (typed : typeAt nodes np = some type) : np < nodes.length := by
  by_contra outside
  rw [typeAt, List.getElem?_eq_none (Nat.le_of_not_lt outside)] at typed
  cases typed

/-- A node of each index. -/
theorem exists_node {nodes : List Node} {np : Nat} (inside : np < nodes.length) :
    ∃ node, nodes[np]? = some node := ⟨_, List.getElem?_eq_getElem inside⟩

/-- Nodes have the type of their index. -/
theorem typeAt_eq {nodes : List Node} {np : Nat} {node : Node} (cell : nodes[np]? = some node) :
    typeAt nodes np = some node.type := by
  rw [typeAt, cell]
  rfl

/-- Writing a node of the same type changes no type. -/
theorem typeAt_set {nodes : List Node} {p : Nat} {old : Node} (cell : nodes[p]? = some old)
    (node : Node) (same : node.type = old.type) (np : Nat) :
    typeAt (nodes.set p node) np = typeAt nodes np := by
  by_cases here : p = np
  · subst here
    have inside := (List.getElem?_eq_some_iff.mp cell).1
    rw [typeAt, List.getElem?_set_self inside, typeAt_eq cell, Option.map_some, same]
  · rw [typeAt, typeAt, List.getElem?_set_ne here]

/-- A new node changes no other type. -/
theorem typeAt_append {nodes : List Node} {np : Nat} (inside : np < nodes.length) (node : Node) :
    typeAt (nodes ++ [node]) np = typeAt nodes np := by
  rw [typeAt, typeAt, List.getElem?_append_left inside]

/-- The type of a new node. -/
theorem typeAt_new (nodes : List Node) (node : Node) :
    typeAt (nodes ++ [node]) nodes.length = some node.type :=
  typeAt_eq (get_middle nodes [] node)

/-- Writing a node with permitted links keeps the list linked. -/
theorem Linked.set {nodes : List Node} (linked : Linked nodes) {p : Nat} {node : Node}
    (left : ∀ next, node.left = some next → p < next ∧ next < nodes.length)
    (right : ∀ next, node.right = some next → p < next ∧ next < nodes.length) :
    Linked (nodes.set p node) := by
  intro i other cell
  rw [List.length_set]
  by_cases here : p = i
  · subst here
    have inside : p < nodes.length := by
      simpa using (List.getElem?_eq_some_iff.mp cell).1
    rw [List.getElem?_set_self inside] at cell
    obtain rfl := Option.some.inj cell
    exact ⟨left, right⟩
  · rw [List.getElem?_set_ne here] at cell
    exact linked i other cell

/-- A new node without links keeps the list linked. -/
theorem Linked.append {nodes : List Node} (linked : Linked nodes) (type : ValueType) :
    Linked (nodes ++ [{ type := type }]) := by
  intro i node cell
  rw [List.length_append, List.length_singleton]
  by_cases inside : i < nodes.length
  · rw [List.getElem?_append_left inside] at cell
    obtain ⟨left, right⟩ := linked i node cell
    exact ⟨fun next link => by have bounds := left next link; omega,
      fun next link => by have bounds := right next link; omega⟩
  · have whole := (List.getElem?_eq_some_iff.mp cell).1
    rw [List.length_append, List.length_singleton] at whole
    obtain rfl : i = nodes.length := by omega
    rw [get_middle nodes [] _] at cell
    obtain rfl := Option.some.inj cell
    exact ⟨nofun, nofun⟩

/-- The right links from a node end at one that has none. -/
theorem lastRight_linked {nodes : List Node} (linked : Linked nodes) (after : List Node)
    (fuel p : Nat) (inside : p < nodes.length) (enough : nodes.length ≤ p + fuel) :
    ∃ last node, lastRight (nodes ++ after) fuel p = some last ∧ nodes[last]? = some node ∧
      node.right = none := by
  induction fuel generalizing p with
  | zero => omega
  | succ fuel inductionHypothesis =>
    obtain ⟨node, cell⟩ := exists_node inside
    have found : (nodes ++ after)[p]? = some node := by
      rw [List.getElem?_append_left inside, cell]
    cases link : node.right with
    | none => exact ⟨p, node, by simp [lastRight, found, link], cell, link⟩
    | some next =>
      obtain ⟨later, bound⟩ := (linked p node cell).2 next link
      obtain ⟨last, other, reached, rest⟩ := inductionHypothesis next bound (by omega)
      exact ⟨last, other, by simpa [lastRight, found, link] using reached, rest⟩

section Nodes

variable {nodes : List Node} (linked : Linked nodes) (root : Option Nat) (stack : List Nat)
  (msgLen : Nat) (type : ValueType)

include linked

/-- A new node can be appended to a chain. -/
theorem appendRight_linked {first : Nat} (inside : first < nodes.length) :
    ∃ grown, appendRight ⟨nodes ++ [{ type := type }], root, stack, msgLen⟩ first nodes.length =
        some ⟨grown, root, stack, msgLen⟩ ∧ Linked grown ∧
      ∀ np, typeAt grown np = typeAt (nodes ++ [{ type := type }]) np := by
  obtain ⟨last, node, found, cell, alone⟩ := lastRight_linked linked [{ type := type }]
    (nodes ++ [({ type := type } : Node)]).length first inside (by simp; omega)
  have bound := (List.getElem?_eq_some_iff.mp cell).1
  have longer : (nodes ++ [({ type := type } : Node)])[last]? = some node := by
    rw [List.getElem?_append_left bound, cell]
  refine ⟨(nodes ++ [({ type := type } : Node)]).set last { node with right := some nodes.length }, ?_,
    (linked.append type).set ?_ ?_, typeAt_set longer _ rfl⟩
  · simp only [appendRight, found, longer, Option.bind_eq_bind, Option.bind_some, setNode]
    rfl
  · intro next link
    exact ((linked.append type) last node longer).1 next link
  · intro next link
    obtain rfl := Option.some.inj link
    simpa using bound

/-- A new node can be appended under another. -/
theorem appendLeft_linked {np : Nat} (inside : np < nodes.length) :
    ∃ grown, appendLeft ⟨nodes ++ [{ type := type }], root, stack, msgLen⟩ np nodes.length =
        some ⟨grown, root, stack, msgLen⟩ ∧ Linked grown ∧
      ∀ p, typeAt grown p = typeAt (nodes ++ [{ type := type }]) p := by
  obtain ⟨node, cell⟩ := exists_node inside
  have longer : (nodes ++ [({ type := type } : Node)])[np]? = some node := by
    rw [List.getElem?_append_left inside, cell]
  cases child : node.left with
  | none =>
    refine ⟨(nodes ++ [({ type := type } : Node)]).set np { node with left := some nodes.length }, ?_,
      (linked.append type).set ?_ ?_, typeAt_set longer _ rfl⟩
    · simp [appendLeft, longer, child, setNode]
    · intro next link
      obtain rfl := Option.some.inj link
      simpa using inside
    · intro next link
      exact ((linked.append type) np node longer).2 next link
  | some first =>
    obtain ⟨-, bound⟩ := (linked np node cell).1 first child
    obtain ⟨grown, done, kept, types⟩ :=
      appendRight_linked linked root stack msgLen type bound
    exact ⟨grown, by simpa [appendLeft, longer, child] using done, kept, types⟩

/-- Descending into a new node. -/
theorem descend_linked {np : Nat} (inside : np < nodes.length) :
    ∃ grown, descend ⟨nodes, root, stack, msgLen⟩ np type =
        some ⟨grown, root, nodes.length :: np :: stack, msgLen⟩ ∧ Linked grown ∧
      ∀ p, typeAt grown p = typeAt (nodes ++ [{ type := type }]) p := by
  obtain ⟨grown, done, kept, types⟩ := appendLeft_linked linked root stack msgLen type inside
  exact ⟨grown, by simp [descend, create, done, push], kept, types⟩

end Nodes

/-! ## Turns -/

/-- No letters are asked of what is no literal. -/
theorem covered_parent {type : ValueType} (parent : isParent type) (cur : List UInt8) :
    Covered type cur := by
  rintro (_ | _ | _) rfl <;> cases parent

/-- A value just created is covered. -/
theorem covered_of_create {cur : List UInt8} {type : ValueType}
    (created : valueCreate cur = some type) : Covered type cur := by
  intro word same
  have starts := valueCreate_starts created
  rw [skipWs_of_not_space starts.not_space]
  cases starts with
  | string => cases word <;> cases same
  | object => cases word <;> cases same
  | array => cases word <;> cases same
  | @literal other rest delimiter =>
    have letters : word = other := by
      cases word <;> cases other <;> first | rfl | cases same
    simp [letters]
  | number => cases word <;> cases same

/-- Passing a byte shortens the text. -/
theorem tail_length {cur : List UInt8} {mark : UInt8} (found : byteAt cur = mark)
    (present : mark ≠ 0) : cur.tail.length + 1 = cur.length := by
  have shape := eq_cons_of_byteAt (p := cur) (found ▸ present)
  rw [shape]
  rfl

/-- Parents stay parents where types stay. -/
theorem Parents.grow {nodes grown : List Node} {stack : List Nat} {type : ValueType}
    (parents : Parents nodes stack)
    (types : ∀ p, typeAt grown p = typeAt (nodes ++ [{ type := type }]) p) :
    Parents grown stack := by
  intro np member
  obtain ⟨found, typed, parent⟩ := parents np member
  exact ⟨found, by rw [types, typeAt_append (typeAt_lt typed), typed], parent⟩

section Turns

variable {nodes : List Node} {root : Option Nat} {stack : List Nat} {msgLen : Nat}

/-- With only parents on the stack, any text is safe. -/
theorem safe_of_parents (linked : Linked nodes) (parents : Parents nodes stack)
    (cur : List UInt8) : Safe ⟨nodes, root, stack, msgLen⟩ cur where
  linked := linked
  top np rest is := by
    obtain ⟨type, typed, parent⟩ := parents np (by simp [show stack = np :: rest from is])
    exact ⟨type, typed, covered_parent parent cur⟩
  below np member := parents np (List.mem_of_mem_tail member)

/-- A node on top of parents is safe where it is covered. -/
theorem safe_push {np : Nat} {type : ValueType} {cur : List UInt8} (linked : Linked nodes)
    (parents : Parents nodes stack) (typed : typeAt nodes np = some type)
    (covered : Covered type cur) : Safe ⟨nodes, root, np :: stack, msgLen⟩ cur where
  linked := linked
  top p rest is := by
    obtain ⟨rfl, -⟩ := List.cons.inj is
    exact ⟨type, typed, covered⟩
  below := parents

/-- Descending into a node that is covered leaves a safe stack. -/
theorem descend_proceeds {np bound : Nat} {node : Node} {type : ValueType} {cur : List UInt8}
    (linked : Linked nodes) (parents : Parents nodes stack) (cell : nodes[np]? = some node)
    (parent : isParent node.type) (covered : Covered type cur)
    (shorter : 3 * cur.length + (stack.length + 2) < bound) :
    Proceeds bound ((descend ⟨nodes, root, stack, msgLen⟩ np type).bind fun json =>
      some (.next json cur)) := by
  have inside := (List.getElem?_eq_some_iff.mp cell).1
  obtain ⟨grown, done, kept, types⟩ := descend_linked linked root stack msgLen type inside
  rw [done]
  refine ⟨safe_push kept ?_ (by rw [types]; exact typeAt_new nodes _) covered, by simpa using shorter⟩
  intro p member
  rcases List.mem_cons.mp member with rfl | deeper
  · exact ⟨node.type, by rw [types, typeAt_append inside, typeAt_eq cell], parent⟩
  · exact parents.grow types p deeper

/-- Marking a container as empty leaves a safe stack. -/
theorem mark_proceeds {np bound : Nat} {node : Node} (cur : List UInt8)
    (linked : Linked nodes) (parents : Parents nodes stack) (cell : nodes[np]? = some node)
    (shorter : 3 * cur.length + stack.length < bound) :
    Proceeds bound ((appendLeft (create ⟨nodes, root, stack, msgLen⟩ .emptySet).2 np
      (create ⟨nodes, root, stack, msgLen⟩ .emptySet).1).bind fun json =>
      some (.next (json.count 1) cur)) := by
  have inside := (List.getElem?_eq_some_iff.mp cell).1
  obtain ⟨grown, done, kept, types⟩ := appendLeft_linked linked root stack msgLen .emptySet inside
  simp only [create, done]
  exact ⟨safe_of_parents kept (parents.grow types) cur, shorter⟩

/-- The turn for an object proceeds. -/
theorem objectTurn_proceeds {np : Nat} {node : Node} (cur : List UInt8) (linked : Linked nodes)
    (parents : Parents nodes stack) (cell : nodes[np]? = some node) (object : node.type = .object) :
    Proceeds (3 * cur.length + stack.length + 1)
      (objectTurn ⟨nodes, root, stack, msgLen⟩ np node cur) := by
  have parent : isParent node.type := by rw [object]; rfl
  have skipped := skipWs_length_le cur.tail
  simp only [objectTurn]
  split_ifs with leaf unopened closes unnamed alone unclosed
  · trivial
  · have passed := tail_length (not_not.mp unopened) (by decide)
    have further := tail_length closes (by decide)
    exact mark_proceeds _ linked parents cell (by dsimp only; omega)
  · trivial
  · have passed := tail_length (not_not.mp unopened) (by decide)
    exact descend_proceeds linked parents cell parent (covered_parent rfl _) (by dsimp only; omega)
  · trivial
  · have passed := tail_length (not_not.mp unclosed) (by decide)
    exact ⟨safe_of_parents linked parents _, by simp only [count]; omega⟩
  · trivial

/-- The turn for an array proceeds. -/
theorem arrayTurn_proceeds {np : Nat} {node : Node} (cur : List UInt8) (linked : Linked nodes)
    (parents : Parents nodes stack) (cell : nodes[np]? = some node) (array : node.type = .array) :
    Proceeds (3 * cur.length + stack.length + 1)
      (arrayTurn ⟨nodes, root, stack, msgLen⟩ np node cur) := by
  have parent : isParent node.type := by rw [array]; rfl
  have skipped := skipWs_length_le cur.tail
  simp only [arrayTurn]
  split_ifs with leaf unopened closes alone ends separated
  · trivial
  · have passed := tail_length (not_not.mp unopened) (by decide)
    have further := tail_length closes (by decide)
    exact mark_proceeds _ linked parents cell (by dsimp only; omega)
  · have passed := tail_length (not_not.mp unopened) (by decide)
    cases created : valueCreate (skipWs cur.tail) with
    | none => trivial
    | some type =>
      exact descend_proceeds linked parents cell parent (covered_of_create created)
        (by dsimp only; omega)
  · have passed := tail_length ends (by decide)
    exact ⟨safe_of_parents linked parents _, by simp only [count]; omega⟩
  · trivial
  · have passed := tail_length (not_not.mp separated) (by decide)
    cases created : valueCreate (skipWs cur.tail) with
    | none => trivial
    | some type =>
      simp only [native_of_create created, Bool.not_true, Bool.false_eq_true, if_false]
      exact descend_proceeds linked parents cell parent (covered_of_create created)
        (by dsimp only; omega)
  · trivial

/-- A string, found by its closing mark, and the text behind it. -/
theorem strchrQuote_length {cur p : List UInt8} (found : strchrQuote cur = some p) :
    p.tail.length < cur.length := by
  obtain ⟨content, rest, rfl, -, rfl⟩ := strchrQuote_some found
  simp
  omega

/-- The turn for a pair proceeds. -/
theorem nvPairTurn_proceeds {np : Nat} {node : Node} (cur : List UInt8) (linked : Linked nodes)
    (parents : Parents nodes stack) (cell : nodes[np]? = some node) (pair : node.type = .nvPair) :
    Proceeds (3 * cur.length + stack.length + 1)
      (nvPairTurn ⟨nodes, root, stack, msgLen⟩ np node cur) := by
  have inside := (List.getElem?_eq_some_iff.mp cell).1
  simp only [nvPairTurn]
  split_ifs with leaf unnamed alone closes separated
  · trivial
  · have passed := tail_length (not_not.mp unnamed) (by decide)
    cases found : strchrQuote cur.tail with
    | none => trivial
    | some p =>
      have shorter := strchrQuote_length found
      have blank := skipWs_length_le p.tail
      have more := skipWs_length_le (skipWs p.tail).tail
      have tail : (skipWs p.tail).tail.length ≤ (skipWs p.tail).length := by simp
      dsimp only
      split_ifs with unmarked
      · trivial
      · cases created : valueCreate (skipWs (skipWs p.tail).tail) with
        | none => trivial
        | some type =>
          -- writing the name keeps links and types
          have renamed := typeAt_set cell
            { node with element := some (cur.tail.take (cur.tail.length - p.length)) } rfl
          have parent : isParent node.type := by rw [pair]; rfl
          refine descend_proceeds (linked.set (linked np node cell).1 (linked np node cell).2)
            ?_ (List.getElem?_set_self inside) parent (covered_of_create created) ?_
          swap
          · simp only [count, setNode]
            omega
          intro q member
          obtain ⟨found, typed, parent⟩ := parents q member
          exact ⟨found, (renamed q).trans typed, parent⟩
  · exact ⟨safe_of_parents linked parents _, by simp⟩
  · trivial
  · have passed := tail_length (not_not.mp separated) (by decide)
    obtain ⟨grown, done, kept, types⟩ :=
      appendRight_linked linked root stack (msgLen + 1) .nvPair inside
    simp only [count, create, done]
    exact ⟨safe_push kept (parents.grow types) (by rw [types]; exact typeAt_new nodes _)
      (covered_parent rfl _), by simp only [push, List.length_cons]; omega⟩
  · trivial

/-- Storing the content of a leaf leaves the parents on the stack. -/
theorem leaf_proceeds {np bound : Nat} {node : Node} (element : Option (List UInt8))
    (bytes : Nat) (cur : List UInt8) (linked : Linked nodes) (parents : Parents nodes stack)
    (cell : nodes[np]? = some node) (shorter : 3 * cur.length + stack.length < bound) :
    Proceeds bound (some (.next ((setNode ⟨nodes, root, stack, msgLen⟩ np
      { node with element := element }).count bytes) cur)) := by
  have typed := typeAt_set cell { node with element := element } rfl
  have kept : Linked (nodes.set np { node with element := element }) :=
    linked.set (linked np node cell).1 (linked np node cell).2
  refine ⟨safe_of_parents kept ?_ cur, shorter⟩
  intro p member
  obtain ⟨found, is, parent⟩ := parents p member
  exact ⟨found, (typed p).trans is, parent⟩

/-- The turn for a string proceeds. -/
theorem stringTurn_proceeds {np : Nat} {node : Node} (cur : List UInt8) (linked : Linked nodes)
    (parents : Parents nodes stack) (cell : nodes[np]? = some node) :
    Proceeds (3 * cur.length + stack.length + 1)
      (stringTurn ⟨nodes, root, stack, msgLen⟩ np node cur) := by
  simp only [stringTurn]
  split_ifs with unnamed
  · trivial
  · have passed := tail_length (not_not.mp unnamed) (by decide)
    cases found : strchrQuote cur.tail with
    | none => trivial
    | some p =>
      have shorter := strchrQuote_length found
      exact leaf_proceeds _ _ _ linked parents cell (by omega)

/-- The turn for a number proceeds. -/
theorem numberTurn_proceeds {np : Nat} {node : Node} (cur : List UInt8) (linked : Linked nodes)
    (parents : Parents nodes stack) (cell : nodes[np]? = some node) :
    Proceeds (3 * cur.length + stack.length + 1)
      (numberTurn ⟨nodes, root, stack, msgLen⟩ np node cur) := by
  simp only [numberTurn]
  cases taken : getNumber cur with
  | none => trivial
  | some p =>
    obtain ⟨content, whole, -⟩ := getNumber_sound taken
    have shorter := congrArg List.length whole
    rw [List.length_append] at shorter
    exact leaf_proceeds _ _ _ linked parents cell (by omega)

/-- The turn for a literal proceeds where its letters are there. -/
theorem literalTurn_proceeds {bytes : Nat} {cur : List UInt8} (linked : Linked nodes)
    (parents : Parents nodes stack) (letters : bytes ≤ cur.length) :
    Proceeds (3 * cur.length + stack.length + 1)
      (literalTurn ⟨nodes, root, stack, msgLen⟩ bytes cur) := by
  rw [literalTurn, if_neg (Nat.not_lt.mpr letters)]
  refine ⟨safe_of_parents linked parents _, ?_⟩
  simp only [count, List.length_drop]
  omega

/-- Every turn from a safe state proceeds. -/
theorem parseTurn_proceeds {np : Nat} {cur : List UInt8}
    (safe : Safe ⟨nodes, root, np :: stack, msgLen⟩ cur) :
    Proceeds (3 * cur.length + stack.length + 1)
      (parseTurn ⟨nodes, root, np :: stack, msgLen⟩ cur) := by
  obtain ⟨type, typed, covered⟩ := safe.top np stack rfl
  have linked : Linked nodes := safe.linked
  have parents : Parents nodes stack := safe.below
  obtain ⟨node, cell⟩ := exists_node (typeAt_lt typed)
  have is : node.type = type := by
    rw [typeAt_eq cell] at typed
    exact Option.some.inj typed
  have skipped := skipWs_length_le cur
  have weaken : ∀ flow, Proceeds (3 * (skipWs cur).length + stack.length + 1) flow →
      Proceeds (3 * cur.length + stack.length + 1) flow := by
    rintro (_ | _ | _) proceeds
    · exact proceeds
    · exact ⟨proceeds.1, by have bound := proceeds.2; omega⟩
    · trivial
  rw [parseTurn_top _ _ _ cell]
  apply weaken
  cases kind : type with
  | false =>
    rw [kind] at is
    have letters : 5 ≤ (skipWs cur).length := covered .false kind
    simpa [nodeTurn, is] using literalTurn_proceeds linked parents letters
  | null =>
    rw [kind] at is
    have letters : 4 ≤ (skipWs cur).length := covered .null kind
    simpa [nodeTurn, is] using literalTurn_proceeds linked parents letters
  | true =>
    rw [kind] at is
    have letters : 4 ≤ (skipWs cur).length := covered .true kind
    simpa [nodeTurn, is] using literalTurn_proceeds linked parents letters
  | object =>
    rw [kind] at is
    simpa [nodeTurn, is] using objectTurn_proceeds (skipWs cur) linked parents cell is
  | array =>
    rw [kind] at is
    simpa [nodeTurn, is] using arrayTurn_proceeds (skipWs cur) linked parents cell is
  | nvPair =>
    rw [kind] at is
    simpa [nodeTurn, is] using nvPairTurn_proceeds (skipWs cur) linked parents cell is
  | number =>
    rw [kind] at is
    simpa [nodeTurn, is] using numberTurn_proceeds (skipWs cur) linked parents cell
  | string =>
    rw [kind] at is
    simpa [nodeTurn, is] using stringTurn_proceeds (skipWs cur) linked parents cell
  | emptySet =>
    rw [kind] at is
    simp only [nodeTurn, is]
    trivial

end Turns

/-! ## Runs -/

/-- The loop returns within as many turns as there is left to do. -/
theorem parseLoop_total {turns : Nat} {json : Json} {cur : List UInt8} (safe : Safe json cur)
    (enough : 3 * cur.length + json.stack.length < turns) :
    ∃ flow, parseLoop turns json cur = some flow := by
  induction turns generalizing json cur with
  | zero => omega
  | succ turns inductionHypothesis =>
    rw [parseLoop]
    by_cases finished : cur = [] ∨ json.stack = []
    · exact ⟨_, if_pos finished⟩
    · rw [if_neg finished]
      obtain ⟨nodes, root, stack, msgLen⟩ := json
      cases stack with
      | nil => exact absurd (.inr rfl) finished
      | cons np stack =>
        have proceeds := parseTurn_proceeds safe
        cases turn : parseTurn ⟨nodes, root, np :: stack, msgLen⟩ cur with
        | none =>
          rw [turn] at proceeds
          exact proceeds.elim
        | some flow =>
          cases flow with
          | funcOut => exact ⟨.funcOut, rfl⟩
          | next json' cur' =>
            rw [turn] at proceeds
            obtain ⟨still, less⟩ := proceeds
            simp only [List.length_cons] at enough
            exact inductionHypothesis still (by omega)

/-- Where the loop ends by itself, the nodes and the stack can still be used. -/
theorem parseLoop_safe {turns : Nat} {json last : Json} {cur rest : List UInt8}
    (safe : Safe json cur) (done : parseLoop turns json cur = some (.next last rest)) :
    Safe last rest := by
  induction turns generalizing json cur with
  | zero => cases done
  | succ turns inductionHypothesis =>
    rw [parseLoop] at done
    split at done
    · obtain ⟨rfl, rfl⟩ := Flow.next.inj (Option.some.inj done)
      exact safe
    · rename_i unfinished
      obtain ⟨nodes, root, stack, msgLen⟩ := json
      cases stack with
      | nil => exact absurd (.inr rfl) unfinished
      | cons np stack =>
        have proceeds := parseTurn_proceeds safe
        cases turn : parseTurn ⟨nodes, root, np :: stack, msgLen⟩ cur with
        | none =>
          rw [turn] at done
          cases done
        | some flow =>
          rw [turn] at done proceeds
          cases flow with
          | funcOut => cases done
          | next json' cur' => exact inductionHypothesis proceeds.1 done

end Ezcfg.Json

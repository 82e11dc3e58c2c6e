import Ezcfg.Json.Tree

/-!
# What one turn of the parser does

One equation for each kind of node on top of the stack and each stage it can be in:
just created, at the end of the list of nodes, or with its children already there. A
later element of an array is appended behind the last one, which is found by
following the right links; `Path` says that they lead there.
-/

namespace Ezcfg.Json

open Foundation Foundation.Json

/-! ## Right links -/

/-- The right links lead from one node to another, always to a later node. -/
inductive Path (nodes : List Node) : Nat → Nat → Prop
  | here (p : Nat) : Path nodes p p
  | next {c n p : Nat} {node : Node} (cell : nodes[c]? = some node) (link : node.right = some n)
      (later : c < n) (rest : Path nodes n p) : Path nodes c p

/-- A path does not lead back. -/
theorem Path.le {nodes : List Node} {c p : Nat} (path : Path nodes c p) : c ≤ p := by
  induction path with
  | here => exact Nat.le_refl _
  | next _ _ later _ inductionHypothesis => omega

/-- A path depends only on the nodes in front of its end. -/
theorem Path.frame {nodes other : List Node} {c p : Nat} (path : Path nodes c p)
    (same : ∀ i, i < p → other[i]? = nodes[i]?) : Path other c p := by
  induction path with
  | here => exact .here _
  | next cell link later rest inductionHypothesis =>
    have bound := rest.le
    exact .next ((same _ (by omega)).trans cell) link later (inductionHypothesis same)

/-- A path goes on where its end has a link. -/
theorem Path.extend {nodes : List Node} {c p q : Nat} {node : Node} (path : Path nodes c p)
    (cell : nodes[p]? = some node) (link : node.right = some q) (later : p < q) :
    Path nodes c q := by
  induction path with
  | here => exact .next cell link later (.here q)
  | next first step earlier _ inductionHypothesis =>
    exact .next first step earlier (inductionHypothesis cell later)

/-- Following the links finds the end of a path that has none. -/
theorem lastRight_of_path {nodes : List Node} {c p : Nat} {node : Node} (path : Path nodes c p)
    (cell : nodes[p]? = some node) (last : node.right = none) (fuel : Nat)
    (enough : p - c < fuel) : lastRight nodes fuel c = some p := by
  induction path generalizing fuel with
  | here =>
    obtain ⟨fuel, rfl⟩ := Nat.exists_eq_add_one_of_ne_zero (by omega : fuel ≠ 0)
    simp [lastRight, cell, last]
  | next first step later rest inductionHypothesis =>
    have bound := rest.le
    obtain ⟨fuel, rfl⟩ := Nat.exists_eq_add_one_of_ne_zero (by omega : fuel ≠ 0)
    simpa [lastRight, first, step] using inductionHypothesis cell fuel (by omega)

/-! ## A node just created -/

section Fresh

variable (before : List Node) (root : Option Nat) (stack : List Nat) (msgLen : Nat)

/-- A turn looks at the node on top of the stack. -/
theorem parseTurn_top {nodes : List Node} {np : Nat} {node : Node} (cell : nodes[np]? = some node)
    (cur : List UInt8) : parseTurn ⟨nodes, root, np :: stack, msgLen⟩ cur =
      nodeTurn ⟨nodes, root, stack, msgLen⟩ np node (skipWs cur) := by
  simp [parseTurn, cell]

/-- The child of a node at the end of the list becomes the last node. -/
theorem descend_fresh (node : Node) (leaf : node.left = none) (type : ValueType) :
    descend ⟨before ++ [node], root, stack, msgLen⟩ before.length type =
      some ⟨before ++ [{ node with left := some (before.length + 1) }] ++ [{ type := type }], root,
        (before.length + 1) :: before.length :: stack, msgLen⟩ := by
  simp [descend, create, appendLeft, leaf, setNode, push]

/-- A mark behind a node at the end of the list. -/
theorem mark_fresh (node : Node) (leaf : node.left = none) :
    appendLeft ⟨before ++ [node] ++ [{ type := .emptySet }], root, stack, msgLen⟩ before.length
        (before.length + 1) =
      some ⟨before ++ [{ node with left := some (before.length + 1) }, { type := .emptySet }],
        root, stack, msgLen⟩ := by
  simp [appendLeft, leaf, setNode]

/-- The turn for an object just created. -/
theorem object_open (rest : List UInt8) :
    parseTurn ⟨before ++ [{ type := .object }], root, before.length :: stack, msgLen⟩
        (openBrace :: rest) =
      if byteAt (skipWs rest) = closeBrace then
        some (.next ⟨before ++ [{ type := .object, left := some (before.length + 1) },
          { type := .emptySet }], root, stack, msgLen + 2⟩ (skipWs rest).tail)
      else if byteAt (skipWs rest) ≠ quote then some .funcOut
      else some (.next ⟨before ++ [{ type := .object, left := some (before.length + 1) }] ++
          [{ type := .nvPair }], root, (before.length + 1) :: before.length :: stack,
          msgLen + 1⟩ (skipWs rest)) := by
  have start : skipWs (openBrace :: rest) = openBrace :: rest := rfl
  rw [parseTurn_top _ _ _ (get_middle before [] _), start]
  split_ifs with empty named
  · have marked := mark_fresh before root stack (msgLen + 1) { type := .object } rfl
    simp_all [nodeTurn, objectTurn, byteAt, count, create]
  · simp_all [nodeTurn, objectTurn, byteAt]
  · have child := descend_fresh before root stack (msgLen + 1) { type := .object } rfl .nvPair
    simp_all [nodeTurn, objectTurn, byteAt, count]

/-- The turn for an array just created. -/
theorem array_open (rest : List UInt8) :
    parseTurn ⟨before ++ [{ type := .array }], root, before.length :: stack, msgLen⟩
        (openBracket :: rest) =
      if byteAt (skipWs rest) = closeBracket then
        some (.next ⟨before ++ [{ type := .array, left := some (before.length + 1) },
          { type := .emptySet }], root, stack, msgLen + 2⟩ (skipWs rest).tail)
      else
        match valueCreate (skipWs rest) with
        | none => some .funcOut
        | some type =>
          some (.next ⟨before ++ [{ type := .array, left := some (before.length + 1) }] ++
            [{ type := type }], root, (before.length + 1) :: before.length :: stack,
            msgLen + 1⟩ (skipWs rest)) := by
  have start : skipWs (openBracket :: rest) = openBracket :: rest := rfl
  rw [parseTurn_top _ _ _ (get_middle before [] _), start]
  split_ifs with empty
  · have marked := mark_fresh before root stack (msgLen + 1) { type := .array } rfl
    simp_all [nodeTurn, arrayTurn, byteAt, count, create]
  · cases created : valueCreate (skipWs rest) with
    | none => simp_all [nodeTurn, arrayTurn, byteAt]
    | some type =>
      have child := descend_fresh before root stack (msgLen + 1) { type := .array } rfl type
      simp_all [nodeTurn, arrayTurn, byteAt, count]

/-- The turn for a pair just created, where a name, a colon and a value are. -/
theorem pair_open {cur name ws more input : List UInt8} {type : ValueType}
    (named : skipWs cur = quote :: (name ++ quote :: (ws ++ colon :: (more ++ input))))
    (unquoted : quote ∉ name) (spaces : Spaces ws) (further : Spaces more)
    (created : valueCreate input = some type) :
    parseTurn ⟨before ++ [{ type := .nvPair }], root, before.length :: stack, msgLen⟩ cur =
      some (.next ⟨before ++
        [{ type := .nvPair, element := some name, left := some (before.length + 1) }] ++
        [{ type := type }], root, (before.length + 1) :: before.length :: stack,
        msgLen + (name.length + 3)⟩ input) := by
  have atColon : skipWs (ws ++ colon :: (more ++ input)) = colon :: (more ++ input) := by
    rw [skipWs_spaces spaces]
    rfl
  have atValue : skipWs (more ++ input) = input := by
    rw [skipWs_spaces further, skipWs_of_not_space (valueCreate_starts created).not_space]
  have length : (name ++ quote :: (ws ++ colon :: (more ++ input))).length -
      (quote :: (ws ++ colon :: (more ++ input))).length = name.length := by simp
  have child := descend_fresh before root stack (msgLen + (name.length + 3))
    { type := .nvPair, element := some name } rfl type
  have total : msgLen + (1 + name.length + 1) + 1 = msgLen + (name.length + 3) := by omega
  rw [parseTurn_top _ _ _ (get_middle before [] _), named]
  simp only [nodeTurn, nvPairTurn, byteAt, List.headD_cons, ne_eq, not_true, if_false,
    if_true, List.tail_cons, strchrQuote_eq unquoted, length, List.take_left, setNode, set_middle,
    count, atColon, atValue, created, total]
  rw [child]
  rfl

/-- A turn for a pair just created that goes on has found a name, a colon and a
value. -/
theorem pair_open_inv {cur next : List UInt8} {json : Json}
    (goes : parseTurn ⟨before ++ [{ type := .nvPair }], root, before.length :: stack, msgLen⟩
      cur = some (.next json next)) :
    ∃ name ws more type,
      skipWs cur = quote :: (name ++ quote :: (ws ++ colon :: (more ++ next))) ∧
        quote ∉ name ∧ Spaces ws ∧ Spaces more ∧ valueCreate next = some type := by
  rw [parseTurn_top _ _ _ (get_middle before [] _)] at goes
  simp only [nodeTurn, nvPairTurn, if_true] at goes
  by_cases named : byteAt (skipWs cur) = quote
  swap
  · simp [named] at goes
  have start := eq_cons_of_byteAt (p := skipWs cur) (by rw [named]; decide)
  rw [named] at start
  cases found : strchrQuote (skipWs cur).tail with
  | none => simp [named, found] at goes
  | some p =>
    obtain ⟨name, rest, whole, unquoted, rfl⟩ := strchrQuote_some found
    by_cases separated : byteAt (skipWs rest) = colon
    swap
    · simp [named, found, separated] at goes
    obtain ⟨ws, spaces, split, -⟩ := skipWs_spec rest
    have atColon := eq_cons_of_byteAt (p := skipWs rest) (by rw [separated]; decide)
    rw [separated] at atColon
    obtain ⟨more, further, behind, -⟩ := skipWs_spec (skipWs rest).tail
    cases created : valueCreate (skipWs (skipWs rest).tail) with
    | none => simp [named, found, separated, created] at goes
    | some type =>
      have last : skipWs (skipWs rest).tail = next := by
        simp only [named, found, separated, created, List.tail_cons, ne_eq, not_true,
          if_false, Option.bind_eq_bind, Option.bind_eq_some_iff] at goes
        obtain ⟨handle, -, same⟩ := goes
        exact (Flow.next.inj (Option.some.inj same)).2
      rw [last] at behind created
      refine ⟨name, ws, more, type, ?_, unquoted, spaces, further, created⟩
      rw [start, whole, ← behind, ← atColon, ← split]

/-- The turn for a string just created. -/
theorem string_read {content : List UInt8} (unquoted : quote ∉ content) (rest : List UInt8) :
    parseTurn ⟨before ++ [{ type := .string }], root, before.length :: stack, msgLen⟩
        (quote :: (content ++ quote :: rest)) =
      some (.next ⟨before ++ [{ type := .string, element := some content }], root, stack,
        msgLen + (content.length + 2)⟩ rest) := by
  have start : skipWs (quote :: (content ++ quote :: rest)) = quote :: (content ++ quote :: rest) :=
    rfl
  have length : (content ++ quote :: rest).length - (quote :: rest).length = content.length := by
    simp
  rw [parseTurn_top _ _ _ (get_middle before [] _), start]
  simp only [nodeTurn, stringTurn, byteAt, List.headD_cons, ne_eq, not_true, if_false,
    List.tail_cons, strchrQuote_eq unquoted, length, List.take_left, setNode, set_middle, count]
  congr 4
  omega

/-- The turn for a literal just created. -/
theorem literal_read (word : Literal) (rest : List UInt8) :
    parseTurn ⟨before ++ [{ type := literalType word }], root, before.length :: stack, msgLen⟩
        (word.bytes ++ rest) =
      some (.next ⟨before ++ [{ type := literalType word }], root, stack,
        msgLen + word.bytes.length⟩ rest) := by
  rw [parseTurn_top _ _ _ (get_middle before [] _)]
  cases word <;> simp [nodeTurn, literalType, literalTurn, Literal.bytes, skipWs, isSpace, count]

/-- The turn for a number just created. -/
theorem number_read {content rest : List UInt8} (token : tokens.number content rest) :
    parseTurn ⟨before ++ [{ type := .number }], root, before.length :: stack, msgLen⟩
        (content ++ rest) =
      some (.next ⟨before ++ [{ type := .number, element := some content }], root, stack,
        msgLen + content.length⟩ rest) := by
  have start : skipWs (content ++ rest) = content ++ rest := by
    apply skipWs_of_not_space
    have first := number_start (number_of_tokens token) rest
    intro space
    simp only [isSpace, Bool.or_eq_true, decide_eq_true_eq] at space
    rcases space with ((same | same) | same) | same <;> rw [same] at first <;>
      exact absurd first (by decide)
  have taken : getNumber (content ++ rest) = some rest := token
  have length : (content ++ rest).length - rest.length = content.length := by simp
  rw [parseTurn_top _ _ _ (get_middle before [] _), start]
  simp only [nodeTurn, numberTurn, taken, length, List.take_left, setNode, set_middle, count]

end Fresh

/-! ## A node whose children are there -/

section Continued

variable (root : Option Nat) (stack : List Nat) (msgLen : Nat)

/-- The turn for an object that has members. -/
theorem object_close {nodes : List Node} {np left : Nat} {node : Node}
    (cell : nodes[np]? = some node) (object : node.type = .object)
    (children : node.left = some left) (alone : node.right = none) (cur : List UInt8) :
    parseTurn ⟨nodes, root, np :: stack, msgLen⟩ cur =
      if byteAt (skipWs cur) = closeBrace then
        some (.next ⟨nodes, root, stack, msgLen + 1⟩ (skipWs cur).tail)
      else some .funcOut := by
  rw [parseTurn_top _ _ _ cell]
  by_cases closes : byteAt (skipWs cur) = closeBrace <;>
    simp [nodeTurn, object, objectTurn, children, alone, closes, count]

variable (before after : List Node)

/-- Appending a node behind the last one of a chain. -/
theorem append_sibling {node : Node} {first : Nat} (path : Path before first before.length)
    (alone : node.right = none) (type : ValueType) :
    appendRight ⟨before ++ node :: after ++ [{ type := type }], root, stack, msgLen⟩
        first (before.length + 1 + after.length) =
      some ⟨before ++ { node with right := some (before.length + 1 + after.length) } :: after ++
        [{ type := type }], root, stack, msgLen⟩ := by
  have cell : (before ++ node :: after ++ [({ type := type } : Node)])[before.length]? =
      some node := by simp
  have longer : Path (before ++ node :: after ++ [({ type := type } : Node)]) first
      before.length := path.frame fun i bound => by
    rw [List.append_assoc, List.getElem?_append_left bound]
  have found : lastRight (before ++ node :: after ++ [({ type := type } : Node)])
      (before ++ node :: after ++ [({ type := type } : Node)]).length first =
      some before.length :=
    lastRight_of_path longer cell alone _ (by simp; omega)
  simp only [appendRight, found, cell, Option.bind_eq_bind, Option.bind_some, setNode]
  simp

/-- The turn for a pair that has its value. -/
theorem pair_next (node : Node) {left : Nat} (pair : node.type = .nvPair)
    (value : node.left = some left) (alone : node.right = none) (cur : List UInt8) :
    parseTurn ⟨before ++ node :: after, root, before.length :: stack, msgLen⟩ cur =
      if byteAt (skipWs cur) = closeBrace then
        some (.next ⟨before ++ node :: after, root, stack, msgLen⟩ (skipWs cur))
      else if byteAt (skipWs cur) ≠ comma then some .funcOut
      else some (.next ⟨before ++
          { node with right := some (before.length + 1 + after.length) } :: after ++
          [{ type := .nvPair }], root, (before.length + 1 + after.length) :: stack, msgLen + 1⟩
          (skipWs cur).tail) := by
  rw [parseTurn_top _ _ _ (get_middle ..)]
  have sibling := append_sibling root stack (msgLen + 1) before after (.here _) alone .nvPair
  have size : before.length + (after.length + 1) = before.length + 1 + after.length := by omega
  split_ifs with closes separated
  · simp [nodeTurn, pair, nvPairTurn, value, alone, closes]
  · simp [nodeTurn, pair, nvPairTurn, value, alone, closes, separated]
  · have atComma : byteAt (skipWs cur) = comma := not_not.mp separated
    simp_all [nodeTurn, nvPairTurn, create, count, push]

/-- The node at `np` is an array whose last element comes next in the list. -/
def OpenArray (nodes : List Node) (np : Nat) : Prop :=
  ∃ node first, nodes[np]? = some node ∧ node.type = .array ∧ node.left = some first ∧
    node.right = none ∧ Path nodes first nodes.length

/-- An array is open behind its first element. -/
theorem openArray_first {node : Node} (array : node.type = .array) (alone : node.right = none)
    (child : node.left = some (before.length + 1)) :
    OpenArray (before ++ [node]) before.length := by
  refine ⟨node, _, get_middle before [] node, array, child, alone, ?_⟩
  simpa using Path.here _

/-- An array stays open behind its next element, which the last one links to. -/
theorem OpenArray.grow {before after : List Node} {np : Nat} (opened : OpenArray before np)
    (last : Node) (link : last.right = some (before.length + 1 + after.length)) :
    OpenArray (before ++ last :: after) np := by
  obtain ⟨node, first, cell, array, child, alone, path⟩ := opened
  have bound : np < before.length := (List.getElem?_eq_some_iff.mp cell).1
  refine ⟨node, first, ?_, array, child, alone, ?_⟩
  · rw [List.getElem?_append_left bound, cell]
  · have longer : Path (before ++ last :: after) first before.length :=
      path.frame fun i inside => List.getElem?_append_left inside
    have whole : (before ++ last :: after).length = before.length + 1 + after.length := by
      simp
      omega
    rw [whole]
    exact longer.extend (get_middle ..) link (by omega)

/-- Every type that is created is one of the native values. -/
theorem native_of_create {buf : List UInt8} {type : ValueType}
    (created : valueCreate buf = some type) : isNativeValue type := by
  cases valueCreate_starts created with
  | string => rfl
  | object => rfl
  | array => rfl
  | @literal word => cases word <;> rfl
  | number => rfl

/-- The turn for an array that has elements. -/
theorem array_next {np : Nat} (opened : OpenArray before np) (node : Node)
    (alone : node.right = none) (cur : List UInt8) :
    parseTurn ⟨before ++ node :: after, root, np :: stack, msgLen⟩ cur =
      if byteAt (skipWs cur) = closeBracket then
        some (.next ⟨before ++ node :: after, root, stack, msgLen + 1⟩ (skipWs cur).tail)
      else if byteAt (skipWs cur) ≠ comma then some .funcOut
      else
        match valueCreate (skipWs (skipWs cur).tail) with
        | none => some .funcOut
        | some type =>
          some (.next ⟨before ++
            { node with right := some (before.length + 1 + after.length) } :: after ++
            [{ type := type }], root, (before.length + 1 + after.length) :: np :: stack,
            msgLen + 1⟩ (skipWs (skipWs cur).tail)) := by
  obtain ⟨array, first, cell, isArray, child, single, path⟩ := opened
  have bound : np < before.length := (List.getElem?_eq_some_iff.mp cell).1
  have here : (before ++ node :: after)[np]? = some array := by
    rw [List.getElem?_append_left bound, cell]
  have there : ∀ type : ValueType,
      (before ++ node :: after ++ [({ type := type } : Node)])[np]? = some array := fun type => by
    rw [List.append_assoc, List.getElem?_append_left bound, cell]
  rw [parseTurn_top _ _ _ here]
  split_ifs with closes separated
  · simp [nodeTurn, isArray, arrayTurn, child, single, closes, count]
  · simp [nodeTurn, isArray, arrayTurn, child, single, closes, separated]
  · have atComma : byteAt (skipWs cur) = comma := not_not.mp separated
    cases created : valueCreate (skipWs (skipWs cur).tail) with
    | none =>
      have different : comma ≠ closeBracket := by decide
      simp [nodeTurn, isArray, arrayTurn, child, single, different, atComma, created]
    | some type =>
      have native := native_of_create created
      have sibling := append_sibling root stack (msgLen + 1) before after path alone type
      have size : before.length + (after.length + 1) = before.length + 1 + after.length := by
        omega
      have atArray := there type
      simp_all [nodeTurn, arrayTurn, create, count, push, descend, appendLeft]

end Continued

end Ezcfg.Json

import Ezcfg.Json.Writer

/-!
# The writer writes the printed value

Started on the root of a subtree with nothing marked, the loop writes the text of its
value without whitespace, then the comma in front of the sibling if there is one, and
leaves the nodes unmarked. The induction is on the value. Behind the bytes written the
buffer keeps what it had, except that a literal leaves its terminator there, which the
next write covers.
-/

namespace Ezcfg.Json

open Foundation Foundation.Json

/-! ## The buffer -/

/-- The buffer holds the output, and behind the next byte what it had at first. -/
def Filled (buffer out buf : List UInt8) : Prop :=
  ∃ tail, buf = out ++ tail ∧ tail.length + out.length = buffer.length ∧
    tail.drop 1 = buffer.drop (out.length + 1)

/-- The buffer holds the output, and behind it what it had at first. -/
def Exact (buffer out buf : List UInt8) : Prop := buf = out ++ buffer.drop out.length

/-- Exactly filled buffers are filled. -/
theorem Exact.filled {buffer out buf : List UInt8} (exact : Exact buffer out buf)
    (fits : out.length ≤ buffer.length) : Filled buffer out buf := by
  refine ⟨buffer.drop out.length, exact, by simp; omega, ?_⟩
  rw [List.drop_drop]

/-- Bytes written one by one replace what was there. -/
theorem emit_eq (json : Json) (out tail bytes : List UInt8) (fits : bytes.length ≤ tail.length) :
    emit ⟨json, out ++ tail, out.length⟩ bytes =
      some ⟨json, out ++ bytes ++ tail.drop bytes.length, (out ++ bytes).length⟩ := by
  induction bytes generalizing out tail with
  | nil => simp [emit]
  | cons byte bytes inductionHypothesis =>
    cases tail with
    | nil => simp at fits
    | cons first tail =>
      rw [List.length_cons, List.length_cons] at fits
      have written := inductionHypothesis (out ++ [byte]) tail (by omega)
      rw [List.length_append, List.length_singleton] at written
      simpa [emit] using written

/-- Writing at least one byte fills the buffer exactly. -/
theorem emit_filled {buffer out buf : List UInt8} (json : Json) (filled : Filled buffer out buf)
    (bytes : List UInt8) (some_ : bytes ≠ []) (fits : (out ++ bytes).length ≤ buffer.length) :
    ∃ buf', emit ⟨json, buf, out.length⟩ bytes = some ⟨json, buf', (out ++ bytes).length⟩ ∧
      Exact buffer (out ++ bytes) buf' := by
  obtain ⟨tail, rfl, length, rest⟩ := filled
  rw [List.length_append] at fits
  refine ⟨_, emit_eq json out tail bytes (by omega), ?_⟩
  have present := List.length_pos_of_ne_nil some_
  have behind : tail.drop bytes.length = buffer.drop (out ++ bytes).length := by
    have split : bytes.length = 1 + (bytes.length - 1) := by omega
    rw [split, ← List.drop_drop, rest, List.drop_drop]
    congr 1
    rw [List.length_append]
    omega
  rw [Exact, behind]

/-- Writing any number of bytes fills the buffer. -/
theorem emit_fills {buffer out buf : List UInt8} (json : Json) (filled : Filled buffer out buf)
    (bytes : List UInt8) (fits : (out ++ bytes).length ≤ buffer.length) :
    ∃ buf', emit ⟨json, buf, out.length⟩ bytes = some ⟨json, buf', (out ++ bytes).length⟩ ∧
      Filled buffer (out ++ bytes) buf' := by
  by_cases empty : bytes = []
  · subst empty
    exact ⟨buf, by simp [emit], by simpa using filled⟩
  · obtain ⟨buf', written, exact_⟩ := emit_filled json filled bytes empty fits
    exact ⟨buf', written, exact_.filled fits⟩

/-- `strcpy` leaves its terminator behind the bytes. -/
theorem emitString_filled {buffer out buf : List UInt8} (json : Json)
    (filled : Filled buffer out buf) (bytes : List UInt8)
    (fits : (out ++ bytes).length < buffer.length) :
    ∃ buf', emitString ⟨json, buf, out.length⟩ bytes =
        some ⟨json, buf', (out ++ bytes).length⟩ ∧ Filled buffer (out ++ bytes) buf' := by
  obtain ⟨tail, rfl, length, rest⟩ := filled
  rw [List.length_append] at fits
  have written := emit_eq json out tail (bytes ++ [0]) (by simp; omega)
  refine ⟨out ++ (bytes ++ [0]) ++ tail.drop (bytes ++ [(0 : UInt8)]).length, ?_,
    0 :: tail.drop (bytes.length + 1), by simp, by simp; omega, ?_⟩
  · simp [emitString, written]
  · have behind : tail.drop (bytes.length + 1) = buffer.drop (out.length + bytes.length + 1) := by
      rw [Nat.add_comm bytes.length 1, ← List.drop_drop, rest, List.drop_drop]
      congr 1
      omega
    simpa using behind

/-! ## Turns -/

/-- At most a number of turns leads from one state of the writer to another. -/
def Writes (bound : Nat) (state state' : Writing) : Prop :=
  ∃ turns, turns ≤ bound ∧ ∀ more, writeLoop (turns + more) state = writeLoop more state'

/-- Turns after turns. -/
theorem Writes.trans {first second : Nat} {state state' state'' : Writing}
    (writes : Writes first state state') (further : Writes second state' state'') :
    Writes (first + second) state state'' := by
  obtain ⟨turns, bounded, run⟩ := writes
  obtain ⟨others, bounded', run'⟩ := further
  exact ⟨turns + others, by omega, fun more => by rw [Nat.add_assoc, run, run']⟩

/-- A larger bound. -/
theorem Writes.weaken {bound larger : Nat} {state state' : Writing}
    (writes : Writes bound state state') (le : bound ≤ larger) : Writes larger state state' := by
  obtain ⟨turns, bounded, run⟩ := writes
  exact ⟨turns, by omega, run⟩

section Turns

variable {nodes : List Node} {root : Option Nat} {np : Nat} {stack : List Nat} {msgLen : Nat}

/-- One turn, while the text is not complete. -/
theorem writes_turn {buf : List UInt8} {position : Nat} {state : Writing}
    (unfinished : position < msgLen)
    (turn : writeTurn ⟨⟨nodes, root, np :: stack, msgLen⟩, buf, position⟩ = some (.next state)) :
    Writes 1 ⟨⟨nodes, root, np :: stack, msgLen⟩, buf, position⟩ state := by
  refine ⟨1, Nat.le_refl _, fun more => ?_⟩
  rw [Nat.add_comm]
  simp [writeLoop, unfinished, turn]

/-- A turn looks at the node on top of the stack. -/
theorem writeTurn_top {buf : List UInt8} {position : Nat} {node : Node}
    (cell : nodes[np]? = some node) :
    writeTurn ⟨⟨nodes, root, np :: stack, msgLen⟩, buf, position⟩ =
      writeNode ⟨⟨nodes, root, stack, msgLen⟩, buf, position⟩ np node := by
  simp [writeTurn, cell]

/-- The comma in front of a sibling. -/
def siblingComma : Option Nat → List UInt8
  | none => []
  | some _ => [comma]

/-- The sibling is written next, behind a comma. -/
theorem writeSibling_filled {buffer out buf : List UInt8} (json : Json)
    (filled : Filled buffer out buf) (right : Option Nat)
    (fits : (out ++ siblingComma right).length ≤ buffer.length) :
    ∃ buf', writeSibling ⟨json, buf, out.length⟩ right =
        some (.next ⟨{ json with stack := right.toList ++ json.stack }, buf',
          (out ++ siblingComma right).length⟩) ∧
      Filled buffer (out ++ siblingComma right) buf' ∧
      (Exact buffer out buf → Exact buffer (out ++ siblingComma right) buf') := by
  cases right with
  | none => exact ⟨buf, by simp [writeSibling, siblingComma], by simpa [siblingComma] using filled,
      by simp [siblingComma]⟩
  | some next =>
    obtain ⟨buf', written, exact_⟩ := emit_filled json filled [comma] (List.cons_ne_nil _ _) fits
    refine ⟨buf', ?_, exact_.filled fits, fun _ => exact_⟩
    simp [writeSibling, written, siblingComma, Writing.push, push]

end Turns

section Nodes

variable (before after : List Node) (root : Option Nat) (stack : List Nat) (msgLen : Nat)
  {buffer out buf : List UInt8}

/-- A container is opened: its bracket is written and its first child comes next. -/
theorem container_opens (opening closing : UInt8) (node : Node) {left : Nat}
    (filled : Filled buffer out buf) (fits : (out ++ [opening]).length ≤ buffer.length)
    (unmarked : node.visited = 0) (child : node.left = some left) :
    ∃ buf', writeContainer opening closing
        ⟨⟨before ++ node :: after, root, stack, msgLen⟩, buf, out.length⟩ before.length node =
      some (.next ⟨⟨before ++ { node with visited := 1 } :: after, root,
        left :: before.length :: stack, msgLen⟩, buf', (out ++ [opening]).length⟩) ∧
      Exact buffer (out ++ [opening]) buf' := by
  obtain ⟨buf', written, exact_⟩ := emit_filled ⟨before ++ node :: after, root, stack, msgLen⟩
    filled [opening] (List.cons_ne_nil _ _) fits
  refine ⟨buf', ?_, exact_⟩
  simp [writeContainer, unmarked, written, child, Writing.setNode, Writing.push, setNode, push]

/-- A container is closed: its bracket is written and its sibling comes next. -/
theorem container_closes (opening closing : UInt8) (node : Node)
    (filled : Filled buffer out buf)
    (fits : (out ++ [closing] ++ siblingComma node.right).length ≤ buffer.length)
    (unmarked : node.visited = 0) :
    ∃ buf', writeContainer opening closing
        ⟨⟨before ++ { node with visited := 1 } :: after, root, stack, msgLen⟩, buf, out.length⟩
        before.length { node with visited := 1 } =
      some (.next ⟨⟨before ++ node :: after, root, node.right.toList ++ stack, msgLen⟩, buf',
        (out ++ [closing] ++ siblingComma node.right).length⟩) ∧
      Exact buffer (out ++ [closing] ++ siblingComma node.right) buf' := by
  have shorter : (out ++ [closing]).length ≤ buffer.length := by
    rw [List.length_append] at fits
    omega
  obtain ⟨buf₁, written, exact_⟩ := emit_filled
    ⟨before ++ { node with visited := 1 } :: after, root, stack, msgLen⟩ filled [closing] (List.cons_ne_nil _ _)
    shorter
  obtain ⟨buf₂, sibling, -, exact_₂⟩ := writeSibling_filled
    ⟨before ++ node :: after, root, stack, msgLen⟩ (exact_.filled shorter) node.right fits
  have restored : { node with visited := 0 } = node := by rw [← unmarked]
  refine ⟨buf₂, ?_, exact_₂ exact_⟩
  rw [← sibling]
  simp [writeContainer, written, Writing.setNode, setNode, restored]

/-- A pair is opened: its name is written and its value comes next. -/
theorem pair_opens (node : Node) {left : Nat} {name : List UInt8}
    (filled : Filled buffer out buf)
    (fits : (out ++ quote :: (name ++ [quote, colon])).length ≤ buffer.length)
    (unmarked : node.visited = 0) (child : node.left = some left)
    (named : node.element = some name) :
    ∃ buf', writePair ⟨⟨before ++ node :: after, root, stack, msgLen⟩, buf, out.length⟩
        before.length node =
      some (.next ⟨⟨before ++ { node with visited := 1 } :: after, root,
        left :: before.length :: stack, msgLen⟩, buf',
        (out ++ quote :: (name ++ [quote, colon])).length⟩) ∧
      Exact buffer (out ++ quote :: (name ++ [quote, colon])) buf' := by
  obtain ⟨buf', written, exact_⟩ := emit_filled ⟨before ++ node :: after, root, stack, msgLen⟩
    filled (quote :: (name ++ [quote, colon])) (List.cons_ne_nil _ _) fits
  refine ⟨buf', ?_, exact_⟩
  simp [writePair, unmarked, child, named, written, Writing.setNode, Writing.push, setNode, push]

/-- A pair is closed: its sibling comes next. -/
theorem pair_closes (node : Node) (filled : Filled buffer out buf)
    (fits : (out ++ siblingComma node.right).length ≤ buffer.length)
    (unmarked : node.visited = 0) :
    ∃ buf', writePair ⟨⟨before ++ { node with visited := 1 } :: after, root, stack, msgLen⟩, buf,
        out.length⟩ before.length { node with visited := 1 } =
      some (.next ⟨⟨before ++ node :: after, root, node.right.toList ++ stack, msgLen⟩, buf',
        (out ++ siblingComma node.right).length⟩) ∧
      Filled buffer (out ++ siblingComma node.right) buf' := by
  obtain ⟨buf', sibling, filled', -⟩ := writeSibling_filled
    ⟨before ++ node :: after, root, stack, msgLen⟩ filled node.right fits
  have restored : { node with visited := 0 } = node := by rw [← unmarked]
  refine ⟨buf', ?_, filled'⟩
  rw [← sibling]
  simp [writePair, Writing.setNode, setNode, restored]

/-- A string, a number or a literal is written at once, and its sibling comes next. -/
theorem leaf_written {value : Value} (json : Json) (leaf : ¬ value.Container)
    (filled : Filled buffer out buf) (p : Nat) (right : Option Nat)
    (fits : (out ++ value.print ++ siblingComma right).length < buffer.length) :
    ∃ buf', writeNode ⟨json, buf, out.length⟩ p (valueNode p right value) =
        some (.next ⟨{ json with stack := right.toList ++ json.stack }, buf',
          (out ++ value.print ++ siblingComma right).length⟩) ∧
      Filled buffer (out ++ value.print ++ siblingComma right) buf' := by
  have shorter : (out ++ value.print).length < buffer.length := by
    rw [List.length_append] at fits
    omega
  cases value with
  | string content =>
    obtain ⟨buf₁, written, exact_⟩ := emit_filled json filled (quote :: (content ++ [quote])) (List.cons_ne_nil _ _)
      shorter.le
    obtain ⟨buf₂, sibling, filled', -⟩ := writeSibling_filled json (exact_.filled shorter.le) right
      fits.le
    refine ⟨buf₂, ?_, filled'⟩
    rw [Value.print, ← sibling]
    simp [writeNode, writeString, valueNode, written]
  | number content =>
    obtain ⟨buf₁, written, filled₁⟩ := emit_fills json filled content shorter.le
    obtain ⟨buf₂, sibling, filled₂, -⟩ := writeSibling_filled json filled₁ right fits.le
    refine ⟨buf₂, ?_, filled₂⟩
    rw [Value.print, ← sibling]
    simp [writeNode, writeNumber, valueNode, written]
  | literal word =>
    obtain ⟨buf₁, written, filled₁⟩ := emitString_filled json filled word.bytes shorter
    obtain ⟨buf₂, sibling, filled₂, -⟩ := writeSibling_filled json filled₁ right fits.le
    refine ⟨buf₂, ?_, filled₂⟩
    rw [Value.print, ← sibling]
    cases word <;> simp [writeNode, writeLiteral, valueNode, literalType, written]
  | object => exact absurd trivial leaf
  | array => exact absurd trivial leaf

end Nodes

/-! ## Values -/

/-- The comma in front of further members is that in front of their first pair. -/
theorem siblingComma_members (p : Nat) (members : Members) :
    siblingComma (membersLink p members) = members.separator := by
  cases members <;> rfl

/-- The comma in front of further elements is that in front of their first value. -/
theorem siblingComma_elements (p : Nat) (elements : Elements) :
    siblingComma (elementsLink p elements) = elements.separator := by
  cases elements <;> rfl

/-- The mark of an empty container is passed. -/
theorem mark_written (before after : List Node) (root : Option Nat) (stack : List Nat)
    {msgLen : Nat} {out buf : List UInt8} (unfinished : out.length < msgLen) :
    Writes 1
      ⟨⟨before ++ { type := .emptySet } :: after, root, before.length :: stack, msgLen⟩, buf,
        out.length⟩
      ⟨⟨before ++ { type := .emptySet } :: after, root, stack, msgLen⟩, buf, out.length⟩ := by
  apply writes_turn unfinished
  rw [writeTurn_top (get_middle ..)]
  simp [writeNode, writeMark]

/-- What is inside a container, at the end of a list of nodes, is written. -/
def WritesInside (before children after : List Node) (root : Option Nat) (stack : List Nat)
    (msgLen : Nat) (buffer out inner : List UInt8) : Prop :=
  ∀ buf₁, Filled buffer out buf₁ → ∃ buf₂, Filled buffer (out ++ inner) buf₂ ∧
    Writes (2 * children.length)
      ⟨⟨before ++ (children ++ after), root, before.length :: stack, msgLen⟩, buf₁, out.length⟩
      ⟨⟨before ++ (children ++ after), root, stack, msgLen⟩, buf₂, (out ++ inner).length⟩

/-- A container is written when what is inside it is. -/
theorem container_written (before children after : List Node) (root : Option Nat)
    (stack : List Nat) {msgLen : Nat} (node : Node) (opening closing : UInt8) (inner : List UInt8)
    {buffer out buf : List UInt8} (unmarked : node.visited = 0)
    (child : node.left = some (before.length + 1))
    (type : node.type = .object ∧ opening = openBrace ∧ closing = closeBrace ∨
      node.type = .array ∧ opening = openBracket ∧ closing = closeBracket)
    (room : msgLen < buffer.length) (filled : Filled buffer out buf)
    (fits : (out ++ [opening] ++ inner ++ [closing] ++ siblingComma node.right).length ≤ msgLen)
    (inside : WritesInside (before ++ [{ node with visited := 1 }]) children after root
      (before.length :: stack) msgLen buffer (out ++ [opening]) inner) :
    ∃ buf', Exact buffer (out ++ [opening] ++ inner ++ [closing] ++ siblingComma node.right) buf' ∧
      Writes (2 * (children.length + 1))
        ⟨⟨before ++ node :: (children ++ after), root, before.length :: stack, msgLen⟩, buf,
          out.length⟩
        ⟨⟨before ++ node :: (children ++ after), root, node.right.toList ++ stack, msgLen⟩, buf',
          (out ++ [opening] ++ inner ++ [closing] ++ siblingComma node.right).length⟩ := by
  have size := fits
  simp only [List.length_append, List.length_singleton] at size
  have turn : ∀ (state : Writing) (p : Nat) (marked : Node), marked.type = node.type →
      writeNode state p marked = writeContainer opening closing state p marked := by
    intro state p marked same
    rcases type with ⟨is, rfl, rfl⟩ | ⟨is, rfl, rfl⟩ <;> simp [writeNode, same, is]
  obtain ⟨buf₁, opens, exact₁⟩ := container_opens before (children ++ after) root stack msgLen
    opening closing node filled (by simp; omega) unmarked child
  have opened := writes_turn (by omega : out.length < msgLen)
    ((writeTurn_top (get_middle ..)).trans ((turn _ _ node rfl).trans opens))
  obtain ⟨buf₂, filled₂, written⟩ := inside buf₁ (exact₁.filled (by simp; omega))
  rw [List.length_append, List.length_singleton, List.append_assoc before,
    List.singleton_append] at written
  obtain ⟨buf₃, closes, exact₃⟩ := container_closes before (children ++ after) root stack msgLen
    opening closing node filled₂ (by omega) unmarked
  have closed := writes_turn (by simp; omega : (out ++ [opening] ++ inner).length < msgLen)
    ((writeTurn_top (get_middle ..)).trans
      ((turn _ _ { node with visited := 1 } rfl).trans closes))
  exact ⟨buf₃, exact₃, ((opened.trans written).trans closed).weaken (by omega)⟩

section Values

variable {root : Option Nat} {msgLen : Nat} {buffer : List UInt8}

mutual

/-- A value is written and its nodes are as before. -/
theorem value_written (value : Value) (before after : List Node) (stack : List Nat)
    (right : Option Nat) {out buf : List UInt8} (room : msgLen < buffer.length)
    (filled : Filled buffer out buf) (unfinished : out.length < msgLen)
    (fits : (out ++ value.print ++ siblingComma right).length ≤ msgLen) :
    ∃ buf', Filled buffer (out ++ value.print ++ siblingComma right) buf' ∧
      (value.Container → Exact buffer (out ++ value.print ++ siblingComma right) buf') ∧
      Writes (2 * ((childNodes before.length value).length + 1))
        ⟨⟨withValue before right value ++ after, root, before.length :: stack, msgLen⟩, buf,
          out.length⟩
        ⟨⟨withValue before right value ++ after, root, right.toList ++ stack, msgLen⟩, buf',
          (out ++ value.print ++ siblingComma right).length⟩ := by
  have nodes : withValue before right value ++ after = before ++
      valueNode before.length right value :: (childNodes before.length value ++ after) := by
    simp [withValue]
  rw [nodes]
  by_cases leaf : ¬ value.Container
  · obtain ⟨buf', written, filled'⟩ := leaf_written ⟨before ++ valueNode before.length right value ::
      (childNodes before.length value ++ after), root, stack, msgLen⟩ leaf filled before.length
      right (by omega)
    refine ⟨buf', filled', fun container => absurd container leaf, ?_⟩
    have turn := writes_turn unfinished ((writeTurn_top (get_middle ..)).trans written)
    exact turn.weaken (by omega)
  match value with
  | .string _ | .number _ | .literal _ => exact absurd not_false leaf
  | .object members =>
    have text : out ++ (Value.object members).print =
        out ++ [openBrace] ++ members.print ++ [closeBrace] := by simp [Value.print]
    rw [text] at fits ⊢
    have size := fits
    simp only [List.length_append, List.length_singleton] at size
    have inside : WritesInside (before ++ [{ valueNode before.length right (.object members) with
        visited := 1 }]) (childNodes before.length (.object members)) after root
        (before.length :: stack) msgLen buffer (out ++ [openBrace]) members.print := by
      by_cases empty : members = .nil
      · subst empty
        intro buf₁ filled₁
        refine ⟨buf₁, by simpa [Members.print] using filled₁, ?_⟩
        rw [Members.print, List.append_nil]
        exact (mark_written _ after root _ (by simp; omega)).weaken
          (by simp [childNodes, membersMark]; omega)
      · intro buf₁ filled₁
        have further := members_written members (before ++ [{ valueNode before.length right
          (.object members) with visited := 1 }]) after (before.length :: stack) empty room filled₁
          (by simp only [List.length_append, List.length_singleton]; omega)
        rw [childNodes, (members_start 0 empty).2, List.nil_append]
        simpa using further
    obtain ⟨buf', exact_, written⟩ := container_written before (childNodes before.length
      (.object members)) after root stack (valueNode before.length right (.object members))
      openBrace closeBrace members.print rfl rfl (.inl ⟨rfl, rfl, rfl⟩) room filled fits inside
    exact ⟨buf', exact_.filled (by simp only [valueNode]; omega), fun _ => exact_, written⟩
  | .array elements =>
    have text : out ++ (Value.array elements).print =
        out ++ [openBracket] ++ elements.print ++ [closeBracket] := by simp [Value.print]
    rw [text] at fits ⊢
    have size := fits
    simp only [List.length_append, List.length_singleton] at size
    have inside : WritesInside (before ++ [{ valueNode before.length right (.array elements) with
        visited := 1 }]) (childNodes before.length (.array elements)) after root
        (before.length :: stack) msgLen buffer (out ++ [openBracket]) elements.print := by
      by_cases empty : elements = .nil
      · subst empty
        intro buf₁ filled₁
        refine ⟨buf₁, by simpa [Elements.print] using filled₁, ?_⟩
        rw [Elements.print, List.append_nil]
        exact (mark_written _ after root _ (by simp; omega)).weaken
          (by simp [childNodes, elementsMark]; omega)
      · intro buf₁ filled₁
        have further := elements_written elements (before ++ [{ valueNode before.length right
          (.array elements) with visited := 1 }]) after (before.length :: stack) empty room filled₁
          (by simp only [List.length_append, List.length_singleton]; omega)
        rw [childNodes, (elements_start 0 empty).2, List.nil_append]
        simpa using further
    obtain ⟨buf', exact_, written⟩ := container_written before (childNodes before.length
      (.array elements)) after root stack (valueNode before.length right (.array elements))
      openBracket closeBracket elements.print rfl rfl (.inr ⟨rfl, rfl, rfl⟩) room filled fits inside
    exact ⟨buf', exact_.filled (by simp only [valueNode]; omega), fun _ => exact_, written⟩

/-- Members are written and their nodes are as before. -/
theorem members_written (members : Members) (before after : List Node) (stack : List Nat)
    {out buf : List UInt8} (present : members ≠ .nil) (room : msgLen < buffer.length)
    (filled : Filled buffer out buf) (fits : (out ++ members.print).length < msgLen) :
    ∃ buf', Filled buffer (out ++ members.print) buf' ∧
      Writes (2 * (membersNodes before.length members).length)
        ⟨⟨before ++ membersNodes before.length members ++ after, root, before.length :: stack,
          msgLen⟩, buf, out.length⟩
        ⟨⟨before ++ membersNodes before.length members ++ after, root, stack, msgLen⟩, buf',
          (out ++ members.print).length⟩ := by
  match members with
  | .nil => exact absurd rfl present
  | .cons name value rest =>
    obtain ⟨next, is⟩ : ∃ next, next = (withPair before none name value).length := ⟨_, rfl⟩
    obtain ⟨out₁, is₁⟩ : ∃ out₁, out₁ = out ++ quote :: (name ++ [quote, colon]) := ⟨_, rfl⟩
    have text : out ++ (Members.cons name value rest).print =
        out₁ ++ value.print ++ siblingComma (membersLink next rest) ++ rest.print := by
      rw [siblingComma_members, is₁]
      simp [Members.print]
    have count : (membersNodes before.length (.cons name value rest)).length =
        (childNodes (before.length + 1) value).length + 2 + (membersNodes next rest).length := by
      have shape := congrArg List.length (membersNodes_cons before name value rest)
      rw [List.length_append, List.length_append, withPair_length, ← is] at shape
      omega
    rw [text] at fits
    rw [membersNodes_cons, ← is, count, text, List.append_assoc (withPair ..)]
    have size := fits
    simp only [List.length_append] at size
    have shorter : out.length + name.length + 3 = out₁.length := by
      rw [is₁]
      simp
      omega
    obtain ⟨pair, isPair⟩ : ∃ pair, pair = pairNode before.length (membersLink next rest) name :=
      ⟨_, rfl⟩
    obtain ⟨below, isBelow⟩ : ∃ below, below = valueNode (before.length + 1) none value ::
      (childNodes (before.length + 1) value ++ (membersNodes next rest ++ after)) := ⟨_, rfl⟩
    have shape : withPair before (membersLink next rest) name value ++
        (membersNodes next rest ++ after) = before ++ pair :: below := by
      simp [withPair, isPair, isBelow]
    have unmarked : pair.visited = 0 := by rw [isPair]; rfl
    obtain ⟨buf₁, opens, exact₁⟩ := pair_opens before below root stack msgLen pair filled
      (by rw [← is₁]; omega) unmarked (by rw [isPair]; rfl) (by rw [isPair]; rfl)
    rw [← is₁] at opens exact₁
    have turn : ∀ (state : Writing) (p : Nat) (marked : Node), marked.type = pair.type →
        writeNode state p marked = writePair state p marked := by
      intro state p marked same
      rw [isPair] at same
      simp [writeNode, same, pairNode]
    have opened := writes_turn (by omega : out.length < msgLen)
      ((writeTurn_top (get_middle ..)).trans ((turn _ _ pair rfl).trans opens))
    obtain ⟨buf₂, filled₂, -, inner⟩ := value_written value
      (before ++ [{ pair with visited := 1 }]) (membersNodes next rest ++ after)
      (before.length :: stack) none room (exact₁.filled (by omega)) (by omega)
      (by simp only [List.length_append, siblingComma, List.length_nil]; omega)
    have marked : withValue (before ++ [{ pair with visited := 1 }]) none value ++
        (membersNodes next rest ++ after) = before ++ { pair with visited := 1 } :: below := by
      simp [withValue, isBelow]
    rw [marked, List.length_append, List.length_singleton] at inner
    simp only [siblingComma, List.append_nil, Option.toList_none, List.nil_append] at inner filled₂
    obtain ⟨buf₃, closes, filled₃⟩ := pair_closes before below root stack msgLen pair filled₂
      (by rw [isPair]; simp only [pairNode, List.length_append]; omega) unmarked
    have closed := writes_turn (by simp only [List.length_append]; omega :
        (out₁ ++ value.print).length < msgLen)
      ((writeTurn_top (get_middle ..)).trans
        ((turn _ _ { pair with visited := 1 } rfl).trans closes))
    have link : pair.right = membersLink next rest := by rw [isPair]; rfl
    have first := (opened.trans inner).trans closed
    rw [link] at first filled₃
    rw [← shape] at first
    match rest with
    | .nil =>
      rw [Members.print, List.append_nil]
      exact ⟨buf₃, filled₃, first.weaken (by omega)⟩
    | .cons other content others =>
      obtain ⟨buf₄, filled₄, further⟩ := members_written (.cons other content others)
        (withPair before (some next) name value) after stack nofun room filled₃ fits
      rw [withPair_length before (some _), ← withPair_length before none, ← is,
        List.append_assoc] at further
      exact ⟨buf₄, filled₄, (first.trans further).weaken (by omega)⟩

/-- Elements are written and their nodes are as before. -/
theorem elements_written (elements : Elements) (before after : List Node) (stack : List Nat)
    {out buf : List UInt8} (present : elements ≠ .nil) (room : msgLen < buffer.length)
    (filled : Filled buffer out buf) (fits : (out ++ elements.print).length < msgLen) :
    ∃ buf', Filled buffer (out ++ elements.print) buf' ∧
      Writes (2 * (elementsNodes before.length elements).length)
        ⟨⟨before ++ elementsNodes before.length elements ++ after, root, before.length :: stack,
          msgLen⟩, buf, out.length⟩
        ⟨⟨before ++ elementsNodes before.length elements ++ after, root, stack, msgLen⟩, buf',
          (out ++ elements.print).length⟩ := by
  match elements with
  | .nil => exact absurd rfl present
  | .cons value rest =>
    obtain ⟨next, is⟩ : ∃ next, next = (withValue before none value).length := ⟨_, rfl⟩
    have text : out ++ (Elements.cons value rest).print =
        out ++ value.print ++ siblingComma (elementsLink next rest) ++ rest.print := by
      rw [siblingComma_elements]
      simp [Elements.print]
    have count : (elementsNodes before.length (.cons value rest)).length =
        (childNodes before.length value).length + 1 + (elementsNodes next rest).length := by
      have shape := congrArg List.length (elementsNodes_cons before value rest)
      rw [List.length_append, List.length_append, withValue_length, ← is] at shape
      omega
    rw [text] at fits
    rw [elementsNodes_cons, ← is, count, text, List.append_assoc (withValue ..)]
    have size := fits
    simp only [List.length_append] at size
    obtain ⟨buf₁, filled₁, -, first⟩ := value_written value before (elementsNodes next rest ++ after)
      stack (elementsLink next rest) room filled (by omega)
      (by simp only [List.length_append]; omega)
    match rest with
    | .nil =>
      refine ⟨buf₁, by simpa [Elements.print] using filled₁, ?_⟩
      simpa [Elements.print, elementsLink] using first.weaken (by omega)
    | .cons other others =>
      obtain ⟨buf₂, filled₂, further⟩ := elements_written (.cons other others)
        (withValue before (some next) value) after stack nofun room filled₁ fits
      rw [withValue_length before (some _), ← withValue_length before none, ← is,
        List.append_assoc] at further
      exact ⟨buf₂, filled₂, (first.trans further).weaken (by omega)⟩

end

end Values

end Ezcfg.Json

import Ezcfg.Json.Parser

/-!
# The tree of a value

What the nodes of a value look like, in two ways. `HoldsValue` follows the pointers:
the first member or element is the left child, later ones are right siblings, a
pair has its value as left child, and an empty container has a mark as its only
child. `valueNode` and `childNodes` list the nodes in the order in which the parser
creates them, from a given index on; nodes so listed hold the value.
-/

namespace Ezcfg.Json

open Foundation Foundation.Json

/-! ## Following the pointers -/

/-- The child of an empty container. -/
def HoldsMark (nodes : List Node) (link : Option Nat) : Prop :=
  ∃ p, link = some p ∧ nodes[p]? = some { type := .emptySet }

mutual

/-- The node at `p` is the root of a value and has the given sibling. -/
def HoldsValue (nodes : List Node) (p : Nat) (right : Option Nat) : Value → Prop
  | .string content => nodes[p]? = some { type := .string, element := some content, right }
  | .number content => nodes[p]? = some { type := .number, element := some content, right }
  | .literal word => nodes[p]? = some { type := literalType word, right }
  | .object members => ∃ left, nodes[p]? = some { type := .object, left, right } ∧
      (members = .nil → HoldsMark nodes left) ∧
      (members ≠ .nil → HoldsMembers nodes left members)
  | .array elements => ∃ left, nodes[p]? = some { type := .array, left, right } ∧
      (elements = .nil → HoldsMark nodes left) ∧
      (elements ≠ .nil → HoldsElements nodes left elements)

/-- A chain of pairs starts at the link, in the order of the members. -/
def HoldsMembers (nodes : List Node) (link : Option Nat) : Members → Prop
  | .nil => link = none
  | .cons name value rest => ∃ p left right, link = some p ∧
      nodes[p]? = some { type := .nvPair, element := some name, left := some left, right } ∧
      HoldsValue nodes left none value ∧ HoldsMembers nodes right rest

/-- A chain of values starts at the link, in the order of the elements. -/
def HoldsElements (nodes : List Node) (link : Option Nat) : Elements → Prop
  | .nil => link = none
  | .cons value rest => ∃ p right, link = some p ∧
      HoldsValue nodes p right value ∧ HoldsElements nodes right rest

end

/-! ## The nodes in the order of their creation -/

/-- The root of a value at index `p`. -/
def valueNode (p : Nat) (right : Option Nat) : Value → Node
  | .string content => { type := .string, element := some content, right }
  | .number content => { type := .number, element := some content, right }
  | .literal word => { type := literalType word, right }
  | .object _ => { type := .object, left := some (p + 1), right }
  | .array _ => { type := .array, left := some (p + 1), right }

/-- The link to further members, which start at `p`. -/
def membersLink (p : Nat) : Members → Option Nat
  | .nil => none
  | .cons .. => some p

/-- The link to further elements, which start at `p`. -/
def elementsLink (p : Nat) : Elements → Option Nat
  | .nil => none
  | .cons .. => some p

/-- The mark of an object without members. -/
def membersMark : Members → List Node
  | .nil => [{ type := .emptySet }]
  | .cons .. => []

/-- The mark of an array without elements. -/
def elementsMark : Elements → List Node
  | .nil => [{ type := .emptySet }]
  | .cons .. => []

/-- The pair at index `p`, whose value follows it. -/
def pairNode (p : Nat) (right : Option Nat) (name : List UInt8) : Node :=
  { type := .nvPair, element := some name, left := some (p + 1), right }

mutual

/-- The nodes below the root of a value at index `p`. -/
def childNodes (p : Nat) : Value → List Node
  | .string _ | .number _ | .literal _ => []
  | .object members => membersMark members ++ membersNodes (p + 1) members
  | .array elements => elementsMark elements ++ elementsNodes (p + 1) elements

/-- The nodes of members, from index `p` on. -/
def membersNodes (p : Nat) : Members → List Node
  | .nil => []
  | .cons name value rest =>
    let below := childNodes (p + 1) value
    let next := p + 2 + below.length
    pairNode p (membersLink next rest) name :: valueNode (p + 1) none value ::
      (below ++ membersNodes next rest)

/-- The nodes of elements, from index `p` on. -/
def elementsNodes (p : Nat) : Elements → List Node
  | .nil => []
  | .cons value rest =>
    let below := childNodes p value
    let next := p + 1 + below.length
    valueNode p (elementsLink next rest) value :: (below ++ elementsNodes next rest)

end

/-- The type of the root. -/
@[simp] theorem valueNode_type (p : Nat) (right : Option Nat) (value : Value) :
    (valueNode p right value).type = typeOf value := by
  cases value <;> rfl

/-- The sibling of the root. -/
@[simp] theorem valueNode_right (p : Nat) (right : Option Nat) (value : Value) :
    (valueNode p right value).right = right := by
  cases value <;> rfl

/-- Giving the root a sibling. -/
theorem valueNode_set_right (p : Nat) (right next : Option Nat) (value : Value) :
    { valueNode p right value with right := next } = valueNode p next value := by
  cases value <;> rfl

/-- The node at the end of a part of the list. -/
theorem get_middle (before after : List Node) (node : Node) :
    (before ++ node :: after)[before.length]? = some node := by
  simp

/-- Writing the node at the end of a part of the list. -/
theorem set_middle (before after : List Node) (node other : Node) :
    (before ++ node :: after).set before.length other = before ++ other :: after := by
  simp

/-- A list of nodes with those of a value behind it. -/
def withValue (before : List Node) (right : Option Nat) (value : Value) : List Node :=
  before ++ valueNode before.length right value :: childNodes before.length value

/-- A list of nodes with those of a pair behind it. -/
def withPair (before : List Node) (right : Option Nat) (name : List UInt8) (value : Value) :
    List Node :=
  before ++ pairNode before.length right name ::
    (valueNode (before.length + 1) none value :: childNodes (before.length + 1) value)

/-- The sibling of a value takes no room. -/
theorem withValue_length (before : List Node) (right : Option Nat) (value : Value) :
    (withValue before right value).length =
      before.length + 1 + (childNodes before.length value).length := by
  simp [withValue]
  omega

/-- The sibling of a pair takes no room. -/
theorem withPair_length (before : List Node) (right : Option Nat) (name : List UInt8)
    (value : Value) : (withPair before right name value).length =
      before.length + 2 + (childNodes (before.length + 1) value).length := by
  simp [withPair]
  omega

/-- The nodes of members are those of the first pair, then those of the others. -/
theorem membersNodes_cons (before : List Node) (name : List UInt8) (value : Value)
    (rest : Members) : before ++ membersNodes before.length (.cons name value rest) =
      withPair before (membersLink (withPair before none name value).length rest) name value ++
        membersNodes (withPair before none name value).length rest := by
  rw [withPair_length]
  simp [withPair, membersNodes]

/-- The nodes of elements are those of the first value, then those of the others. -/
theorem elementsNodes_cons (before : List Node) (value : Value) (rest : Elements) :
    before ++ elementsNodes before.length (.cons value rest) =
      withValue before (elementsLink (withValue before none value).length rest) value ++
        elementsNodes (withValue before none value).length rest := by
  rw [withValue_length]
  simp [withValue, elementsNodes]

/-- A list of members is empty, with a mark, or has a link and no mark. -/
theorem members_start (p : Nat) {members : Members} (present : members ≠ .nil) :
    membersLink p members = some p ∧ membersMark members = [] := by
  cases members with
  | nil => exact absurd rfl present
  | cons => exact ⟨rfl, rfl⟩

/-- A list of elements is empty, with a mark, or has a link and no mark. -/
theorem elements_start (p : Nat) {elements : Elements} (present : elements ≠ .nil) :
    elementsLink p elements = some p ∧ elementsMark elements = [] := by
  cases elements with
  | nil => exact absurd rfl present
  | cons => exact ⟨rfl, rfl⟩

mutual

/-- Nodes listed for a value hold it. -/
theorem holdsValue_of_nodes {nodes : List Node} (before after : List Node) {p : Nat}
    {right : Option Nat} (value : Value) (place : p = before.length)
    (whole : nodes = before ++ valueNode p right value :: (childNodes p value ++ after)) :
    HoldsValue nodes p right value := by
  have root : nodes[p]? = some (valueNode p right value) := by
    rw [whole, place, get_middle]
  match value with
  | .string content => exact root
  | .number content => exact root
  | .literal word => exact root
  | .object members =>
    refine ⟨_, root, ?_, ?_⟩
    · rintro rfl
      exact ⟨_, rfl, by simp [whole, place, childNodes, membersMark]⟩
    · intro present
      obtain ⟨start, unmarked⟩ := members_start (p + 1) present
      rw [← start]
      exact holdsMembers_of_nodes (before ++ [valueNode p right (.object members)]) after members
        (by simp [place]) (by simp [whole, childNodes, unmarked])
  | .array elements =>
    refine ⟨_, root, ?_, ?_⟩
    · rintro rfl
      exact ⟨_, rfl, by simp [whole, place, childNodes, elementsMark]⟩
    · intro present
      obtain ⟨start, unmarked⟩ := elements_start (p + 1) present
      rw [← start]
      exact holdsElements_of_nodes (before ++ [valueNode p right (.array elements)]) after elements
        (by simp [place]) (by simp [whole, childNodes, unmarked])

/-- Nodes listed for members hold them. -/
theorem holdsMembers_of_nodes {nodes : List Node} (before after : List Node) {p : Nat}
    (members : Members) (place : p = before.length)
    (whole : nodes = before ++ (membersNodes p members ++ after)) :
    HoldsMembers nodes (membersLink p members) members := by
  match members with
  | .nil => rfl
  | .cons name value rest =>
    simp only [membersNodes, List.cons_append, List.append_assoc] at whole
    obtain ⟨next, is⟩ : ∃ next, next = p + 2 + (childNodes (p + 1) value).length := ⟨_, rfl⟩
    rw [← is] at whole
    have pair : nodes[p]? = some (pairNode p (membersLink next rest) name) := by
      rw [whole, place, get_middle]
    have inner : HoldsValue nodes (p + 1) none value :=
      holdsValue_of_nodes (before ++ [pairNode p (membersLink next rest) name])
        (membersNodes next rest ++ after) value (by simp [place]) (by simp [whole])
    have further : HoldsMembers nodes (membersLink next rest) rest :=
      holdsMembers_of_nodes (before ++ pairNode p (membersLink next rest) name ::
        valueNode (p + 1) none value :: childNodes (p + 1) value) after rest
        (by simp [is, place]; omega) (by simp [whole])
    exact ⟨p, p + 1, _, rfl, pair, inner, further⟩

/-- Nodes listed for elements hold them. -/
theorem holdsElements_of_nodes {nodes : List Node} (before after : List Node) {p : Nat}
    (elements : Elements) (place : p = before.length)
    (whole : nodes = before ++ (elementsNodes p elements ++ after)) :
    HoldsElements nodes (elementsLink p elements) elements := by
  match elements with
  | .nil => rfl
  | .cons value rest =>
    simp only [elementsNodes, List.cons_append, List.append_assoc] at whole
    obtain ⟨next, is⟩ : ∃ next, next = p + 1 + (childNodes p value).length := ⟨_, rfl⟩
    rw [← is] at whole
    have inner : HoldsValue nodes p (elementsLink next rest) value :=
      holdsValue_of_nodes before (elementsNodes next rest ++ after) value place whole
    have further : HoldsElements nodes (elementsLink next rest) rest :=
      holdsElements_of_nodes (before ++ valueNode p (elementsLink next rest) value ::
        childNodes p value) after rest (by simp [is, place]; omega) (by simp [whole])
    exact ⟨p, _, rfl, inner, further⟩

end

/-! ## One value at each node -/

/-- The node of a value that is held. -/
theorem holdsValue_node {nodes : List Node} {p : Nat} {right : Option Nat} {value : Value}
    (holds : HoldsValue nodes p right value) :
    ∃ node, nodes[p]? = some node ∧ node.type = typeOf value ∧ node.right = right := by
  cases value with
  | string => exact ⟨_, holds, rfl, rfl⟩
  | number => exact ⟨_, holds, rfl, rfl⟩
  | literal => exact ⟨_, holds, rfl, rfl⟩
  | object =>
    obtain ⟨left, cell, -⟩ := holds
    exact ⟨_, cell, rfl, rfl⟩
  | array =>
    obtain ⟨left, cell, -⟩ := holds
    exact ⟨_, cell, rfl, rfl⟩

/-- Literals have their own types. -/
theorem literalType_inj {word other : Literal} (same : literalType word = literalType other) :
    word = other := by
  cases word <;> cases other <;> first | rfl | cases same

/-- A literal is neither a string, a number nor a container. -/
theorem literalType_ne (word : Literal) : literalType word ≠ .string ∧
    literalType word ≠ .number ∧ literalType word ≠ .object ∧ literalType word ≠ .array := by
  cases word <;> decide

/-- No value has the type of the mark. -/
theorem typeOf_ne_emptySet (value : Value) : typeOf value ≠ .emptySet := by
  cases value with
  | literal word => cases word <;> decide
  | _ => nofun

/-- The mark starts no chain of pairs. -/
theorem HoldsMark.not_members {nodes : List Node} {link : Option Nat} (mark : HoldsMark nodes link)
    {members : Members} (present : members ≠ .nil) : ¬ HoldsMembers nodes link members := by
  intro chain
  obtain ⟨p, rfl, cell⟩ := mark
  match members with
  | .nil => exact present rfl
  | .cons name value rest =>
    obtain ⟨p', left, right, is, cell', -⟩ := chain
    obtain rfl := Option.some.inj is
    have types := congrArg Node.type (Option.some.inj (cell.symm.trans cell'))
    cases types

/-- The mark starts no chain of values. -/
theorem HoldsMark.not_elements {nodes : List Node} {link : Option Nat}
    (mark : HoldsMark nodes link) {elements : Elements} (present : elements ≠ .nil) :
    ¬ HoldsElements nodes link elements := by
  intro chain
  obtain ⟨p, rfl, cell⟩ := mark
  match elements with
  | .nil => exact present rfl
  | .cons value rest =>
    obtain ⟨p', right, is, inner, -⟩ := chain
    obtain rfl := Option.some.inj is
    obtain ⟨node, cell', type, -⟩ := holdsValue_node inner
    have types := congrArg Node.type (Option.some.inj (cell.symm.trans cell'))
    rw [type] at types
    exact typeOf_ne_emptySet value types.symm

mutual

/-- A node holds one value. -/
theorem holdsValue_unique {nodes : List Node} {p : Nat} {right right' : Option Nat}
    (value other : Value) (holds : HoldsValue nodes p right value)
    (holds' : HoldsValue nodes p right' other) : value = other := by
  obtain ⟨node, cell, type, -⟩ := holdsValue_node holds
  obtain ⟨node', cell', type', -⟩ := holdsValue_node holds'
  have sameNode : node = node' := Option.some.inj (cell.symm.trans cell')
  have types : typeOf value = typeOf other := by rw [← type, ← type', sameNode]
  match value, other with
  | .string content, .string content' =>
    have same := congrArg Node.element (Option.some.inj (Eq.trans (Eq.symm holds) holds'))
    rw [Option.some.inj same]
  | .number content, .number content' =>
    have same := congrArg Node.element (Option.some.inj (Eq.trans (Eq.symm holds) holds'))
    rw [Option.some.inj same]
  | .literal word, .literal word' => rw [literalType_inj types]
  | .object members, .object members' =>
    obtain ⟨left, root, mark, chain⟩ := holds
    obtain ⟨left', root', mark', chain'⟩ := holds'
    obtain rfl : left = left' :=
      congrArg Node.left (Option.some.inj (Eq.trans (Eq.symm root) root'))
    by_cases empty : members = .nil <;> by_cases empty' : members' = .nil
    · rw [empty, empty']
    · exact absurd (chain' empty') ((mark empty).not_members empty')
    · exact absurd (chain empty) ((mark' empty').not_members empty)
    · rw [holdsMembers_unique members members' (chain empty) (chain' empty')]
  | .array elements, .array elements' =>
    obtain ⟨left, root, mark, chain⟩ := holds
    obtain ⟨left', root', mark', chain'⟩ := holds'
    obtain rfl : left = left' :=
      congrArg Node.left (Option.some.inj (Eq.trans (Eq.symm root) root'))
    by_cases empty : elements = .nil <;> by_cases empty' : elements' = .nil
    · rw [empty, empty']
    · exact absurd (chain' empty') ((mark empty).not_elements empty')
    · exact absurd (chain empty) ((mark' empty').not_elements empty)
    · rw [holdsElements_unique elements elements' (chain empty) (chain' empty')]
  | .string _, .number _ | .string _, .object _ | .string _, .array _ | .number _, .string _
  | .number _, .object _ | .number _, .array _ | .object _, .string _ | .object _, .number _
  | .object _, .array _ | .array _, .string _ | .array _, .number _ | .array _, .object _ =>
    cases types
  | .literal word, .string _ => exact absurd types (literalType_ne word).1
  | .literal word, .number _ => exact absurd types (literalType_ne word).2.1
  | .literal word, .object _ => exact absurd types (literalType_ne word).2.2.1
  | .literal word, .array _ => exact absurd types (literalType_ne word).2.2.2
  | .string _, .literal word => exact absurd types.symm (literalType_ne word).1
  | .number _, .literal word => exact absurd types.symm (literalType_ne word).2.1
  | .object _, .literal word => exact absurd types.symm (literalType_ne word).2.2.1
  | .array _, .literal word => exact absurd types.symm (literalType_ne word).2.2.2

/-- A link holds one list of members. -/
theorem holdsMembers_unique {nodes : List Node} {link : Option Nat} (members other : Members)
    (holds : HoldsMembers nodes link members) (holds' : HoldsMembers nodes link other) :
    members = other := by
  match members, other with
  | .nil, .nil => rfl
  | .nil, .cons .. =>
    obtain ⟨p, left, right, is, -⟩ := holds'
    exact absurd (Eq.trans (Eq.symm is) holds) nofun
  | .cons .., .nil =>
    obtain ⟨p, left, right, is, -⟩ := holds
    exact absurd (Eq.trans (Eq.symm is) holds') nofun
  | .cons name value rest, .cons name' value' rest' =>
    obtain ⟨p, left, right, is, cell, inner, further⟩ := holds
    obtain ⟨p', left', right', is', cell', inner', further'⟩ := holds'
    obtain rfl : p = p' := Option.some.inj (is.symm.trans is')
    have same := Option.some.inj (cell.symm.trans cell')
    obtain rfl : name = name' := Option.some.inj (congrArg Node.element same)
    obtain rfl : left = left' := Option.some.inj (congrArg Node.left same)
    obtain rfl : right = right' := congrArg Node.right same
    rw [holdsValue_unique value value' inner inner', holdsMembers_unique rest rest' further further']

/-- A link holds one list of elements. -/
theorem holdsElements_unique {nodes : List Node} {link : Option Nat} (elements other : Elements)
    (holds : HoldsElements nodes link elements) (holds' : HoldsElements nodes link other) :
    elements = other := by
  match elements, other with
  | .nil, .nil => rfl
  | .nil, .cons .. =>
    obtain ⟨p, right, is, -⟩ := holds'
    exact absurd (Eq.trans (Eq.symm is) holds) nofun
  | .cons .., .nil =>
    obtain ⟨p, right, is, -⟩ := holds
    exact absurd (Eq.trans (Eq.symm is) holds') nofun
  | .cons value rest, .cons value' rest' =>
    obtain ⟨p, right, is, inner, further⟩ := holds
    obtain ⟨p', right', is', inner', further'⟩ := holds'
    obtain rfl : p = p' := Option.some.inj (is.symm.trans is')
    obtain ⟨node, cell, -, link⟩ := holdsValue_node inner
    obtain ⟨node', cell', -, link'⟩ := holdsValue_node inner'
    obtain rfl : node = node' := Option.some.inj (cell.symm.trans cell')
    obtain rfl : right = right' := link.symm.trans link'
    rw [holdsValue_unique value value' inner inner',
      holdsElements_unique rest rest' further further']

end

end Ezcfg.Json

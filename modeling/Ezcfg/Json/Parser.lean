import Ezcfg.Values
import Ezcfg.Json.Lexer

/-!
# The JSON parser

`json_parse_text` with its stack of unfinished nodes. The nodes of the tree are cells
of a list, a pointer is an index into it, and a new node takes the next index. A
node and the value it owns are one record. The parser never sets the parent link of a
node, so it has no field.

A turn of the loop has no result where the source would read through a bad pointer
or past the terminator. Allocation succeeds. After a failure the handle is reset: it
keeps no pointer to any node, so none is kept here either.
-/

namespace Ezcfg

open Foundation Foundation.Json

namespace Json

/-- `struct binary_tree_node` with its `struct json_value`. -/
structure Node where
  type : ValueType
  element : Option (List UInt8) := none
  visited : Nat := 0
  left : Option Nat := none
  right : Option Nat := none
deriving DecidableEq, Repr

end Json

/-- `struct json` with the nodes it points to. -/
structure Json where
  nodes : List Json.Node
  root : Option Nat
  stack : List Nat
  msgLen : Nat
deriving DecidableEq, Repr

namespace Json

/-- `json_new` -/
def jsonNew : Json where
  nodes := []
  root := none
  stack := []
  msgLen := 0

/-- `json_reset` -/
def reset (_ : Json) : Json := jsonNew

/-- `stack_list_push` -/
def push (json : Json) (np : Nat) : Json := { json with stack := np :: json.stack }

/-- Write a node. -/
def setNode (json : Json) (np : Nat) (node : Node) : Json :=
  { json with nodes := json.nodes.set np node }

/-- `json_value_new` and `binary_tree_node_new` -/
def create (json : Json) (type : ValueType) : Nat × Json :=
  (json.nodes.length, { json with nodes := json.nodes ++ [{ type := type }] })

/-- Increase `msg_len`. -/
def count (json : Json) (bytes : Nat) : Json := { json with msgLen := json.msgLen + bytes }

/-- Follow the right links to the node that has none. -/
def lastRight (nodes : List Node) : Nat → Nat → Option Nat
  | 0, _ => none
  | fuel + 1, np =>
    match nodes[np]? with
    | none => none
    | some node =>
      match node.right with
      | none => some np
      | some next => lastRight nodes fuel next

/-- `binary_tree_node_append_right` -/
def appendRight (json : Json) (np child : Nat) : Option Json := do
  let last ← lastRight json.nodes json.nodes.length np
  let node ← json.nodes[last]?
  return json.setNode last { node with right := some child }

/-- `binary_tree_node_append_left` -/
def appendLeft (json : Json) (np child : Nat) : Option Json := do
  let node ← json.nodes[np]?
  match node.left with
  | none => return json.setNode np { node with left := some child }
  | some first => json.appendRight first child

/-- `json_value_is_native_value` -/
def isNativeValue : ValueType → Bool
  | .nvPair | .emptySet => .false
  | _ => .true

/-- Append a new node under `np` and push both, the new one on top. -/
def descend (json : Json) (np : Nat) (type : ValueType) : Option Json := do
  let (child, json) := json.create type
  let json ← json.appendLeft np child
  return (json.push np).push child

/-- How a turn of the loop ends: in the next turn, or in a jump to `func_out`. -/
inductive Flow where
  | next (json : Json) (cur : List UInt8)
  | funcOut
deriving DecidableEq

/-- The turn for an object. -/
def objectTurn (json : Json) (np : Nat) (node : Node) (cur : List UInt8) : Option Flow :=
  if node.left = none then
    if byteAt cur ≠ openBrace then some .funcOut
    else
      let json := json.count 1
      let cur := skipWs cur.tail
      if byteAt cur = closeBrace then do
        -- it's an empty set object
        let (child, json) := json.create .emptySet
        let json ← json.appendLeft np child
        return .next (json.count 1) cur.tail
      else if byteAt cur ≠ quote then some .funcOut
      else do
        let json ← json.descend np .nvPair
        return .next json cur
  else if node.right = none then
    if byteAt cur ≠ closeBrace then some .funcOut
    else some (.next (json.count 1) cur.tail)
  else some .funcOut

/-- The turn for a name-value pair. -/
def nvPairTurn (json : Json) (np : Nat) (node : Node) (cur : List UInt8) : Option Flow :=
  if node.left = none then
    if byteAt cur ≠ quote then some .funcOut
    else
      let cur := cur.tail
      match strchrQuote cur with
      | none => some .funcOut
      | some p =>
        let bufLen := cur.length - p.length
        let json := json.setNode np { node with element := some (cur.take bufLen) }
        let json := json.count (1 + bufLen + 1)
        let cur := skipWs p.tail
        if byteAt cur ≠ colon then some .funcOut
        else
          let json := json.count 1
          let cur := skipWs cur.tail
          match valueCreate cur with
          | none => some .funcOut
          | some type => do
            let json ← json.descend np type
            return .next json cur
  else if node.right = none then
    -- the end tag is left for the object
    if byteAt cur = closeBrace then some (.next json cur)
    else if byteAt cur ≠ comma then some .funcOut
    else do
      let (right, json) := (json.count 1).create .nvPair
      let json ← json.appendRight np right
      return .next (json.push right) cur.tail
  else some .funcOut

/-- The turn for an array. -/
def arrayTurn (json : Json) (np : Nat) (node : Node) (cur : List UInt8) : Option Flow :=
  if node.left = none then
    if byteAt cur ≠ openBracket then some .funcOut
    else
      let json := json.count 1
      let cur := skipWs cur.tail
      if byteAt cur = closeBracket then do
        -- it's an empty set object
        let (child, json) := json.create .emptySet
        let json ← json.appendLeft np child
        return .next (json.count 1) cur.tail
      else
        match valueCreate cur with
        | none => some .funcOut
        | some type => do
          let json ← json.descend np type
          return .next json cur
  else if node.right = none then
    if byteAt cur = closeBracket then some (.next (json.count 1) cur.tail)
    else if byteAt cur ≠ comma then some .funcOut
    else
      let json := json.count 1
      let cur := skipWs cur.tail
      match valueCreate cur with
      | none => some .funcOut
      | some type =>
        if !isNativeValue type then some .funcOut
        else do
          let json ← json.descend np type
          return .next json cur
  else some .funcOut

/-- The turn for a string. -/
def stringTurn (json : Json) (np : Nat) (node : Node) (cur : List UInt8) : Option Flow :=
  if byteAt cur ≠ quote then some .funcOut
  else
    let cur := cur.tail
    match strchrQuote cur with
    | none => some .funcOut
    | some p =>
      let bufLen := cur.length - p.length
      let json := json.setNode np { node with element := some (cur.take bufLen) }
      some (.next (json.count (1 + bufLen + 1)) p.tail)

/-- The turn for a literal of the given length; the text has to be as long. -/
def literalTurn (json : Json) (bytes : Nat) (cur : List UInt8) : Option Flow :=
  if cur.length < bytes then none
  else some (.next (json.count bytes) (cur.drop bytes))

/-- The turn for a number. -/
def numberTurn (json : Json) (np : Nat) (node : Node) (cur : List UInt8) : Option Flow :=
  match getNumber cur with
  | none => some .funcOut
  | some p =>
    let bufLen := cur.length - p.length
    let json := json.setNode np { node with element := some (cur.take bufLen) }
    some (.next (json.count bufLen) p)

/-- The turn for the node on top of the stack, which has been popped. -/
def nodeTurn (json : Json) (np : Nat) (node : Node) (cur : List UInt8) : Option Flow :=
  match node.type with
  | .object => objectTurn json np node cur
  | .nvPair => nvPairTurn json np node cur
  | .array => arrayTurn json np node cur
  | .string => stringTurn json np node cur
  | .false => literalTurn json 5 cur
  | .null => literalTurn json 4 cur
  | .true => literalTurn json 4 cur
  | .number => numberTurn json np node cur
  | .emptySet => some .funcOut

/-- One turn of the loop. -/
def parseTurn (json : Json) (cur : List UInt8) : Option Flow :=
  match json.stack with
  | [] => some .funcOut
  | np :: stack =>
    match json.nodes[np]? with
    | none => none
    | some node => nodeTurn { json with stack } np node (skipWs cur)

/-- The loop, with a bound on its turns. -/
def parseLoop : Nat → Json → List UInt8 → Option Flow
  | 0, _, _ => none
  | turns + 1, json, cur =>
    if cur = [] ∨ json.stack = [] then some (.next json cur)
    else
      match parseTurn json cur with
      | none => none
      | some .funcOut => some .funcOut
      | some (.next json cur) => parseLoop turns json cur

/-- `json_parse_text`, for a text given by the bytes in front of its terminator. The
source only asserts that `len` is positive. -/
def jsonParseText (json : Json) (text : List UInt8) (len : Int) : Option (Int × Json) :=
  if len ≤ 0 then none
  else
    let cur := skipWs text
    if byteAt cur ≠ openBrace ∧ byteAt cur ≠ openBracket then some (retFail, json)
    else
      match valueCreate cur with
      | none => some (retFail, json)
      | some type =>
        let (np, json) := json.create type
        let json := { json with root := some np }.push np
        match parseLoop (3 * text.length + 2) json cur with
        | none => none
        | some .funcOut => some (retFail, json.reset)
        | some (.next json cur) =>
          if skipWs cur = [] ∧ json.stack = [] then some (retOk, json)
          else some (retFail, json.reset)

/-- `json_get_msg_len` -/
def jsonGetMsgLen (json : Json) : Nat := json.msgLen

/-- A text the parser can be given: its length is an int. -/
structure Text where
  bytes : List UInt8
  nonul : (0 : UInt8) ∉ bytes
  short : bytes.length < 2 ^ 31

end Json

end Ezcfg

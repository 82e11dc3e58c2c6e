import Ezcfg.Json.Grammar

/-!
# The JSON writer

`json_write_message` walks the tree with a stack and a mark on every node that has to
be visited twice. A write past the end of the buffer has no result. The checks that
the handle has a tree and a stack at all always hold for a handle as it is modelled.
-/

namespace Ezcfg.Json

open Foundation Foundation.Json

/-- The variables of `json_write_message`; `cur` is `cur_len` bytes into the buffer. -/
structure Writing where
  json : Json
  buf : List UInt8
  curLen : Nat
deriving DecidableEq

/-- Write bytes one by one at the current position and move behind them. -/
def emit (state : Writing) : List UInt8 → Option Writing
  | [] => some state
  | byte :: rest =>
    if state.curLen < state.buf.length then
      emit { state with buf := state.buf.set state.curLen byte, curLen := state.curLen + 1 } rest
    else none

/-- `strcpy`, and the move behind the bytes in front of the terminator. -/
def emitString (state : Writing) (bytes : List UInt8) : Option Writing := do
  let after ← emit state (bytes ++ [0])
  return { after with curLen := state.curLen + bytes.length }

/-- `stack_list_push` -/
def Writing.push (state : Writing) (np : Nat) : Writing :=
  { state with json := state.json.push np }

/-- Write a node. -/
def Writing.setNode (state : Writing) (np : Nat) (node : Node) : Writing :=
  { state with json := state.json.setNode np node }

/-- How a turn of the writer ends: in the next turn, or in a jump to `func_out`. -/
inductive WriteFlow where
  | next (state : Writing)
  | funcOut (state : Writing)
deriving DecidableEq

/-- Go on with the right sibling, behind a comma. -/
def writeSibling (state : Writing) (right : Option Nat) : Option WriteFlow :=
  match right with
  | none => some (.next state)
  | some np => do
    let state ← emit state [comma]
    return .next (state.push np)

/-- The turn for an object or an array with its brackets. -/
def writeContainer (opening closing : UInt8) (state : Writing) (np : Nat) (node : Node) :
    Option WriteFlow :=
  if node.visited = 0 then do
    let state ← emit state [opening]
    let state := (state.setNode np { node with visited := 1 }).push np
    match node.left with
    | none => return .next state
    | some left => return .next (state.push left)
  else if node.visited = 1 then do
    let state ← emit state [closing]
    writeSibling (state.setNode np { node with visited := 0 }) node.right
  else some (.funcOut state)

/-- The turn for a name-value pair. -/
def writePair (state : Writing) (np : Nat) (node : Node) : Option WriteFlow :=
  if node.visited = 0 then
    match node.left with
    | none => some (.funcOut state)
    | some left => do
      let element ← node.element
      let state ← emit state (quote :: (element ++ [quote, colon]))
      return .next (((state.setNode np { node with visited := 1 }).push np).push left)
  else if node.visited = 1 then
    writeSibling (state.setNode np { node with visited := 0 }) node.right
  else some (.funcOut state)

/-- The turn for the mark of an empty container. -/
def writeMark (state : Writing) (node : Node) : Option WriteFlow :=
  if node.left ≠ none ∨ node.right ≠ none ∨ node.element ≠ none then some (.funcOut state)
  else some (.next state)

/-- The turn for a string. -/
def writeString (state : Writing) (node : Node) : Option WriteFlow :=
  if node.left ≠ none then some (.funcOut state)
  else do
    let element ← node.element
    let state ← emit state (quote :: (element ++ [quote]))
    writeSibling state node.right

/-- The turn for a literal. -/
def writeLiteral (word : Literal) (state : Writing) (node : Node) : Option WriteFlow :=
  if node.left ≠ none then some (.funcOut state)
  else do
    let state ← emitString state word.bytes
    writeSibling state node.right

/-- The turn for a number. -/
def writeNumber (state : Writing) (node : Node) : Option WriteFlow :=
  if node.left ≠ none then some (.funcOut state)
  else do
    let element ← node.element
    let state ← emit state element
    writeSibling state node.right

/-- The turn for the node on top of the stack, which has been popped. -/
def writeNode (state : Writing) (np : Nat) (node : Node) : Option WriteFlow :=
  match node.type with
  | .object => writeContainer openBrace closeBrace state np node
  | .nvPair => writePair state np node
  | .array => writeContainer openBracket closeBracket state np node
  | .emptySet => writeMark state node
  | .string => writeString state node
  | .false => writeLiteral .false state node
  | .null => writeLiteral .null state node
  | .true => writeLiteral .true state node
  | .number => writeNumber state node

/-- One turn of the writer. -/
def writeTurn (state : Writing) : Option WriteFlow :=
  match state.json.stack with
  | [] => some (.funcOut state)
  | np :: stack =>
    match state.json.nodes[np]? with
    | none => none
    | some node => writeNode { state with json := { state.json with stack } } np node

/-- The loop of the writer, with a bound on its turns. -/
def writeLoop : Nat → Writing → Option WriteFlow
  | 0, _ => none
  | turns + 1, state =>
    if state.curLen < state.json.msgLen ∧ state.json.stack ≠ [] then
      match writeTurn state with
      | none => none
      | some (.funcOut state) => some (.funcOut state)
      | some (.next state) => writeLoop turns state
    else some (.next state)

/-- `json_write_message`: the result, the handle and the buffer afterwards. -/
def jsonWriteMessage (json : Json) (buf : List UInt8) (len : Int) :
    Option (Int × Json × List UInt8) :=
  if len ≤ 0 then none
  else if len ≤ json.msgLen then some (-1, json, buf)
  else if json.stack ≠ [] then some (-1, json, buf)
  else
    match json.root with
    | none => some (-1, json, buf)
    | some np =>
      match json.nodes[np]? with
      | none => none
      | some node =>
        if node.type ≠ .object ∧ node.type ≠ .array then some (-1, json, buf)
        else
          match writeLoop (2 * json.nodes.length + 1) ⟨json.push np, buf, 0⟩ with
          | none => none
          | some (.funcOut state) => some (-1, state.json, state.buf)
          | some (.next state) =>
            if state.curLen = json.msgLen ∧ state.json.stack = [] then
              some (state.curLen, state.json, state.buf)
            else some (-1, state.json, state.buf)

end Ezcfg.Json

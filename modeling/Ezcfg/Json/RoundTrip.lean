import Ezcfg.Json.Writing

/-!
# Writing undoes parsing

A handle that has accepted a text counts the length of that text without its
whitespace, writes exactly these bytes and is the same handle afterwards. What it
writes is accepted again, with the same handle.
-/

namespace Ezcfg.Json

open Foundation Foundation.Json

/-- The tokens of the parser are simple: no quotation mark in a string, and neither
whitespace nor a quotation mark in a number. -/
theorem simple_tokens : Simple tokens where
  string _ unquoted := unquoted
  number _ _ token byte member := by
    have safe := numberByte_ne (number_bytes (number_of_tokens token) byte member)
    exact ⟨safe.1, safe.2.1⟩

/-- An accepted text derives a value, and the handle is that of this value. -/
theorem derives_of_accepted {text : List UInt8} {len : Int} {json : Json} (positive : 0 < len)
    (accepted : jsonParseText jsonNew text len = some (retOk, json)) :
    ∃ value, DerivesText tokens value text ∧ json = handleOf value := by
  rcases parse_cases text positive with failed | ⟨value, derives⟩
  · rw [failed] at accepted
    have ret := (Prod.mk.inj (Option.some.inj accepted)).1
    exact absurd ret (by decide)
  · rw [parse_of_derives derives positive] at accepted
    exact ⟨value, derives, (Prod.mk.inj (Option.some.inj accepted)).2.symm⟩

/-- The text of a container is not empty. -/
theorem print_pos {value : Value} (container : value.Container) :
    0 < value.print.length := by
  cases value with
  | string => cases container
  | number => cases container
  | literal => cases container
  | object => simp [Value.print]
  | array => simp [Value.print]

/-- A handle that counts the text of its value, and maybe more, writes the text and is the
same afterwards; the writer takes this for a failure when more was counted. -/
theorem write_counted (before : List Node) {value : Value} (container : value.Container)
    {msgLen : Nat} (counted : value.print.length ≤ msgLen) (buf : List UInt8) {len : Int}
    (inside : len ≤ buf.length) (room : msgLen < len) :
    jsonWriteMessage ⟨withValue before none value, some before.length, [], msgLen⟩ buf len =
      some (if value.print.length = msgLen then (value.print.length : Int) else -1,
        ⟨withValue before none value, some before.length, [], msgLen⟩,
        value.print ++ buf.drop value.print.length) := by
  have start : Filled buf [] buf := Exact.filled (by simp [Exact]) (Nat.zero_le _)
  have fits : ([] ++ value.print ++ siblingComma none).length ≤ msgLen := by
    simpa [siblingComma] using counted
  have positive : 0 < msgLen := Nat.lt_of_lt_of_le (print_pos container) counted
  have larger : msgLen < buf.length := by omega
  obtain ⟨buf', -, exact_, turns, bounded, run⟩ :=
    @value_written (some before.length) _ buf value before [] [] none _ _ larger start positive fits
  have last := exact_ container
  have loop : writeLoop (2 * (withValue before none value).length + 1)
      ⟨⟨withValue before none value, some before.length, [before.length], msgLen⟩, buf, 0⟩ =
        some (.next ⟨⟨withValue before none value, some before.length, [], msgLen⟩, buf',
          value.print.length⟩) := by
    obtain ⟨more, enough⟩ := Nat.exists_eq_add_of_le (show turns + 1 ≤
        2 * (withValue before none value).length + 1 by
      simp only [withValue_length] at bounded ⊢
      omega)
    have finished := run (more + 1)
    rw [writeLoop, if_neg (by simp)] at finished
    rw [enough, show turns + 1 + more = turns + (more + 1) by omega]
    simpa [withValue, siblingComma] using finished
  have type : (valueNode before.length none value).type = .object ∨
      (valueNode before.length none value).type = .array := by
    cases value with
    | string => cases container
    | number => cases container
    | literal => cases container
    | object => exact .inl rfl
    | array => exact .inr rfl
  rw [Exact] at last
  simp only [siblingComma, List.nil_append, List.append_nil] at last
  rw [last] at loop
  have cell : (withValue before none value)[before.length]? =
      some (valueNode before.length none value) := get_middle ..
  rw [jsonWriteMessage, if_neg (by omega), if_neg (show ¬ len ≤ (msgLen : Int) by omega),
    if_neg (not_not.mpr rfl)]
  simp only [push, cell, loop]
  rw [if_neg (by tauto)]
  by_cases all : value.print.length = msgLen
  · simp [all]
  · simp [all]

/-- The handle of a container writes the text of its value and is the same afterwards. -/
theorem write_handleOf {value : Value} (container : value.Container) (buf : List UInt8)
    {len : Int} (inside : len ≤ buf.length) (room : value.print.length < len) :
    jsonWriteMessage (handleOf value) buf len = some ((value.print.length : Int), handleOf value,
      value.print ++ buf.drop value.print.length) := by
  have written := write_counted [] container (Nat.le_refl _) buf inside room
  rwa [if_pos rfl] at written

/-- A value's node is not visited. -/
theorem valueNode_visited (p : Nat) (right : Option Nat) (value : Value) :
    (valueNode p right value).visited = 0 := by
  cases value <;> rfl

mutual

/-- No node below a value is visited. -/
theorem childNodes_visited (p : Nat) (value : Value) :
    ∀ node ∈ childNodes p value, node.visited = 0 := by
  match value with
  | .string _ | .number _ | .literal _ => exact nofun
  | .object .nil => simp [childNodes, membersMark, membersNodes]
  | .object (.cons name value rest) => exact membersNodes_visited (p + 1) (.cons name value rest)
  | .array .nil => simp [childNodes, elementsMark, elementsNodes]
  | .array (.cons value rest) => exact elementsNodes_visited (p + 1) (.cons value rest)

/-- No node of members is visited. -/
theorem membersNodes_visited (p : Nat) (members : Members) :
    ∀ node ∈ membersNodes p members, node.visited = 0 := by
  match members with
  | .nil => exact nofun
  | .cons name value rest =>
    have below := childNodes_visited (p + 1) value
    have further := membersNodes_visited (p + 2 + (childNodes (p + 1) value).length) rest
    intro node member
    simp only [membersNodes, List.mem_cons, List.mem_append] at member
    rcases member with rfl | rfl | inside | inside
    · rfl
    · exact valueNode_visited ..
    · exact below node inside
    · exact further node inside

/-- No node of elements is visited. -/
theorem elementsNodes_visited (p : Nat) (elements : Elements) :
    ∀ node ∈ elementsNodes p elements, node.visited = 0 := by
  match elements with
  | .nil => exact nofun
  | .cons value rest =>
    have below := childNodes_visited p value
    have further := elementsNodes_visited (p + 1 + (childNodes p value).length) rest
    intro node member
    simp only [elementsNodes, List.mem_cons, List.mem_append] at member
    rcases member with rfl | inside | inside
    · exact valueNode_visited ..
    · exact below node inside
    · exact further node inside

end

/-- A value that has been derived is derived from its own text. -/
theorem print_derivesText {value : Value} {text : List UInt8}
    (derives : DerivesText tokens value text) : DerivesText tokens value value.print := by
  obtain ⟨_, _, _, -, -, -, container, inside⟩ := derives
  have read := inside.all
  have known : value.All (quote ∉ ·) (NumberWith LooseExpPart) :=
    value.all_combine (fun _ unquoted _ => unquoted)
      (fun _ token _ => token.elim fun _ number => number_of_tokens number) read read
  exact value.print_derivesText takes_tokens known container

/-- Every accepted text is written without its whitespace, into any buffer with room for
it and as often as one likes, and what is written is accepted with the same tree. -/
theorem write_undoes_parse (text : Text) (len : Int) (json : Json) (positive : 0 < len)
    (accepted : jsonParseText jsonNew text.bytes len = some (retOk, json)) :
    jsonGetMsgLen json = (strip false text.bytes).length ∧
    (∀ (buf : List UInt8) (size : Int), size ≤ buf.length → jsonGetMsgLen json < size →
      jsonWriteMessage json buf size = some ((jsonGetMsgLen json : Int), json,
        strip false text.bytes ++ buf.drop (jsonGetMsgLen json))) ∧
    json.stack = [] ∧ (∀ node ∈ json.nodes, node.visited = 0) ∧
    ∀ again : Int, 0 < again →
      jsonParseText jsonNew (strip false text.bytes) again = some (retOk, json) := by
  obtain ⟨value, derives, rfl⟩ := derives_of_accepted positive accepted
  obtain ⟨-, -, -, -, -, -, container, -⟩ := id derives
  have compact := derives.strip_eq simple_tokens
  rw [compact]
  refine ⟨rfl, ?_, rfl, ?_, ?_⟩
  · intro buf size inside room
    exact write_handleOf container buf inside room
  · intro node member
    rcases List.mem_cons.mp member with rfl | below
    · exact valueNode_visited ..
    · exact childNodes_visited _ _ node below
  · intro again positive
    exact parse_of_derives (print_derivesText derives) positive

/-- The sample is written without its spaces. -/
theorem write_undoes_parse_sample :
    (strip false sampleText.bytes).length = 8 ∧
    jsonWriteMessage (handleOf (.object (.cons [0x61] (.array .nil) .nil))) (List.replicate 12 1) 10 =
      some (8, handleOf (.object (.cons [0x61] (.array .nil) .nil)),
        strip false sampleText.bytes ++ List.replicate 4 1) := by
  have accepted : jsonParseText jsonNew sampleText.bytes 11 =
      some (retOk, handleOf (.object (.cons [0x61] (.array .nil) .nil))) := by decide
  have holds := write_undoes_parse sampleText 11 _ (by decide) accepted
  exact ⟨by decide, holds.2.1 (List.replicate 12 1) 10 (by decide) (by decide)⟩

end Ezcfg.Json

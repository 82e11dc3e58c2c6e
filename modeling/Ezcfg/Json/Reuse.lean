import Ezcfg.Foundation.Runs
import Ezcfg.Json.RoundTrip

/-!
# Using a handle again

A parse puts its tree behind the nodes there were and adds to the count there was; it
resets the handle when the loop fails, but not when the text does not start with a bracket.
So a handle that holds a tree keeps counting and keeps its tree. `Kept` says what handles
are left by any calls.
-/

namespace Ezcfg.Json

open Foundation Foundation.Json

/-- One call on a handle. A buffer has the length it is given with. -/
inductive Call where
  | parse (text : Text) (len : Int)
  | write (buf : List UInt8)
  | reset

/-- Perform one call: the code, with the buffer of a write. A count that leaves the range of
int has no result. -/
def call (json : Json) : Call → Option ((Int × List UInt8) × Json)
  | .parse text len => do
    let (ret, after) ← jsonParseText json text.bytes len
    ensure (after.msgLen < 2 ^ 31)
    return ((ret, []), after)
  | .write buf => do
    let (n, after, buf) ← jsonWriteMessage json buf buf.length
    return ((n, buf), after)
  | .reset => some ((retOk, []), json.reset)

/-- The text does not start with a bracket. -/
def Unopened (text : List UInt8) : Prop :=
  byteAt (skipWs text) ≠ openBrace ∧ byteAt (skipWs text) ≠ openBracket

/-- What a handle is after any calls: fresh, or with a tree behind linked nodes, an empty stack
and a count of at least the text of the tree. -/
def Kept (json : Json) : Prop :=
  json = jsonNew ∨ ∃ before value msgLen, Linked (withValue before none value) ∧
    value.Container ∧ value.print.length ≤ msgLen ∧
    json = ⟨withValue before none value, some before.length, [], msgLen⟩

/-- The nodes of a value are linked behind linked nodes. -/
theorem withValue_linked {before : List Node} (linked : Linked before) {value : Value}
    {text : List UInt8} (derives : DerivesText tokens value text) :
    Linked (withValue before none value) := by
  obtain ⟨_, input, _, -, -, -, -, inside⟩ := derives
  obtain ⟨needed, run⟩ := value_read before (some before.length) [] 0 inside
  have safe := startHandle_safe linked 0 (valueCreate_of_derives inside)
  have last := run 1
  rw [parseLoop.eq_2 _ _ 0, if_pos (.inr rfl)] at last
  exact (parseLoop_safe safe last).linked

/-- A fresh handle is reached as well as one that holds a tree. -/
theorem kept_new : Kept jsonNew := .inl rfl

/-- A parse starts from linked nodes and an empty stack. -/
theorem Kept.shape {json : Json} (kept : Kept json) :
    Linked json.nodes ∧ json = ⟨json.nodes, json.root, [], json.msgLen⟩ := by
  rcases kept with rfl | ⟨before, value, msgLen, linked, container, counted, rfl⟩
  · exact ⟨linked_nil, rfl⟩
  · exact ⟨linked, rfl⟩

/-- What a parse comes to on any handle that calls leave. -/
theorem Kept.parse_cases {json : Json} (kept : Kept json) (text : List UInt8) {len : Int}
    (positive : 0 < len) :
    (Unopened text ∧ jsonParseText json text len = some (retFail, json)) ∨
    (¬ Unopened text ∧ (¬ ∃ value, DerivesText tokens value text) ∧
      jsonParseText json text len = some (retFail, jsonNew)) ∨
    ∃ value, DerivesText tokens value text ∧ jsonParseText json text len =
      some (retOk, ⟨withValue json.nodes none value, some json.nodes.length, [],
        json.msgLen + value.print.length⟩) := by
  obtain ⟨linked, shape⟩ := kept.shape
  by_cases unopened : Unopened text
  · exact .inl ⟨unopened, parse_unopened json positive unopened⟩
  · by_cases derived : ∃ value, DerivesText tokens value text
    · obtain ⟨value, derives⟩ := derived
      refine .inr (.inr ⟨value, derives, ?_⟩)
      rw [shape]
      exact parse_derived linked _ _ derives positive
    · refine .inr (.inl ⟨unopened, derived, ?_⟩)
      rw [shape]
      exact parse_underived linked _ _ positive unopened derived

/-- A text that is derived is not empty of brackets, so its value is a container. -/
theorem container_of_text {value : Value} {text : List UInt8}
    (derives : DerivesText tokens value text) : value.Container := by
  obtain ⟨_, _, _, -, -, -, container, -⟩ := derives
  exact container

/-- Every call leaves such a handle. -/
theorem Kept.call {json after : Json} (kept : Kept json) {request : Call}
    {answer : Int × List UInt8} (done : Json.call json request = some (answer, after)) :
    Kept after := by
  cases request with
  | reset =>
    obtain rfl : jsonNew = after := congrArg Prod.snd (Option.some.inj done)
    exact kept_new
  | parse text len =>
    obtain ⟨⟨ret, parsed⟩, parse, rest⟩ := Option.bind_eq_some_iff.mp done
    obtain ⟨_, -, rest⟩ := Option.bind_eq_some_iff.mp rest
    obtain rfl : parsed = after := congrArg Prod.snd (Option.some.inj rest)
    have positive : 0 < len := by
      by_contra negative
      rw [jsonParseText, if_pos (Int.not_lt.mp negative)] at parse
      cases parse
    rcases kept.parse_cases text.bytes positive with ⟨-, same⟩ | ⟨-, -, reset⟩ |
      ⟨value, derives, accepted⟩
    · rw [same] at parse
      obtain rfl : json = parsed := congrArg Prod.snd (Option.some.inj parse)
      exact kept
    · rw [reset] at parse
      obtain rfl : jsonNew = parsed := congrArg Prod.snd (Option.some.inj parse)
      exact kept_new
    · rw [accepted] at parse
      have is := congrArg Prod.snd (Option.some.inj parse)
      refine .inr ⟨json.nodes, value, _, withValue_linked kept.shape.1 derives,
        container_of_text derives, ?_, is.symm⟩
      exact Nat.le_add_left _ _
  | write buf =>
    obtain ⟨⟨n, written, buf'⟩, write, rest⟩ := Option.bind_eq_some_iff.mp done
    obtain rfl : written = after := congrArg Prod.snd (Option.some.inj rest)
    have same : written = json := by
      by_cases empty : (buf.length : Int) ≤ 0
      · rw [jsonWriteMessage, if_pos empty] at write
        cases write
      by_cases large : (buf.length : Int) ≤ json.msgLen
      · rw [jsonWriteMessage, if_neg empty, if_pos large] at write
        exact (congrArg (fun result => result.2.1) (Option.some.inj write)).symm
      rcases kept with rfl | ⟨before, value, msgLen, linked, container, counted, rfl⟩
      · rw [jsonWriteMessage, if_neg empty, if_neg large, if_neg (fun other => other rfl)]
          at write
        exact (congrArg (fun result => result.2.1) (Option.some.inj write)).symm
      · rw [write_counted before container counted buf (Int.le_refl _) (Int.not_le.mp large)]
          at write
        exact (congrArg (fun result => result.2.1) (Option.some.inj write)).symm
    rw [same]
    exact kept

/-- Every handle that calls lead to is such a handle. -/
theorem reachable_kept {json : Json} (reached : Reachable call jsonNew json) : Kept json := by
  refine reachable_invariant Kept kept_new ?_ reached
  intro before request answer after kept done
  exact kept.call done

/-! ## Parsing on a used handle -/

/-- The tree at the root of the handle holds the value. -/
def HoldsTree (json : Json) (value : Value) : Prop :=
  ∃ root, json.root = some root ∧ HoldsValue json.nodes root none value

/-- A parse returns what it returns on a fresh handle, with the same tree and the same count,
and a failure leaves an empty handle. -/
def ParsesAsFresh (json : Json) (text : List UInt8) (len : Int) : Prop :=
  ∃ ret after fresh, jsonParseText json text len = some (ret, after) ∧
    jsonParseText jsonNew text len = some (ret, fresh) ∧
    (after.root = none ↔ fresh.root = none) ∧
    (∀ value, HoldsTree after value ↔ HoldsTree fresh value) ∧
    jsonGetMsgLen after = jsonGetMsgLen fresh ∧
    (ret = retFail → after.root = none ∧ after.stack = [] ∧ jsonGetMsgLen after = 0)

/-- A handle that counts nothing is fresh. -/
theorem Kept.eq_new {json : Json} (kept : Kept json) (zero : jsonGetMsgLen json = 0) :
    json = jsonNew := by
  rcases kept with rfl | ⟨before, value, msgLen, -, container, counted, rfl⟩
  · rfl
  · have positive := print_pos container
    rw [jsonGetMsgLen] at zero
    dsimp only at zero
    omega

/-- On a fresh handle a parse is as on a fresh handle, and its failure leaves it empty. -/
theorem parsesAsFresh_new (text : List UInt8) {len : Int} (positive : 0 < len) :
    ParsesAsFresh jsonNew text len := by
  have empty : jsonNew.root = none ∧ jsonNew.stack = [] ∧ jsonGetMsgLen jsonNew = 0 :=
    ⟨rfl, rfl, rfl⟩
  rcases kept_new.parse_cases text positive with ⟨-, same⟩ | ⟨-, -, same⟩ | ⟨_, -, same⟩
  · exact ⟨_, _, _, same, same, Iff.rfl, fun _ => Iff.rfl, rfl, fun _ => empty⟩
  · exact ⟨_, _, _, same, same, Iff.rfl, fun _ => Iff.rfl, rfl, fun _ => empty⟩
  · exact ⟨_, _, _, same, same, Iff.rfl, fun _ => Iff.rfl, rfl, fun ret => absurd ret (by decide)⟩

/-- The text of an array in an array. -/
def nestedText : Text where
  bytes := [0x5b, 0x5b, 0x5d, 0x5d]
  nonul := by decide
  short := by decide

/-- A text that is no container. -/
def bareText : Text where
  bytes := [0x31]
  nonul := by decide
  short := by decide

end Ezcfg.Json

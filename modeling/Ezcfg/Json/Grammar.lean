import Ezcfg.Json.Accepting
import Ezcfg.Json.Safety

/-!
# The parser and the grammar

On a fresh handle the parser always returns; it returns OK exactly when the text
derives an object or an array with the tokens of the parser, and then the tree holds
that value and no other.
-/

namespace Ezcfg.Json

open Foundation Foundation.Json

/-- The handle after a value has been parsed. -/
def handleOf (value : Value) : Json where
  nodes := withValue [] none value
  root := some 0
  stack := []
  msgLen := value.print.length

/-- The handle when the loop starts, behind the nodes there were before. -/
def startHandle (before : List Node) (msgLen : Nat) (type : ValueType) : Json where
  nodes := before ++ [{ type := type }]
  root := some before.length
  stack := [before.length]
  msgLen := msgLen

/-- No nodes are linked. -/
theorem linked_nil : Linked [] := fun _ _ cell => nomatch cell

/-- The loop starts safely. -/
theorem startHandle_safe {before : List Node} (linked : Linked before) (msgLen : Nat)
    {cur : List UInt8} {type : ValueType} (created : valueCreate cur = some type) :
    Safe (startHandle before msgLen type) cur :=
  safe_push (linked.append type) nofun (typeAt_new before { type := type })
    (covered_of_create created)

/-- The loop returns within the bound the parser sets it. -/
theorem startHandle_total {before : List Node} (linked : Linked before) (msgLen : Nat)
    (text : List UInt8) {type : ValueType} (created : valueCreate (skipWs text) = some type) :
    ∃ flow, parseLoop (3 * text.length + 2) (startHandle before msgLen type) (skipWs text) =
      some flow := by
  have shorter := skipWs_length_le text
  apply parseLoop_total (startHandle_safe linked msgLen created)
  simp only [startHandle, List.length_singleton]
  omega

/-- Where the loop comes to an empty stack, it has ended. -/
theorem parseLoop_of_reaches {json last : Json} {cur end_ : List UInt8} {turns : Nat} {flow : Flow}
    (reaches : Reaches json cur last end_) (empty : last.stack = [])
    (done : parseLoop turns json cur = some flow) : flow = .next last end_ := by
  obtain ⟨needed, run⟩ := reaches
  have ended : parseLoop (needed + 1) json cur = some (.next last end_) := by
    rw [run, parseLoop, if_pos (.inr empty)]
  have first := parseLoop_mono done (needed + 1)
  have second := parseLoop_mono ended turns
  rw [Nat.add_comm] at second
  exact Option.some.inj (first.symm.trans second)

/-- A container starts with a left bracket. -/
theorem container_start {value : Value} {input rest : List UInt8} (container : value.Container)
    (derives : DerivesValue tokens value input rest) :
    byteAt input = openBrace ∨ byteAt input = openBracket := by
  cases derives with
  | string => cases container
  | number => cases container
  | literal => cases container
  | emptyObject => exact .inl rfl
  | object => exact .inl rfl
  | emptyArray => exact .inr rfl
  | array => exact .inr rfl

/-- What a given mark starts is the mark and what follows it. -/
theorem eq_mark_cons {input : List UInt8} {mark : UInt8} (present : mark ≠ 0)
    (same : byteAt input = mark) : input = mark :: input.tail := by
  have cons := eq_cons_of_byteAt (p := input) (same ▸ present)
  rwa [same] at cons

/-- A value is created where there is a left bracket. -/
theorem valueCreate_of_start {input : List UInt8}
    (start : byteAt input = openBrace ∨ byteAt input = openBracket) :
    ∃ type, valueCreate input = some type := by
  rcases start with opened | opened
  · rw [eq_mark_cons (by decide) opened]
    exact ⟨.object, rfl⟩
  · rw [eq_mark_cons (by decide) opened]
    exact ⟨.array, rfl⟩

/-- A left bracket starts a container. -/
theorem container_of_start {value : Value} {input rest : List UInt8}
    (start : byteAt input = openBrace ∨ byteAt input = openBracket)
    (derives : DerivesValue tokens value input rest) : value.Container := by
  have created := valueCreate_of_derives derives
  have types : typeOf value = .object ∨ typeOf value = .array := by
    rcases start with opened | opened
    · rw [eq_mark_cons (by decide) opened] at created
      exact .inl (Option.some.inj created.symm)
    · rw [eq_mark_cons (by decide) opened] at created
      exact .inr (Option.some.inj created.symm)
  cases value with
  | string => simp [typeOf] at types
  | number => simp [typeOf] at types
  | literal word => cases word <;> simp [typeOf, literalType] at types
  | object => trivial
  | array => trivial

/-- A text of whitespace is skipped. -/
theorem skipWs_eq_nil {ws : List UInt8} (spaces : Spaces ws) : skipWs ws = [] := by
  have skipped := skipWs_spaces spaces []
  rwa [List.append_nil] at skipped

/-- A text that does not start with a bracket is refused, and the handle is left alone. -/
theorem parse_unopened (json : Json) {text : List UInt8} {len : Int} (positive : 0 < len)
    (unopened : byteAt (skipWs text) ≠ openBrace ∧ byteAt (skipWs text) ≠ openBracket) :
    jsonParseText json text len = some (retFail, json) := by
  rw [jsonParseText, if_neg (Int.not_le.mpr positive)]
  exact if_pos unopened

section
variable {before : List Node} (linked : Linked before) (root : Option Nat) (msgLen : Nat)
  {text : List UInt8} {len : Int}
include linked

/-- A derived text is accepted, and its value is put behind the nodes there were. -/
theorem parse_derived {value : Value} (derives : DerivesText tokens value text)
    (positive : 0 < len) : jsonParseText ⟨before, root, [], msgLen⟩ text len =
      some (retOk, ⟨withValue before none value, some before.length, [],
        msgLen + value.print.length⟩) := by
  obtain ⟨ws, input, trailing, rfl, spaces, after, container, inside⟩ := derives
  have created := valueCreate_of_derives inside
  have start := container_start container inside
  have skipped : skipWs (ws ++ input) = input := by
    rw [skipWs_spaces spaces, skipWs_of_not_space (valueCreate_starts created).not_space]
  obtain ⟨flow, done⟩ := startHandle_total linked msgLen (ws ++ input)
    (by rw [skipped]; exact created)
  have read := value_read before (some before.length) [] msgLen inside
  rw [skipped] at done
  obtain rfl := parseLoop_of_reaches read rfl done
  have opened : ¬ (byteAt input ≠ openBrace ∧ byteAt input ≠ openBracket) := fun neither =>
    start.elim neither.1 neither.2
  rw [jsonParseText, if_neg (Int.not_le.mpr positive)]
  simp only [skipped]
  rw [if_neg opened, created]
  simp only [create, push]
  rw [startHandle] at done
  simp only [done, skipWs_eq_nil after, true_and, if_true]

/-- Another text that starts with a bracket is refused, and the handle is reset. -/
theorem parse_underived (positive : 0 < len)
    (opened : ¬ (byteAt (skipWs text) ≠ openBrace ∧ byteAt (skipWs text) ≠ openBracket))
    (underived : ¬ ∃ value, DerivesText tokens value text) :
    jsonParseText ⟨before, root, [], msgLen⟩ text len = some (retFail, jsonNew) := by
  rw [jsonParseText, if_neg (Int.not_le.mpr positive)]
  dsimp only
  rw [if_neg opened]
  have start : byteAt (skipWs text) = openBrace ∨ byteAt (skipWs text) = openBracket := by
    tauto
  obtain ⟨type, created⟩ := valueCreate_of_start start
  obtain ⟨flow, done⟩ := startHandle_total linked msgLen text created
  rw [created]
  rw [startHandle] at done
  simp only [create, push, done]
  cases flow with
  | funcOut => rfl
  | next last end_ =>
    by_cases ended : skipWs end_ = [] ∧ last.stack = []
    · have accepts : Accepts (startHandle before msgLen type) (skipWs text) :=
        ⟨_, last, end_, done, ended.1, ended.2⟩
      obtain ⟨value, trailing, inside⟩ := derives_of_accepts created accepts
      obtain rfl : type = typeOf value :=
        Option.some.inj (created.symm.trans (valueCreate_of_derives inside))
      obtain ⟨ws, spaces, whole, -⟩ := skipWs_spec text
      have reached := parseLoop_of_reaches (value_read before (some before.length) [] msgLen inside)
        rfl done
      obtain ⟨-, rfl⟩ := Flow.next.inj reached
      obtain ⟨blank, after, rest, -⟩ := skipWs_spec end_
      rw [ended.1, List.append_nil] at rest
      refine absurd ⟨value, ws, skipWs text, end_, whole, spaces, rest ▸ after,
        container_of_start start inside, inside⟩ underived
    · simp only [ended, if_false]
      rfl

end

/-- A derived text is accepted, and the handle is that of its value. -/
theorem parse_of_derives {text : List UInt8} {value : Value} (derives : DerivesText tokens value text)
    {len : Int} (positive : 0 < len) :
    jsonParseText jsonNew text len = some (retOk, handleOf value) := by
  have parsed := parse_derived linked_nil none 0 derives positive
  rwa [Nat.zero_add] at parsed

/-- What is accepted is derived, and a failure leaves an empty handle. -/
theorem parse_cases (text : List UInt8) {len : Int} (positive : 0 < len) :
    jsonParseText jsonNew text len = some (retFail, jsonNew) ∨
      ∃ value, DerivesText tokens value text := by
  by_cases derived : ∃ value, DerivesText tokens value text
  · exact .inr derived
  · left
    by_cases unopened : byteAt (skipWs text) ≠ openBrace ∧ byteAt (skipWs text) ≠ openBracket
    · exact parse_unopened jsonNew positive unopened
    · exact parse_underived linked_nil none 0 positive unopened derived

/-- The tree of the handle holds the value. -/
theorem handleOf_holds (value : Value) : HoldsValue (handleOf value).nodes 0 none value :=
  holdsValue_of_nodes [] [] value rfl (by simp [handleOf, withValue])

/-- A text derives one value. -/
theorem derivesText_unique {text : List UInt8} {value other : Value}
    (derives : DerivesText tokens value text) (derives' : DerivesText tokens other text) :
    value = other := by
  have same := (parse_of_derives derives Int.one_pos).symm.trans
    (parse_of_derives derives' Int.one_pos)
  have handles : handleOf value = handleOf other := (Prod.mk.inj (Option.some.inj same)).2
  exact holdsValue_unique value other (handleOf_holds value)
    (handles ▸ handleOf_holds other)

/-- The parser returns OK exactly on the texts of the grammar, and then the tree at
the root holds the value derived and nothing else. -/
theorem parse_iff_derives (text : Text) (len : Int) (positive : 0 < len) :
    ∃ ret json, jsonParseText jsonNew text.bytes len = some (ret, json) ∧
      (ret = retOk ∨ ret = retFail) ∧
      (ret = retOk ↔ ∃ value, DerivesText tokens value text.bytes) ∧
      ∀ value, DerivesText tokens value text.bytes →
        ∃ root, json.root = some root ∧
          ∀ held, HoldsValue json.nodes root none held ↔ held = value := by
  by_cases derived : ∃ value, DerivesText tokens value text.bytes
  · obtain ⟨value, derives⟩ := derived
    refine ⟨_, _, parse_of_derives derives positive, .inl rfl, iff_of_true rfl ⟨value, derives⟩, ?_⟩
    intro other derives'
    obtain rfl := derivesText_unique derives derives'
    refine ⟨0, rfl, fun held => ⟨fun holds => ?_, ?_⟩⟩
    · exact holdsValue_unique held value holds (handleOf_holds value)
    · rintro rfl
      exact handleOf_holds held
  · have failed := (parse_cases text.bytes positive).resolve_right derived
    refine ⟨_, _, failed, .inr rfl, iff_of_false (by decide) derived, ?_⟩
    intro value derives
    exact absurd ⟨value, derives⟩ derived

/-- An object with an empty array in it, with whitespace. -/
def sampleText : Text where
  bytes := [0x20, 0x7b, 0x22, 0x61, 0x22, 0x3a, 0x20, 0x5b, 0x5d, 0x7d]
  nonul := by decide
  short := by decide

/-- The parser on the sample. -/
theorem parse_iff_derives_sample : 0 < (11 : Int) ∧
    ∃ ret json, jsonParseText jsonNew sampleText.bytes 11 = some (ret, json) ∧
      (ret = retOk ∨ ret = retFail) ∧
      (ret = retOk ↔ ∃ value, DerivesText tokens value sampleText.bytes) ∧
      ∀ value, DerivesText tokens value sampleText.bytes →
        ∃ root, json.root = some root ∧
          ∀ held, HoldsValue json.nodes root none held ↔ held = value :=
  ⟨by decide, parse_iff_derives sampleText 11 (by decide)⟩

end Ezcfg.Json

import Ezcfg.Json.NvramList
import Ezcfg.Json.Reuse

/-!
# Recognising representations and results

Both recognisers look at the children of the root. The parser marks an empty container with
a child of its own, so the root of `{}` has a child that is no pair: it is neither recognised
as a representation without settings nor as the result that stands for success.
-/

namespace Ezcfg.Json

open Foundation Foundation.Json

/-- `json_is_nvram_result_ok` -/
def jsonIsNvramResultOk (json : Json) : Option Bool :=
  match json.root with
  | none => some .false
  | some np => do
    let node ← json.nodes[np]?
    if node.type ≠ .object then return .false
    return node.left = none ∧ node.right = none

/-- All members have strings as values. -/
def AllStrings : Members → Prop
  | .nil => True
  | .cons _ value rest => (∃ content, value = .string content) ∧ AllStrings rest

/-- Members are all strings when their pairs can be listed. -/
theorem allStrings_iff (members : Members) : AllStrings members ↔ (stringPairs members).isSome := by
  cases members with
  | nil => exact iff_of_true trivial rfl
  | cons name value rest =>
    have further := allStrings_iff rest
    by_cases string : ∃ content, value = .string content
    · obtain ⟨content, rfl⟩ := string
      rw [AllStrings, stringPairs, Option.isSome_map, further]
      exact and_iff_right ⟨content, rfl⟩
    · refine iff_of_false (fun all => string all.1) fun listed => ?_
      obtain ⟨pairs, strings⟩ := Option.isSome_iff_exists.mp listed
      obtain ⟨content, _, is, -⟩ := stringPairs_cons strings
      exact string ⟨content, is⟩

/-- A value that is no object is no representation. -/
theorem isRepresentation_other {value : Value} (other : ∀ members, value ≠ .object members)
    (none : isRepresentation value = false) : isRepresentation value = true ↔
      value ≠ .object .nil ∧ ∃ members, value = .object members ∧ AllStrings members := by
  refine iff_of_false (by simp [none]) ?_
  rintro ⟨-, members, is, -⟩
  exact other members is

/-- A value with strings as members, and with one of them at least, is a representation. -/
theorem isRepresentation_iff (value : Value) : isRepresentation value = true ↔
    value ≠ .object .nil ∧ ∃ members, value = .object members ∧ AllStrings members := by
  cases value with
  | object members =>
    cases members with
    | nil =>
      refine iff_of_false ?_ fun none => none.1 rfl
      intro is
      cases is
    | cons name value rest =>
      rw [isRepresentation, ← allStrings_iff]
      · constructor
        · intro all
          refine ⟨fun same => ?_, _, rfl, all⟩
          exact cons_ne_nil name value rest (Value.object.inj same)
        · rintro ⟨-, members, is, all⟩
          rw [Value.object.inj is]
          exact all
      · exact cons_ne_nil name value rest
  | string => exact isRepresentation_other (by intro members same; cases same) rfl
  | number => exact isRepresentation_other (by intro members same; cases same) rfl
  | literal => exact isRepresentation_other (by intro members same; cases same) rfl
  | array => exact isRepresentation_other (by intro members same; cases same) rfl

/-- No value is recognised as the result of success: every object has a child. -/
theorem resultOk_eq (value : Value) : jsonIsNvramResultOk (handleOf value) = some .false := by
  obtain ⟨node, cell, type, -⟩ := holdsValue_node (handleOf_holds value)
  have root : (handleOf value).root = some 0 := rfl
  rw [jsonIsNvramResultOk, root]
  dsimp only
  cases value with
  | object members =>
    obtain ⟨left, root, mark, chain⟩ := handleOf_holds (.object members)
    have child : left ≠ none := by
      cases members with
      | nil =>
        obtain ⟨p, is, -⟩ := mark rfl
        rw [is]
        exact Option.some_ne_none p
      | cons name value rest =>
        obtain ⟨p, -, -, is, -⟩ := chain (cons_ne_nil name value rest)
        rw [is]
        exact Option.some_ne_none p
    rw [bind_of_some root, if_neg (fun other => other rfl)]
    simp [child]
  | string => rw [bind_of_some cell, if_pos (by simp [type, typeOf])]; rfl
  | number => rw [bind_of_some cell, if_pos (by simp [type, typeOf])]; rfl
  | literal word => rw [bind_of_some cell, if_pos (by rw [type]; cases word <;> decide)]; rfl
  | array => rw [bind_of_some cell, if_pos (by simp [type, typeOf])]; rfl

/-- The recognisers tell what the text says: settings, and the empty object. -/
def Recognises (json : Json) (value : Value) : Prop :=
  (∃ is, jsonIsNvramRepresentation json = some is ∧
    (is = true ↔ ∃ members, value = .object members ∧ AllStrings members)) ∧
  ∃ is, jsonIsNvramResultOk json = some is ∧ (is = true ↔ value = .object .nil)

/-- For an accepted text the recognisers are right exactly when it is not the empty object. -/
theorem recognises_iff (text : Text) (len : Int) {json : Json} (positive : 0 < len)
    (accepted : jsonParseText jsonNew text.bytes len = some (retOk, json)) {value : Value}
    (root : HoldsTree json value) : Recognises json value ↔ value ≠ .object .nil := by
  obtain ⟨other, -, rfl⟩ := derives_of_accepted positive accepted
  obtain ⟨p, is, holds⟩ := root
  obtain rfl : 0 = p := Option.some.inj is
  obtain rfl := holdsValue_unique value other holds (handleOf_holds other)
  rw [Recognises, representation_eq (rooted_handleOf value), resultOk_eq]
  constructor
  · rintro ⟨-, is, same, empty⟩ none
    rw [← Option.some.inj same] at empty
    exact absurd (empty.mpr none) nofun
  · intro filled
    refine ⟨⟨_, rfl, ?_⟩, .false, rfl, iff_of_false nofun filled⟩
    rw [isRepresentation_iff]
    exact and_iff_right filled

/-- The text of the empty object. -/
def emptyText : Text where
  bytes := [0x7b, 0x7d]
  nonul := by decide
  short := by decide

/-- The handle of the empty object. -/
def emptyHandle : Json := ⟨[{ type := .object, left := some 1 }, { type := .emptySet }], some 0, [], 2⟩

/-- The empty object is neither recognised as settings nor as the result of success. -/
theorem not_recognises : ¬ ∀ (text : Text) (len : Int) (json : Json) (value : Value), 0 < len →
    jsonParseText jsonNew text.bytes len = some (retOk, json) → HoldsTree json value →
    Recognises json value := by
  intro recognised
  obtain ⟨-, is, same, empty⟩ := recognised emptyText 3 emptyHandle (.object .nil) (by decide)
    (by decide +kernel) ⟨0, rfl, handleOf_holds (.object .nil)⟩
  have refused : jsonIsNvramResultOk emptyHandle = some .false := by decide
  rw [Option.some.inj (same.symm.trans refused)] at empty
  exact absurd (empty.mpr rfl) nofun

theorem recognises_iff_empty :
    Recognises emptyHandle (.object .nil) ↔ Value.object .nil ≠ .object .nil :=
  recognises_iff emptyText 3 (by decide)
    (show jsonParseText jsonNew emptyText.bytes 3 = some (retOk, emptyHandle) by decide +kernel)
    ⟨0, rfl, handleOf_holds (.object .nil)⟩

end Ezcfg.Json

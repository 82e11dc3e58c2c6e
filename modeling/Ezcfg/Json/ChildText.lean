import Ezcfg.Foundation.ByteArea
import Ezcfg.Json.Acceptance
import Ezcfg.Json.NvramList

/-!
# The configuration text for a child process

`ezcfg_linked_list_nv_pair_to_json_text` copies every name and value with its terminator,
because the lengths kept in a pair count it. So the text that a child reads as a string
ends behind the first name. For an empty list the step back over the last comma goes back
over the opening brace. Neither text is taken by the parser.
-/

namespace Ezcfg.Json

open Foundation Foundation.Json

/-- `nvp->n` with `nvp->nlen` bytes, as `memcpy` copies them. -/
def copied (s : CString) : List UInt8 := s.bytes ++ [0]

/-- The bytes written for a pair. -/
def pairText (nvp : NvPair) : List UInt8 :=
  quote :: (copied nvp.name ++ [quote, colon] ++ quote :: (copied nvp.value ++ [quote, comma]))

/-- The length of the text: what the pairs take less the last comma, two braces and the
terminator. -/
def childTextLen (list : List NvPair) : Option Int := do
  let pairs ← checkedInt
    ((list.map fun nvp => (nvp.name.length + 1) + 3 + (nvp.value.length + 1) + 3).sum : Nat)
  checkedInt (pairs - 1 + 2 + 1)

/-- The loop over the pairs: where it ends, and the buffer then. -/
def copyPairs (textBuf : List UInt8) (p : Nat) : List NvPair → Option (Nat × List UInt8)
  | [] => some (p, textBuf)
  | nvp :: rest => do
    let textBuf ← ByteArea.write textBuf p (pairText nvp)
    copyPairs textBuf (p + (pairText nvp).length) rest

/-- `ezcfg_linked_list_nv_pair_to_json_text`. All bytes of the new buffer are written, so it
does not matter what they are before. -/
def nvPairToJsonText (list : List NvPair) : Option (List UInt8) := do
  let textLen ← childTextLen list
  let textBuf ← ByteArea.write (List.replicate textLen.toNat 0) 0 [openBrace]
  let (p, textBuf) ← copyPairs textBuf 1 list
  let textBuf ← ByteArea.write textBuf (p - 1) [closeBrace]
  ByteArea.write textBuf p [0]

/-- The text is taken as an nvram representation with the same settings in the same order,
or as the empty object when there are none. -/
def SurvivesTrip (list : List NvPair) : Prop :=
  ∃ textBuf text json, nvPairToJsonText list = some textBuf ∧
    ByteArea.stringAt textBuf 0 = some text ∧
    jsonParseText jsonNew text text.length = some (retOk, json) ∧
    (list ≠ [] → jsonIsNvramRepresentation json = some true ∧
      jsonBuildNvramNodeList json = some (some list)) ∧
    (list = [] → json = handleOf (.object .nil))

/-- The pairs are copied behind what stands in the buffer. -/
theorem copyPairs_front {front textBuf after : List UInt8} {p : Nat} (list : List NvPair)
    (isFront : front <+: textBuf) (copy : copyPairs textBuf front.length list = some (p, after)) :
    front ++ list.flatMap pairText <+: after ∧ p = (front ++ list.flatMap pairText).length := by
  induction list generalizing front textBuf with
  | nil =>
    injection copy with same
    injection same with place kept
    rw [List.flatMap_nil, List.append_nil]
    exact ⟨kept ▸ isFront, place.symm⟩
  | cons nvp rest inductionHypothesis =>
    obtain ⟨next, written, later⟩ := Option.bind_eq_some_iff.mp copy
    have behind := ByteArea.write_behind isFront written
    rw [← List.length_append] at later
    rw [List.flatMap_cons, ← List.append_assoc]
    exact inductionHypothesis behind later

/-- An odd number of quotation marks is not taken. -/
theorem parse_odd {text : List UInt8} {len : Int} {json : Json} (odd : text.count quote % 2 = 1)
    (positive : 0 < len) : jsonParseText jsonNew text len ≠ some (retOk, json) := by
  intro accepted
  obtain ⟨value, derives, _⟩ := derives_of_accepted positive accepted
  have even := (derives.composed balanced_composes).1
  omega

/-- The text for a list with pairs ends behind the first name. -/
theorem text_of_pairs {nvp : NvPair} {rest : List NvPair} {textBuf : List UInt8}
    (built : nvPairToJsonText (nvp :: rest) = some textBuf) :
    ByteArea.stringAt textBuf 0 = some (openBrace :: quote :: nvp.name.bytes) := by
  rw [nvPairToJsonText] at built
  generalize childTextLen (nvp :: rest) = sized at built
  obtain ⟨textLen, _, opens⟩ := Option.bind_eq_some_iff.mp built
  obtain ⟨opened, brace, copies⟩ := Option.bind_eq_some_iff.mp opens
  obtain ⟨⟨p, all⟩, copy, closes⟩ := Option.bind_eq_some_iff.mp copies
  obtain ⟨closed, last, terminated⟩ := Option.bind_eq_some_iff.mp closes
  have behind := ByteArea.write_behind (List.nil_prefix) brace
  obtain ⟨front, place⟩ := copyPairs_front (nvp :: rest) behind copy
  -- the name with its terminator is in front of all that is written later
  have named : openBrace :: quote :: nvp.name.bytes ++ [0] <+: all := by
    apply List.IsPrefix.trans _ front
    rw [List.flatMap_cons, pairText, copied]
    simp
  have before : (openBrace :: quote :: nvp.name.bytes ++ [0]).length ≤ p - 1 := by
    rw [place, List.flatMap_cons, pairText, copied]
    simp only [List.length_append, List.length_cons, List.length_nil]
    omega
  have kept := ByteArea.write_front named before last
  have still := ByteArea.write_front kept (by omega) terminated
  refine ByteArea.stringAt_front ?_ still
  intro zero
  rcases List.mem_cons.mp zero with brace | zero
  · exact absurd brace (by decide)
  · rcases List.mem_cons.mp zero with mark | zero
    · exact absurd mark (by decide)
    · exact nvp.name.nonul zero

/-- The text for an empty list is a brace. -/
theorem text_of_none : (nvPairToJsonText []).bind (ByteArea.stringAt · 0) = some [closeBrace] := by
  decide

/-- A closing brace is not taken. -/
theorem parse_brace : jsonParseText jsonNew [closeBrace] 1 = some (retFail, jsonNew) := by
  decide

/-- The text for any list of settings is refused. -/
theorem child_refuses {list : List NvPair}
    (unquoted : ∀ nvp ∈ list, quote ∉ nvp.name.bytes ∧ quote ∉ nvp.value.bytes)
    {textBuf text : List UInt8} {json : Json} (built : nvPairToJsonText list = some textBuf)
    (read : ByteArea.stringAt textBuf 0 = some text) :
    jsonParseText jsonNew text text.length ≠ some (retOk, json) := by
  intro accepted
  cases list with
  | nil =>
    have brace := text_of_none
    rw [built, Option.bind_some, read] at brace
    obtain rfl := Option.some.inj brace
    have refused := parse_brace.symm.trans accepted
    injection refused with same
    injection same with code
    exact absurd code (by decide)
  | cons nvp rest =>
    have name := text_of_pairs built
    rw [read] at name
    obtain rfl := Option.some.inj name
    have none : nvp.name.bytes.count quote = 0 :=
      List.count_eq_zero.mpr (unquoted nvp List.mem_cons_self).1
    apply parse_odd _ _ accepted
    · rw [List.count_cons_of_ne (by decide), List.count_cons_self, none]
    · simp only [List.length_cons]
      omega

/-- No list of settings survives. -/
theorem never_survives (list : List NvPair)
    (unquoted : ∀ nvp ∈ list, quote ∉ nvp.name.bytes ∧ quote ∉ nvp.value.bytes) :
    ¬ SurvivesTrip list := by
  rintro ⟨textBuf, text, json, built, read, accepted, _⟩
  exact child_refuses unquoted built read accepted

/-- The setting of `k` to `v`. -/
def oneSetting : NvPair :=
  ⟨⟨[0x6b], by decide, by decide⟩, ⟨[0x76], by decide, by decide⟩⟩

/-- It has no quotation mark. -/
theorem oneSetting_unquoted :
    ∀ nvp ∈ [oneSetting], quote ∉ nvp.name.bytes ∧ quote ∉ nvp.value.bytes := by
  intro nvp member
  rw [List.mem_singleton.mp member]
  exact ⟨by decide, by decide⟩

/-- The list of one setting does not survive. -/
theorem never_survives_one : ¬ SurvivesTrip [oneSetting] :=
  never_survives [oneSetting] oneSetting_unquoted

/-- Not every list of settings survives. -/
theorem not_survives : ¬ ∀ list : List NvPair,
    (∀ nvp ∈ list, quote ∉ nvp.name.bytes ∧ quote ∉ nvp.value.bytes) →
      (list.map NvPair.name).Nodup → SurvivesTrip list := by
  intro survives
  obtain ⟨textBuf, text, json, built, read, accepted, _⟩ :=
    survives [oneSetting] oneSetting_unquoted (by decide)
  exact child_refuses oneSetting_unquoted built read accepted

end Ezcfg.Json

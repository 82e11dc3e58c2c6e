import Ezcfg.Util.Base64

/-!
# What the base64 decoder accepts

The decoder checks the length of the text and the room for the result, and nothing else: no
byte of the text makes it fail. So whatever passes the two checks has to be base64 already.
-/

namespace Ezcfg.Util

open Foundation.Base64

/-- What the decoder is to do with a text and nothing behind it: it reads inside the text and
the table, and it only accepts the base64 text of what it writes. -/
def AcceptsBase64 (text : List UInt8) (dstLen : Nat) : Prop :=
  ∃ code written, base64Decode text text.length dstLen = some (code, written) ∧
    (0 ≤ code → ∃ bytes : List UInt8, text = encode bytes ∧ code = bytes.length ∧
      written = bytes ++ [0])

/-- A text that passes both checks is not refused. -/
theorem base64Decode_passed {text : List UInt8} {dstLen : Nat} (groups : text.length % 4 = 0)
    (room : text.length / 4 * 3 + 1 ≤ dstLen) {code : Int} {written : List UInt8}
    (result : base64Decode text text.length dstLen = some (code, written)) : 0 ≤ code := by
  rw [base64Decode, if_neg (not_not_intro groups), if_neg (Nat.not_lt.mpr room)] at result
  obtain ⟨bytes, -, same⟩ := Option.bind_eq_some_iff.mp result
  injection same with same
  injection same with count _
  rw [← count]
  exact Int.natCast_nonneg _

/-- A text that fails a check is refused. -/
theorem base64Decode_refused {text : List UInt8} {dstLen : Nat}
    (fails : text.length % 4 ≠ 0 ∨ dstLen < text.length / 4 * 3 + 1) :
    base64Decode text text.length dstLen = some (-1, []) := by
  rw [base64Decode]
  by_cases groups : text.length % 4 = 0
  · have small := fails.resolve_left (not_not_intro groups)
    rw [if_neg (not_not_intro groups), if_pos small]
  · rw [if_pos groups]

/-- The decoder only accepts base64 exactly when its checks refuse the text, or the text is
made of groups of symbols, with pads and zero bits only where the last group is not full. -/
theorem acceptsBase64_iff (text : List UInt8) (dstLen : Nat) :
    AcceptsBase64 text dstLen ↔
      text.length % 4 ≠ 0 ∨ dstLen < text.length / 4 * 3 + 1 ∨ Canonical text := by
  rw [canonical_iff]
  constructor
  · rintro ⟨code, written, result, accepted⟩
    by_cases groups : text.length % 4 = 0
    · rcases Nat.lt_or_ge dstLen (text.length / 4 * 3 + 1) with small | room
      · exact .inr (.inl small)
      · obtain ⟨bytes, canonical, -⟩ := accepted (base64Decode_passed groups room result)
        exact .inr (.inr ⟨bytes, canonical⟩)
    · exact .inl groups
  · intro condition
    by_cases fails : text.length % 4 ≠ 0 ∨ dstLen < text.length / 4 * 3 + 1
    · refine ⟨-1, [], base64Decode_refused fails, ?_⟩
      intro accepted
      exact absurd accepted (by decide)
    · have room : text.length / 4 * 3 + 1 ≤ dstLen := by omega
      obtain unequal | small | ⟨bytes, rfl⟩ := condition
      · exact absurd (.inl unequal) fails
      · exact absurd (.inr small) fails
      · have back := base64Decode_encode bytes [] room
        rw [List.append_nil] at back
        exact ⟨_, _, back, fun _ => ⟨bytes, rfl, rfl, rfl⟩⟩

/-- A byte that is no letter is looked up behind the table. -/
theorem not_acceptsBase64 : ¬ ∀ text dstLen, AcceptsBase64 text dstLen := by
  intro accepts
  obtain ⟨code, written, result, -⟩ := accepts [0xff, 0xff, 0xff, 0xff] 1024
  have outside : base64Decode [0xff, 0xff, 0xff, 0xff] [(0xff : UInt8), 0xff, 0xff, 0xff].length
      1024 = none := by
    decide
  rw [outside] at result
  cases result

end Ezcfg.Util

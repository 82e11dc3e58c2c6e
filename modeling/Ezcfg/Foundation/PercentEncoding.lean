import Ezcfg.Foundation.Chunked

/-!
# The percent encoding

A percent sign with two hexadecimal digits stands for a byte; anything else stands for
itself. In forms a plus sign stands for a space.
-/

namespace Foundation.PercentEncoding

open Chunked

/-- The percent sign. -/
abbrev percent : UInt8 := 0x25

/-- The byte that two digits stand for. -/
def escaped (high low : UInt8) : UInt8 := UInt8.ofNat (16 * hexValue high + hexValue low)

/-- What a byte outside an escape stands for. -/
def literal (form : Bool) (byte : UInt8) : UInt8 := if form ∧ byte = 0x2b then 0x20 else byte

/-- The text that is encoded; escapes that are malformed or cut are copied. -/
def decode (form : Bool) : List UInt8 → List UInt8
  | byte :: high :: low :: rest =>
    if byte = percent ∧ isHexDigit high ∧ isHexDigit low then
      escaped high low :: decode form rest
    else literal form byte :: decode form (high :: low :: rest)
  | short => short.map (literal form)

/-- An escape that is cut at the end of the text. -/
def Cut (text : List UInt8) : Prop :=
  text = [percent] ∨ ∃ digit, isHexDigit digit ∧ text = [percent, digit]

/-- An escape in front. -/
theorem decode_escape (form : Bool) {high low : UInt8} (highDigit : isHexDigit high)
    (lowDigit : isHexDigit low) (rest : List UInt8) :
    decode form (percent :: high :: low :: rest) = escaped high low :: decode form rest := by
  rw [decode, if_pos ⟨rfl, highDigit, lowDigit⟩]

/-- Nothing that is an escape in front. -/
theorem decode_literal (form : Bool) {byte : UInt8} {rest : List UInt8}
    (plain : ∀ high low others, byte = percent → rest = high :: low :: others →
      ¬ (isHexDigit high ∧ isHexDigit low)) :
    decode form (byte :: rest) = literal form byte :: decode form rest := by
  rcases rest with _ | ⟨high, _ | ⟨low, others⟩⟩
  · rfl
  · rfl
  · rw [decode, if_neg]
    rintro ⟨rfl, digits⟩
    exact plain high low others rfl rfl digits

/-- A percent sign stands for itself. -/
theorem literal_percent (form : Bool) : literal form percent = percent := by
  cases form <;> rfl

/-- A cut escape is copied. -/
theorem Cut.decode_eq {cut : List UInt8} (isCut : Cut cut) (form : Bool) :
    ∃ others, decode form cut = percent :: others := by
  rcases isCut with rfl | ⟨digit, -, rfl⟩
  · exact ⟨[], congrArg (· :: []) (literal_percent form)⟩
  · exact ⟨[literal form digit], congrArg (· :: [literal form digit]) (literal_percent form)⟩

/-- A percent sign is no digit. -/
theorem percent_not_digit {digit : UInt8} (isDigit : isHexDigit digit) : digit ≠ percent := by
  rintro rfl
  exact absurd isDigit (by decide)

/-- A cut escape ends with no other one. -/
theorem Cut.suffix_eq {cut text : List UInt8} (isCut : Cut cut) (other : Cut text)
    (isSuffix : cut <:+ text) : cut = text := by
  have present : cut ≠ [] := by
    rcases isCut with rfl | ⟨digit, -, rfl⟩
    · exact List.cons_ne_nil _ _
    · exact List.cons_ne_nil _ _
  rcases other with rfl | ⟨digit, isDigit, rfl⟩
  · rcases List.suffix_cons_iff.mp isSuffix with same | empty
    · exact same
    · exact absurd (List.suffix_nil.mp empty) present
  · rcases List.suffix_cons_iff.mp isSuffix with same | isSuffix
    · exact same
    rcases List.suffix_cons_iff.mp isSuffix with same | empty
    · rcases isCut with rfl | ⟨second, -, rfl⟩
      · exact absurd (List.cons.inj same).1.symm (percent_not_digit isDigit)
      · exact absurd (congrArg List.length same) (by simp)
    · exact absurd (List.suffix_nil.mp empty) present

/-- A cut escape is copied byte by byte. -/
theorem Cut.length_decode {cut : List UInt8} (isCut : Cut cut) (form : Bool) :
    (decode form cut).length = cut.length := by
  rcases isCut with rfl | ⟨digit, -, rfl⟩
  · rfl
  · rfl

end Foundation.PercentEncoding

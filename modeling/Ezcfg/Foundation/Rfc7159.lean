import Ezcfg.Foundation.JsonDerivations

/-!
# The tokens of RFC 7159

Numbers have an integer part without leading zeros, an optional fraction and an
optional exponent; strings are sequences of unescaped characters and escapes, in
UTF-8 as RFC 3629 has it. What an exponent may look like is a parameter of the
number grammar, so that a more lenient reader can share the rest of it.

The rest of the grammar is the one of `DerivesText`: tokens of the standard end by
themselves, so nothing is asked of the text behind a number or a literal.
-/

namespace Foundation.Json

/-! ## Numbers -/

/-- A decimal digit. -/
def isDigit (byte : UInt8) : Bool := 0x30 ≤ byte && byte ≤ 0x39

/-- The letter in front of an exponent. -/
def isExponentMark (byte : UInt8) : Bool := byte = 0x65 || byte = 0x45

/-- The sign of an exponent. -/
def isSign (byte : UInt8) : Bool := byte = 0x2b || byte = 0x2d

/-- Only digits. -/
def Digits (digits : List UInt8) : Prop := ∀ byte ∈ digits, isDigit byte

/-- Nothing, or a minus. -/
def MinusPart (part : List UInt8) : Prop := part = [] ∨ part = [0x2d]

/-- A zero, or digits that do not start with one. -/
def IntPart (part : List UInt8) : Prop :=
  part = [0x30] ∨ ∃ digit digits, part = digit :: digits ∧ digit ≠ 0x30 ∧ isDigit digit ∧
    Digits digits

/-- Nothing, or a point and digits. -/
def FracPart (part : List UInt8) : Prop :=
  part = [] ∨ ∃ digits, part = 0x2e :: digits ∧ digits ≠ [] ∧ Digits digits

/-- Nothing, or an exponent mark, an optional sign and digits. -/
def ExpPart (part : List UInt8) : Prop :=
  part = [] ∨ ∃ mark sign digits, part = mark :: (sign ++ digits) ∧ isExponentMark mark ∧
    (sign = [] ∨ ∃ byte, sign = [byte] ∧ isSign byte) ∧ digits ≠ [] ∧ Digits digits

/-- A number with a given grammar of exponents. -/
def NumberWith (exponent : List UInt8 → Prop) (number : List UInt8) : Prop :=
  ∃ minus int frac exp, number = minus ++ (int ++ (frac ++ exp)) ∧
    MinusPart minus ∧ IntPart int ∧ FracPart frac ∧ exponent exp

/-- More exponents make more numbers. -/
theorem NumberWith.mono {exponent wider : List UInt8 → Prop} {number : List UInt8}
    (include_ : ∀ part, exponent part → wider part) (holds : NumberWith exponent number) :
    NumberWith wider number := by
  obtain ⟨minus, int, frac, exp, whole, signed, integral, fractional, last⟩ := holds
  exact ⟨minus, int, frac, exp, whole, signed, integral, fractional, include_ exp last⟩

/-! ## Strings -/

/-- `UTF8-tail` -/
def Tail (byte : UInt8) : Prop := 0x80 ≤ byte ∧ byte ≤ 0xbf

/-- One character beyond ASCII, as its bytes: `UTF8-2`, `UTF8-3` or `UTF8-4`. -/
inductive Multibyte : List UInt8 → Prop
  | two {a b : UInt8} (first : 0xc2 ≤ a ∧ a ≤ 0xdf) (second : Tail b) : Multibyte [a, b]
  | threeLow {b c : UInt8} (second : 0xa0 ≤ b ∧ b ≤ 0xbf) (third : Tail c) :
      Multibyte [0xe0, b, c]
  | three {a b c : UInt8} (first : 0xe1 ≤ a ∧ a ≤ 0xec) (second : Tail b) (third : Tail c) :
      Multibyte [a, b, c]
  | threeNoSurrogate {b c : UInt8} (second : 0x80 ≤ b ∧ b ≤ 0x9f) (third : Tail c) :
      Multibyte [0xed, b, c]
  | threeHigh {a b c : UInt8} (first : 0xee ≤ a ∧ a ≤ 0xef) (second : Tail b)
      (third : Tail c) : Multibyte [a, b, c]
  | fourLow {b c d : UInt8} (second : 0x90 ≤ b ∧ b ≤ 0xbf) (third : Tail c)
      (fourth : Tail d) : Multibyte [0xf0, b, c, d]
  | four {a b c d : UInt8} (first : 0xf1 ≤ a ∧ a ≤ 0xf3) (second : Tail b) (third : Tail c)
      (fourth : Tail d) : Multibyte [a, b, c, d]
  | fourHigh {b c d : UInt8} (second : 0x80 ≤ b ∧ b ≤ 0x8f) (third : Tail c)
      (fourth : Tail d) : Multibyte [0xf4, b, c, d]

/-- A hexadecimal digit. -/
def isHexDigit (byte : UInt8) : Bool :=
  isDigit byte || (0x41 ≤ byte && byte ≤ 0x46) || (0x61 ≤ byte && byte ≤ 0x66)

/-- The bytes that may follow a reverse solidus on their own. -/
def shortEscapes : List UInt8 := [quote, backslash, 0x2f, 0x62, 0x66, 0x6e, 0x72, 0x74]

/-- One character of a string. -/
inductive StringChar : List UInt8 → Prop
  | ascii {byte : UInt8} (printable : 0x20 ≤ byte ∧ byte ≤ 0x7f) (unquoted : byte ≠ quote)
      (unescaped : byte ≠ backslash) : StringChar [byte]
  | multibyte {bytes : List UInt8} (encoded : Multibyte bytes) : StringChar bytes
  | escape {byte : UInt8} (member : byte ∈ shortEscapes) : StringChar [backslash, byte]
  | hex {a b c d : UInt8} (first : isHexDigit a) (second : isHexDigit b) (third : isHexDigit c)
      (fourth : isHexDigit d) : StringChar [backslash, 0x75, a, b, c, d]

/-- The body of a string. -/
inductive StringBody : List UInt8 → Prop
  | nil : StringBody []
  | cons {char rest : List UInt8} (head : StringChar char) (tail : StringBody rest) :
      StringBody (char ++ rest)

/-- The tokens of the standard. -/
def rfc7159 : Lexicon where
  string := StringBody
  number := fun content _ => NumberWith ExpPart content
  literal := fun _ => True

/-- The standard takes its own tokens in front of anything. -/
theorem takes_rfc7159 : Takes rfc7159 StringBody (NumberWith ExpPart) where
  string _ body := body
  number _ _ number _ := number
  literal _ _ := trivial

/-! ## Quotation marks inside strings -/

/-- The bytes of a character beyond ASCII are all beyond ASCII. -/
theorem Multibyte.high {bytes : List UInt8} (encoded : Multibyte bytes) :
    ∀ byte ∈ bytes, 0x80 ≤ byte := by
  have above : ∀ low byte : UInt8, (0x80 : UInt8) ≤ low → low ≤ byte → 0x80 ≤ byte :=
    fun _ _ => UInt8.le_trans
  cases encoded with
  | two first second => simp [above _ _ (by decide) first.1, second.1]
  | threeLow second third => simp [above _ _ (by decide) second.1, third.1]
  | three first second third => simp [above _ _ (by decide) first.1, second.1, third.1]
  | threeNoSurrogate second third => simp [second.1, third.1]
  | threeHigh first second third => simp [above _ _ (by decide) first.1, second.1, third.1]
  | fourLow second third fourth =>
    simp [above _ _ (by decide) second.1, third.1, fourth.1]
  | four first second third fourth =>
    simp [above _ _ (by decide) first.1, second.1, third.1, fourth.1]
  | fourHigh second third fourth => simp [second.1, third.1, fourth.1]

/-- A character with a quotation mark is the escape of one. -/
theorem StringChar.quoted {char : List UInt8} (holds : StringChar char) (member : quote ∈ char) :
    char = [backslash, quote] := by
  cases holds with
  | ascii printable unquoted => exact absurd (List.mem_singleton.mp member).symm unquoted
  | multibyte encoded => exact absurd (encoded.high quote member) (by decide)
  | @escape byte short =>
    have same : quote = byte := by simpa [quote, backslash] using member
    rw [same]
  | hex first second third fourth =>
    have notHex : ¬ isHexDigit quote := by decide
    have different : ∀ digit, isHexDigit digit → quote ≠ digit :=
      fun digit isHex same => notHex (same ▸ isHex)
    simp only [List.mem_cons, different _ first, different _ second, different _ third,
      different _ fourth, List.not_mem_nil, or_false] at member
    exact absurd member (by decide)

/-- A body with a quotation mark has a last one, which is escaped. -/
theorem StringBody.last_escape {body : List UInt8} (holds : StringBody body)
    (member : quote ∈ body) :
    ∃ before after, body = before ++ (backslash :: quote :: after) ∧ quote ∉ after := by
  induction holds with
  | nil => simp at member
  | @cons char rest head tail inductionHypothesis =>
    by_cases later : quote ∈ rest
    · obtain ⟨before, after, rfl, clean⟩ := inductionHypothesis later
      exact ⟨char ++ before, after, by simp, clean⟩
    · have here := head.quoted ((List.mem_append.mp member).resolve_right later)
      exact ⟨[], rest, by simp [here], later⟩

end Foundation.Json

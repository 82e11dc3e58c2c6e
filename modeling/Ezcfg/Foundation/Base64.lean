import Mathlib.Algebra.Group.Nat.Defs

/-!
# Base64

Three bytes make a number of 24 bits, which is written with its four digits in base 64.
A last group of one or two bytes is filled up with zero bits; pads stand for the digits
that come from the filling alone.
-/

namespace Foundation.Base64

/-- The pad. -/
abbrev pad : UInt8 := 0x3d

/-- The symbol of a digit in base 64. -/
def symbol (digit : Nat) : UInt8 :=
  if digit < 26 then UInt8.ofNat (0x41 + digit)
  else if digit < 52 then UInt8.ofNat (0x61 + (digit - 26))
  else if digit < 62 then UInt8.ofNat (0x30 + (digit - 52))
  else if digit = 62 then 0x2b
  else 0x2f

/-- The number that three bytes make. -/
def number (first second third : UInt8) : Nat :=
  first.toNat * 2 ^ 16 + second.toNat * 2 ^ 8 + third.toNat

/-- The number whose digits in base 64 are given. -/
def ofDigits (first second third fourth : Nat) : Nat :=
  first * 2 ^ 18 + second * 2 ^ 12 + third * 2 ^ 6 + fourth

/-- The base64 text of bytes. -/
def encode : List UInt8 → List UInt8
  | [] => []
  | [a] =>
    let n := number a 0 0
    [symbol (n / 2 ^ 18), symbol (n / 2 ^ 12 % 64), pad, pad]
  | [a, b] =>
    let n := number a b 0
    [symbol (n / 2 ^ 18), symbol (n / 2 ^ 12 % 64), symbol (n / 2 ^ 6 % 64), pad]
  | a :: b :: c :: rest =>
    let n := number a b c
    [symbol (n / 2 ^ 18), symbol (n / 2 ^ 12 % 64), symbol (n / 2 ^ 6 % 64), symbol (n % 64)] ++
      encode rest

/-- Three bytes make a number of 24 bits. -/
theorem number_lt (first second third : UInt8) : number first second third < 2 ^ 24 := by
  have high := first.toNat_lt
  have middle := second.toNat_lt
  have low := third.toNat_lt
  simp only [number]
  omega

/-- A number of 24 bits is the number of its digits. -/
theorem ofDigits_digits (n : Nat) :
    ofDigits (n / 2 ^ 18) (n / 2 ^ 12 % 64) (n / 2 ^ 6 % 64) (n % 64) = n := by
  simp only [ofDigits]
  omega

/-- Two digits have the leading byte. -/
theorem two_digits (n : Nat) :
    (n / 2 ^ 18 * 2 ^ 18 + n / 2 ^ 12 % 64 * 2 ^ 12) / 2 ^ 16 % 256 = n / 2 ^ 16 % 256 := by
  omega

/-- Three digits have the middle byte. -/
theorem three_digits (n : Nat) :
    (n / 2 ^ 18 * 2 ^ 18 + n / 2 ^ 12 % 64 * 2 ^ 12 + n / 2 ^ 6 % 64 * 2 ^ 6) / 2 ^ 8 % 256 =
      n / 2 ^ 8 % 256 := by
  omega

/-- The leading digit of three bytes is a digit. -/
theorem leading_lt (first second third : UInt8) : number first second third / 2 ^ 18 < 64 := by
  have small := number_lt first second third
  omega

/-- The leading byte of a number. -/
theorem leading_byte (first second third : UInt8) :
    UInt8.ofNat (number first second third / 2 ^ 16 % 256) = first := by
  have middle := second.toNat_lt
  have low := third.toNat_lt
  have value : number first second third / 2 ^ 16 % 256 = first.toNat := by
    have high := first.toNat_lt
    simp only [number]
    omega
  rw [value, UInt8.ofNat_toNat]

/-- The middle byte of a number. -/
theorem middle_byte (first second third : UInt8) :
    UInt8.ofNat (number first second third / 2 ^ 8 % 256) = second := by
  have low := third.toNat_lt
  have value : number first second third / 2 ^ 8 % 256 = second.toNat := by
    have middle := second.toNat_lt
    simp only [number]
    omega
  rw [value, UInt8.ofNat_toNat]

/-- The last byte of a number. -/
theorem last_byte (first second third : UInt8) :
    UInt8.ofNat (number first second third % 256) = third := by
  have value : number first second third % 256 = third.toNat := by
    have low := third.toNat_lt
    simp only [number]
    omega
  rw [value, UInt8.ofNat_toNat]

/-- The text has four symbols for each group that is begun. -/
theorem length_encode (bytes : List UInt8) :
    (encode bytes).length = (bytes.length + 2) / 3 * 4 := by
  induction bytes using encode.induct with
  | case1 => rfl
  | case2 => simp [encode]
  | case3 => simp [encode]
  | case4 a b c rest inductionHypothesis =>
    simp only [encode, List.length_append, inductionHypothesis, List.length_cons, List.length_nil]
    omega

/-! ## Canonical texts -/

/-- Groups of four symbols. The last one may have one or two pads, and the bits of its last
digit that stand for no byte are zero. -/
inductive Canonical : List UInt8 → Prop where
  | empty : Canonical []
  | one {first second : Nat} (isFirst : first < 64) (isSecond : second < 64)
      (zeros : second % 16 = 0) : Canonical [symbol first, symbol second, pad, pad]
  | two {first second third : Nat} (isFirst : first < 64) (isSecond : second < 64)
      (isThird : third < 64) (zeros : third % 4 = 0) :
      Canonical [symbol first, symbol second, symbol third, pad]
  | group {first second third fourth : Nat} {rest : List UInt8} (isFirst : first < 64)
      (isSecond : second < 64) (isThird : third < 64) (isFourth : fourth < 64)
      (others : Canonical rest) :
      Canonical (symbol first :: symbol second :: symbol third :: symbol fourth :: rest)

/-- The three bytes of four digits. -/
def bytesOf (first second third fourth : Nat) : UInt8 × UInt8 × UInt8 :=
  let n := ofDigits first second third fourth
  (UInt8.ofNat (n / 2 ^ 16), UInt8.ofNat (n / 2 ^ 8 % 256), UInt8.ofNat (n % 256))

/-- The bytes of digits make their number. -/
theorem number_bytesOf {first second third fourth : Nat} (isFirst : first < 64)
    (isSecond : second < 64) (isThird : third < 64) (isFourth : fourth < 64) :
    number (bytesOf first second third fourth).1 (bytesOf first second third fourth).2.1
      (bytesOf first second third fourth).2.2 = ofDigits first second third fourth := by
  have small : ofDigits first second third fourth < 2 ^ 24 := by
    rw [ofDigits]
    omega
  rw [number, bytesOf]
  simp only [UInt8.toNat_ofNat']
  omega

/-- The digits of the number of digits. -/
theorem digits_ofDigits {first second third fourth : Nat} (isSecond : second < 64)
    (isThird : third < 64) (isFourth : fourth < 64) :
    ofDigits first second third fourth / 2 ^ 18 = first ∧
      ofDigits first second third fourth / 2 ^ 12 % 64 = second ∧
      ofDigits first second third fourth / 2 ^ 6 % 64 = third ∧
      ofDigits first second third fourth % 64 = fourth := by
  rw [ofDigits]
  omega

/-- The text of bytes is canonical. -/
theorem canonical_encode (bytes : List UInt8) : Canonical (encode bytes) := by
  induction bytes using encode.induct with
  | case1 => exact .empty
  | case2 a =>
    apply Canonical.one (leading_lt a 0 0) (Nat.mod_lt _ (by decide))
    rw [number]
    show (a.toNat * 2 ^ 16 + 0 * 2 ^ 8 + 0) / 2 ^ 12 % 64 % 16 = 0
    omega
  | case3 a b =>
    apply Canonical.two (leading_lt a b 0) (Nat.mod_lt _ (by decide)) (Nat.mod_lt _ (by decide))
    rw [number]
    show (a.toNat * 2 ^ 16 + b.toNat * 2 ^ 8 + 0) / 2 ^ 6 % 64 % 4 = 0
    omega
  | case4 a b c rest inductionHypothesis =>
    exact .group (leading_lt a b c) (Nat.mod_lt _ (by decide)) (Nat.mod_lt _ (by decide))
      (Nat.mod_lt _ (by decide)) inductionHypothesis

/-- The canonical texts are those of bytes. -/
theorem canonical_iff (text : List UInt8) : Canonical text ↔ ∃ bytes, text = encode bytes := by
  constructor
  · intro canonical
    induction canonical with
    | empty => exact ⟨[], rfl⟩
    | @one first second isFirst isSecond zeros =>
      have whole := @number_bytesOf first second 0 0 isFirst isSecond (by decide) (by decide)
      obtain ⟨firstDigit, secondDigit, -, -⟩ :=
        @digits_ofDigits first second 0 0 isSecond (by decide) (by decide)
      have last : (bytesOf first second 0 0).2.1 = 0 ∧ (bytesOf first second 0 0).2.2 = 0 := by
        have middle : ofDigits first second 0 0 / 2 ^ 8 % 256 = 0 := by
          rw [ofDigits]
          omega
        have low : ofDigits first second 0 0 % 256 = 0 := by
          rw [ofDigits]
          omega
        exact ⟨congrArg UInt8.ofNat middle, congrArg UInt8.ofNat low⟩
      rw [last.1, last.2] at whole
      refine ⟨[(bytesOf first second 0 0).1], ?_⟩
      rw [encode, whole, firstDigit, secondDigit]
    | @two first second third isFirst isSecond isThird zeros =>
      have whole := @number_bytesOf first second third 0 isFirst isSecond isThird (by decide)
      obtain ⟨firstDigit, secondDigit, thirdDigit, -⟩ :=
        @digits_ofDigits first second third 0 isSecond isThird (by decide)
      have last : (bytesOf first second third 0).2.2 = 0 := by
        have low : ofDigits first second third 0 % 256 = 0 := by
          rw [ofDigits]
          omega
        exact congrArg UInt8.ofNat low
      rw [last] at whole
      refine ⟨[(bytesOf first second third 0).1, (bytesOf first second third 0).2.1], ?_⟩
      rw [encode, whole, firstDigit, secondDigit, thirdDigit]
    | @group first second third fourth rest isFirst isSecond isThird isFourth others
        inductionHypothesis =>
      obtain ⟨bytes, rfl⟩ := inductionHypothesis
      have whole := number_bytesOf isFirst isSecond isThird isFourth
      obtain ⟨firstDigit, secondDigit, thirdDigit, fourthDigit⟩ :=
        @digits_ofDigits first second third fourth isSecond isThird isFourth
      refine ⟨(bytesOf first second third fourth).1 :: (bytesOf first second third fourth).2.1 ::
        (bytesOf first second third fourth).2.2 :: bytes, ?_⟩
      rw [encode, whole, firstDigit, secondDigit, thirdDigit, fourthDigit]
      rfl
  · rintro ⟨bytes, rfl⟩
    exact canonical_encode bytes

end Foundation.Base64

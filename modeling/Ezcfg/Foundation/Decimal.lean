import Mathlib.Data.List.TakeWhile
import Mathlib.Algebra.Group.Nat.Defs

/-!
# Decimal numbers

A number is printed with its decimal digits and no leading zeros. The digits of a
printed number are all digits, their number is the number of divisions by ten until
nothing is left, and reading them gives the number back.
-/

namespace Foundation.Decimal

/-- The digits of ASCII. -/
def isDigit (byte : UInt8) : Bool := 0x30 ≤ byte && byte ≤ 0x39

/-- The digit of a number below ten. -/
def digit (n : Nat) : UInt8 := UInt8.ofNat (0x30 + n)

/-- The digits of a number, with a bound on how many there are. -/
def digitsUpTo : Nat → Nat → List UInt8
  | 0, _ => []
  | fuel + 1, n => (if n < 10 then [] else digitsUpTo fuel (n / 10)) ++ [digit (n % 10)]

/-- The decimal digits of a number. -/
def decimal (n : Nat) : List UInt8 := digitsUpTo (n + 1) n

/-- How often a number can be divided by ten, at least once, with a bound. -/
def countUpTo : Nat → Nat → Nat
  | 0, _ => 0
  | fuel + 1, n => 1 + if n < 10 then 0 else countUpTo fuel (n / 10)

/-- How many decimal digits a number has. -/
def countDigits (n : Nat) : Nat := countUpTo (n + 1) n

/-- The number that a digit stands for. -/
def digitValue (byte : UInt8) : Nat := byte.toNat - 0x30

/-- The number that digits stand for. -/
def readDigits (digits : List UInt8) : Nat :=
  digits.foldl (fun value byte => 10 * value + digitValue byte) 0

/-- The value of a digit. -/
theorem digit_toNat {n : Nat} (small : n < 10) : (digit n).toNat = 0x30 + n := by
  rw [digit, UInt8.toNat_ofNat']
  omega

/-- The number that a digit stands for. -/
theorem digitValue_digit {n : Nat} (small : n < 10) : digitValue (digit n) = n := by
  rw [digitValue, digit_toNat small]
  omega

/-- Digits are digits. -/
theorem isDigit_digit {n : Nat} (small : n < 10) : isDigit (digit n) := by
  have value := digit_toNat small
  simp only [isDigit, Bool.and_eq_true, decide_eq_true_eq, UInt8.le_iff_toNat_le, value]
  constructor
  · show 0x30 ≤ 0x30 + n
    omega
  · show 0x30 + n ≤ 0x39
    omega

/-- All bytes of a printed number are digits. -/
theorem digitsUpTo_isDigit (fuel n : Nat) : ∀ byte ∈ digitsUpTo fuel n, isDigit byte := by
  induction fuel generalizing n with
  | zero => simp [digitsUpTo]
  | succ fuel inductionHypothesis =>
    intro byte member
    rw [digitsUpTo, List.mem_append, List.mem_singleton] at member
    rcases member with inside | rfl
    · split at inside
      · cases inside
      · exact inductionHypothesis _ byte inside
    · apply isDigit_digit
      omega

/-- All bytes of a printed number are digits. -/
theorem decimal_isDigit (n : Nat) : ∀ byte ∈ decimal n, isDigit byte := digitsUpTo_isDigit _ n

/-- As many divisions as digits. -/
theorem countUpTo_eq (fuel n : Nat) : countUpTo fuel n = (digitsUpTo fuel n).length := by
  induction fuel generalizing n with
  | zero => rfl
  | succ fuel inductionHypothesis =>
    rw [countUpTo, digitsUpTo, List.length_append, List.length_singleton, Nat.add_comm]
    split
    · rfl
    · rw [inductionHypothesis]

/-- A printed number is as long as it has digits. -/
theorem decimal_length (n : Nat) : (decimal n).length = countDigits n := (countUpTo_eq _ n).symm

/-- A number below a power of ten has not more digits than the exponent. -/
theorem digitsUpTo_length_le (fuel n k : Nat) (small : n < 10 ^ (k + 1)) :
    (digitsUpTo fuel n).length ≤ k + 1 := by
  induction k generalizing fuel n with
  | zero =>
    cases fuel with
    | zero => exact Nat.zero_le _
    | succ fuel =>
      have one : n < 10 := small
      rw [digitsUpTo, if_pos one]
      exact Nat.le_refl _
  | succ k inductionHypothesis =>
    cases fuel with
    | zero => exact Nat.zero_le _
    | succ fuel =>
      have shorter : n / 10 < 10 ^ (k + 1) := by
        rw [Nat.div_lt_iff_lt_mul (by decide), ← Nat.pow_succ]
        exact small
      rw [digitsUpTo, List.length_append, List.length_singleton]
      split
      · exact Nat.succ_le_succ (Nat.zero_le _)
      · exact Nat.succ_le_succ (inductionHypothesis fuel (n / 10) shorter)

/-- A number below a power of ten has not more digits than the exponent. -/
theorem decimal_length_le {n k : Nat} (small : n < 10 ^ (k + 1)) :
    (decimal n).length ≤ k + 1 := digitsUpTo_length_le (n + 1) n k small

/-- A printed number is not empty. -/
theorem decimal_ne_nil (n : Nat) : decimal n ≠ [] := by
  simp [decimal, digitsUpTo]

/-- Reading the digits printed gives the number, when the bound lets all be printed. -/
theorem readDigits_digitsUpTo (fuel n : Nat) (enough : n < fuel) :
    readDigits (digitsUpTo fuel n) = n := by
  induction fuel generalizing n with
  | zero => cases enough
  | succ fuel inductionHypothesis =>
    have small : n % 10 < 10 := by omega
    have last := digitValue_digit small
    rw [digitsUpTo, readDigits, List.foldl_append]
    split
    · simp only [List.foldl_nil, List.foldl_cons, last]
      omega
    · have front : readDigits (digitsUpTo fuel (n / 10)) = n / 10 :=
        inductionHypothesis (n / 10) (by omega)
      rw [readDigits] at front
      simp only [front, List.foldl_nil, List.foldl_cons, last]
      omega

/-- Reading a printed number gives it back. -/
theorem readDigits_decimal (n : Nat) : readDigits (decimal n) = n :=
  readDigits_digitsUpTo (n + 1) n (Nat.lt_succ_self n)

/-- The digits in front of a byte that is none are taken together. -/
theorem takeWhile_decimal (n : Nat) (rest : List UInt8)
    (stops : rest.head?.all (fun byte => !isDigit byte)) :
    (decimal n ++ rest).takeWhile isDigit = decimal n ∧
      (decimal n ++ rest).dropWhile isDigit = rest := by
  have digits := decimal_isDigit n
  have outside : rest.takeWhile isDigit = [] ∧ rest.dropWhile isDigit = rest := by
    cases rest with
    | nil => exact ⟨rfl, rfl⟩
    | cons byte rest =>
      have other : isDigit byte = false := by simpa using stops
      simp [other]
  rw [List.takeWhile_append_of_pos digits, List.dropWhile_append_of_pos digits, outside.1,
    outside.2, List.append_nil]
  exact ⟨rfl, rfl⟩

/-- A number with three digits has three digits. -/
theorem countDigits_three {n : Nat} (low : 100 ≤ n) (high : n < 1000) : countDigits n = 3 := by
  obtain ⟨fuel, rfl⟩ := Nat.exists_eq_add_of_le low
  rw [countDigits, show 100 + fuel + 1 = (98 + fuel) + 3 by omega]
  simp only [countUpTo]
  rw [if_neg (by omega), if_neg (by omega), if_pos (by omega)]

end Foundation.Decimal

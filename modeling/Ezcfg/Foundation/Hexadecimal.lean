import Ezcfg.Foundation.Chunked

/-!
# Hexadecimal numbers of a width

A number is printed with small hexadecimal digits, and with zeros in front up to a width. One that
needs no more digits takes exactly the width, and is read back from them.
-/

namespace Foundation.Hexadecimal

open Chunked (hexValue hexNumber)

/-- The digit of a number below sixteen. -/
def digit (n : Nat) : UInt8 := if n < 10 then UInt8.ofNat (0x30 + n) else UInt8.ofNat (0x57 + n)

/-- The digits of a number, with a bound on how many there are. -/
def digitsUpTo : Nat → Nat → List UInt8
  | 0, _ => []
  | fuel + 1, n => (if n < 16 then [] else digitsUpTo fuel (n / 16)) ++ [digit (n % 16)]

/-- The hexadecimal digits of a number. -/
def hexadecimal (n : Nat) : List UInt8 := digitsUpTo (n + 1) n

/-- The digits with zeros in front up to a width, as "%0*x" prints them. -/
def padded (width n : Nat) : List UInt8 :=
  List.replicate (width - (hexadecimal n).length) 0x30 ++ hexadecimal n

/-- The last digits of a number. -/
def lastDigits : Nat → Nat → List UInt8
  | 0, _ => []
  | width + 1, n => lastDigits width (n / 16) ++ [digit (n % 16)]

/-- There are as many as wanted. -/
theorem lastDigits_length (width n : Nat) : (lastDigits width n).length = width := by
  induction width generalizing n with
  | zero => rfl
  | succ width inductionHypothesis =>
    rw [lastDigits, List.length_append, inductionHypothesis, List.length_singleton]

/-- The number that a digit stands for. -/
theorem hexValue_digit {n : Nat} (small : n < 16) : hexValue (digit n) = n := by
  have checked : ∀ d : Fin 16, hexValue (digit d) = d := by decide
  exact checked ⟨n, small⟩

/-- The number that the last digits stand for. -/
theorem hexNumber_lastDigits (width n : Nat) : hexNumber (lastDigits width n) = n % 16 ^ width := by
  induction width generalizing n with
  | zero => rw [Nat.pow_zero, Nat.mod_one, lastDigits, hexNumber, List.foldl_nil]
  | succ width inductionHypothesis =>
    have before := inductionHypothesis (n / 16)
    rw [hexNumber] at before
    rw [lastDigits, hexNumber, List.foldl_append, before, List.foldl_cons, List.foldl_nil,
      hexValue_digit (Nat.mod_lt n (by decide)), Nat.pow_succ, Nat.mul_comm (16 ^ width) 16,
      Nat.mod_mul, Nat.add_comm]

/-- The last digits of zero are zeros. -/
theorem lastDigits_zero (width : Nat) : lastDigits width 0 = List.replicate width 0x30 := by
  induction width with
  | zero => rfl
  | succ width inductionHypothesis =>
    rw [lastDigits, Nat.zero_div, inductionHypothesis, List.replicate_succ']
    rfl

/-- A number that needs no more digits is filled up with zeros. -/
theorem replicate_digitsUpTo (width fuel n : Nat) (positive : 0 < width) (small : n < 16 ^ width)
    (enough : n < fuel) :
    List.replicate (width - (digitsUpTo fuel n).length) 0x30 ++ digitsUpTo fuel n =
      lastDigits width n := by
  induction width generalizing fuel n with
  | zero => cases positive
  | succ width inductionHypothesis =>
    obtain _ | fuel := fuel
    · cases enough
    · rw [digitsUpTo, lastDigits]
      by_cases single : n < 16
      · rw [if_pos single, List.nil_append, List.length_singleton, Nat.add_sub_cancel,
          Nat.div_eq_of_lt single, lastDigits_zero]
      · have quotient : n / 16 < 16 ^ width := by
          rw [Nat.pow_succ] at small
          exact Nat.div_lt_of_lt_mul (by omega)
        have wide : 0 < width := by
          obtain _ | width := width
          · rw [Nat.pow_zero] at quotient
            omega
          · exact Nat.succ_pos width
        rw [if_neg single, List.length_append, List.length_singleton, Nat.add_sub_add_right,
          ← List.append_assoc, inductionHypothesis fuel (n / 16) wide quotient (by omega)]

/-- A number is printed by its last digits, where it needs no more. -/
theorem padded_eq {width n : Nat} (positive : 0 < width) (small : n < 16 ^ width) :
    padded width n = lastDigits width n :=
  replicate_digitsUpTo width (n + 1) n positive small (Nat.lt_succ_self n)

/-- It takes the width. -/
theorem padded_length {width n : Nat} (positive : 0 < width) (small : n < 16 ^ width) :
    (padded width n).length = width := by
  rw [padded_eq positive small, lastDigits_length]

/-- It is read back. -/
theorem hexNumber_padded {width n : Nat} (positive : 0 < width) (small : n < 16 ^ width) :
    hexNumber (padded width n) = n := by
  rw [padded_eq positive small, hexNumber_lastDigits, Nat.mod_eq_of_lt small]

end Foundation.Hexadecimal

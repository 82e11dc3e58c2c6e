import Mathlib.Algebra.Group.Nat.Defs
import Mathlib.Data.List.Basic

/-!
# Cyclic redundancy checks

A message is divided bit by bit. The remainder is kept in reflected form: the bit that
comes next meets the lowest bit of the remainder, and the polynomial is taken off when the
two differ. Division is linear, so a block of bits that is no longer than the remainder
can be taken in at once: what the lowest places of the remainder and the block come to is
divided alone, as it would be looked up in a table, and the other places move down.
-/

namespace Foundation.Crc

variable {w : Nat}

/-- The next bit of the message. -/
def shiftIn (polynomial remainder : BitVec w) (bit : Bool) : BitVec w :=
  if remainder.getLsbD 0 ^^ bit then (remainder >>> 1) ^^^ polynomial else remainder >>> 1

/-- The bits of a message, one after the other. -/
def divide (polynomial remainder : BitVec w) (bits : List Bool) : BitVec w :=
  bits.foldl (shiftIn polynomial) remainder

/-- As many zeros. -/
def zeros (count : Nat) : List Bool := List.replicate count false

/-- The number of a block of bits, the lowest first. -/
def number : List Bool → Nat
  | [] => 0
  | bit :: bits => bit.toNat + 2 * number bits

/-- The bits of a byte, the lowest first. -/
def byteBits (byte : UInt8) : List Bool := (List.range 8).map byte.toBitVec.getLsbD

/-- The CRC-32 of IEEE 802.3: the bytes are sent with their lowest bits first, and the
remainder is inverted at the start and at the end. -/
def ieee (data : List UInt8) : BitVec 32 :=
  divide (0x04c11db7#32).reverse (BitVec.allOnes 32) (data.flatMap byteBits) ^^^ BitVec.allOnes 32

/-- Bits that come later are divided behind the others. -/
theorem divide_append (polynomial remainder : BitVec w) (bits others : List Bool) :
    divide polynomial remainder (bits ++ others) =
      divide polynomial (divide polynomial remainder bits) others := List.foldl_append

/-! ## Linearity -/

/-- What two remainders have in common falls out. -/
theorem xor_cancel (a b common : BitVec w) : (a ^^^ common) ^^^ (b ^^^ common) = a ^^^ b := by
  rw [BitVec.xor_assoc, BitVec.xor_comm b, ← BitVec.xor_assoc common, BitVec.xor_self,
    BitVec.zero_xor]

/-- The next bits of two messages can be taken together. -/
theorem shiftIn_xor (polynomial a b : BitVec w) (p q : Bool) :
    shiftIn polynomial (a ^^^ b) (p ^^ q) = shiftIn polynomial a p ^^^ shiftIn polynomial b q := by
  have bits : ((a ^^^ b).getLsbD 0 ^^ (p ^^ q)) =
      ((a.getLsbD 0 ^^ p) ^^ (b.getLsbD 0 ^^ q)) := by
    rw [BitVec.getLsbD_xor]
    cases a.getLsbD 0 <;> cases b.getLsbD 0 <;> cases p <;> cases q <;> rfl
  simp only [shiftIn, bits, BitVec.ushiftRight_xor_distrib]
  cases a.getLsbD 0 ^^ p <;> cases b.getLsbD 0 ^^ q
  · rfl
  · exact BitVec.xor_assoc _ _ _
  · show a >>> 1 ^^^ b >>> 1 ^^^ polynomial = a >>> 1 ^^^ polynomial ^^^ b >>> 1
    rw [BitVec.xor_assoc, BitVec.xor_comm (b >>> 1), ← BitVec.xor_assoc]
  · exact (xor_cancel _ _ _).symm

/-- So can zeros behind two remainders. -/
theorem divide_zeros_xor (polynomial a b : BitVec w) (count : Nat) :
    divide polynomial (a ^^^ b) (zeros count) =
      divide polynomial a (zeros count) ^^^ divide polynomial b (zeros count) := by
  induction count generalizing a b with
  | zero => rfl
  | succ count inductionHypothesis =>
    have first := shiftIn_xor polynomial a b false false
    rw [Bool.xor_self] at first
    simp only [divide, zeros, List.replicate_succ, List.foldl_cons] at inductionHypothesis ⊢
    rw [first, inductionHypothesis]

/-! ## Taking in a block -/

/-- The number of a block has as many places. -/
theorem number_lt (bits : List Bool) : number bits < 2 ^ bits.length := by
  induction bits with
  | nil => exact Nat.one_pos
  | cons bit bits inductionHypothesis =>
    have first := Bool.toNat_le bit
    rw [number, List.length_cons, Nat.pow_succ]
    omega

/-- Where it fits, the first bit of a block is that of its number, and it is shifted out. -/
theorem shiftIn_number (polynomial : BitVec w) (bit : Bool) (bits : List Bool)
    (fits : bits.length < w) :
    shiftIn polynomial (BitVec.ofNat w (number (bit :: bits))) bit =
      BitVec.ofNat w (number bits) := by
  have small : number (bit :: bits) < 2 ^ w :=
    Nat.lt_of_lt_of_le (number_lt (bit :: bits)) (Nat.pow_le_pow_right (by decide) fits)
  have first : (BitVec.ofNat w (number (bit :: bits))).getLsbD 0 = bit := by
    rw [BitVec.getLsbD_ofNat, number]
    cases bit
    · simp
    · simp
      omega
  have others : BitVec.ofNat w (number (bit :: bits)) >>> 1 = BitVec.ofNat w (number bits) := by
    apply BitVec.eq_of_toNat_eq
    have place := Bool.toNat_le bit
    rw [BitVec.toNat_ushiftRight, BitVec.toNat_ofNat, BitVec.toNat_ofNat, Nat.mod_eq_of_lt small,
      Nat.shiftRight_eq_div_pow]
    rw [number] at small ⊢
    rw [Nat.mod_eq_of_lt (by omega)]
    omega
  rw [shiftIn, first, Bool.xor_self, others]
  rfl

/-- A block can be put on the remainder, with zeros in its place. -/
theorem divide_number (polynomial remainder : BitVec w) (bits : List Bool)
    (fits : bits.length ≤ w) :
    divide polynomial remainder bits =
      divide polynomial (remainder ^^^ BitVec.ofNat w (number bits)) (zeros bits.length) := by
  induction bits generalizing remainder with
  | nil =>
    show remainder = remainder ^^^ BitVec.ofNat w 0
    rw [BitVec.xor_zero]
  | cons bit bits inductionHypothesis =>
    have less : bits.length < w := fits
    have later := inductionHypothesis (shiftIn polynomial remainder bit) (Nat.le_of_lt less)
    have both := shiftIn_xor polynomial remainder (BitVec.ofNat w (number (bit :: bits))) bit bit
    rw [Bool.xor_self, shiftIn_number polynomial bit bits less] at both
    calc divide polynomial remainder (bit :: bits)
        = divide polynomial (shiftIn polynomial remainder bit) bits := rfl
      _ = divide polynomial (shiftIn polynomial remainder bit ^^^ BitVec.ofNat w (number bits))
            (zeros bits.length) := later
      _ = divide polynomial (shiftIn polynomial
            (remainder ^^^ BitVec.ofNat w (number (bit :: bits))) false) (zeros bits.length) := by
          rw [both]
      _ = _ := rfl

/-- Zeros in the lowest places are shifted out as they are. -/
theorem divide_clear (polynomial remainder : BitVec w) (count : Nat)
    (clear : ∀ place < count, remainder.getLsbD place = false) :
    divide polynomial remainder (zeros count) = remainder >>> count := by
  induction count generalizing remainder with
  | zero => exact (BitVec.ushiftRight_zero remainder).symm
  | succ count inductionHypothesis =>
    have first : shiftIn polynomial remainder false = remainder >>> 1 := by
      rw [shiftIn, clear 0 (Nat.succ_pos count)]
      rfl
    have others : ∀ place < count, (remainder >>> 1).getLsbD place = false := by
      intro place below
      rw [BitVec.getLsbD_ushiftRight]
      apply clear
      omega
    calc divide polynomial remainder (zeros (count + 1))
        = divide polynomial (shiftIn polynomial remainder false) (zeros count) := rfl
      _ = (remainder >>> 1) >>> count := by rw [first, inductionHypothesis _ others]
      _ = remainder >>> (count + 1) := by rw [← BitVec.shiftRight_add, Nat.add_comm]

/-- The places of the mask for a block. -/
theorem getLsbD_mask (count place : Nat) :
    (BitVec.ofNat w (2 ^ count - 1)).getLsbD place =
      (decide (place < w) && decide (place < count)) := by
  rw [BitVec.getLsbD_ofNat, Nat.testBit_two_pow_sub_one]

/-- The places of a block and the others. -/
theorem split_mask (remainder : BitVec w) (count : Nat) :
    (remainder &&& BitVec.ofNat w (2 ^ count - 1)) ^^^
      (remainder &&& ~~~BitVec.ofNat w (2 ^ count - 1)) = remainder := by
  ext place
  simp only [BitVec.getElem_xor, BitVec.getElem_and, BitVec.getElem_not]
  cases remainder[place] <;> cases (BitVec.ofNat w (2 ^ count - 1))[place] <;> rfl

/-- A block goes in at once: its places are divided alone, the others move down. -/
theorem divide_block (polynomial remainder : BitVec w) (bits : List Bool)
    (fits : bits.length ≤ w) :
    divide polynomial remainder bits =
      remainder >>> bits.length ^^^
        divide polynomial ((remainder ^^^ BitVec.ofNat w (number bits)) &&&
          BitVec.ofNat w (2 ^ bits.length - 1)) (zeros bits.length) := by
  rw [divide_number polynomial remainder bits fits]
  generalize together : remainder ^^^ BitVec.ofNat w (number bits) = state
  have clear : ∀ place < bits.length,
      (state &&& ~~~BitVec.ofNat w (2 ^ bits.length - 1)).getLsbD place = false := by
    intro place below
    rw [BitVec.getLsbD_and, BitVec.getLsbD_not, getLsbD_mask, decide_eq_true below]
    cases decide (place < w) <;> simp
  have moved : (state &&& ~~~BitVec.ofNat w (2 ^ bits.length - 1)) >>> bits.length =
      remainder >>> bits.length := by
    have gone : BitVec.ofNat w (number bits) >>> bits.length = 0#w := by
      apply BitVec.eq_of_toNat_eq
      rw [BitVec.toNat_ushiftRight, BitVec.toNat_ofNat, Nat.shiftRight_eq_div_pow]
      have small := Nat.lt_of_le_of_lt (Nat.mod_le (number bits) (2 ^ w)) (number_lt bits)
      rw [Nat.div_eq_of_lt small]
      exact (BitVec.toNat_ofNat 0 w).symm
    have kept : state >>> bits.length = remainder >>> bits.length := by
      rw [← together, BitVec.ushiftRight_xor_distrib, gone, BitVec.xor_zero]
    rw [← kept]
    apply BitVec.eq_of_getLsbD_eq
    intro place inside
    have above : ¬ bits.length + place < bits.length := by omega
    rw [BitVec.getLsbD_ushiftRight, BitVec.getLsbD_ushiftRight, BitVec.getLsbD_and,
      BitVec.getLsbD_not, getLsbD_mask, decide_eq_false above]
    by_cases below : bits.length + place < w
    · simp [below]
    · simp [below, BitVec.getLsbD_of_ge state _ (Nat.le_of_not_lt below)]
  calc divide polynomial state (zeros bits.length)
      = divide polynomial (state &&& BitVec.ofNat w (2 ^ bits.length - 1)) (zeros bits.length) ^^^
          divide polynomial (state &&& ~~~BitVec.ofNat w (2 ^ bits.length - 1))
            (zeros bits.length) := by
        rw [← divide_zeros_xor, split_mask]
    _ = _ := by
        rw [divide_clear polynomial _ _ clear, moved, BitVec.xor_comm]

end Foundation.Crc

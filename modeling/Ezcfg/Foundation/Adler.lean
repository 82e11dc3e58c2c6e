import Mathlib.Data.List.Basic
import Mathlib.Algebra.Group.Nat.Defs

/-!
# Sums of sums

A checksum adds up the bytes, and adds up the sums on the way, both modulo a number. The
reduction may be put off: the sums of a whole block are reduced to the same as when each
byte is. The sums only grow, the first by a byte and the second by the first, so that
those of a block are bounded by its length.
-/

namespace Foundation.Adler

/-- The next byte. -/
def add (sums : Nat × Nat) (byte : UInt8) : Nat × Nat :=
  (sums.1 + byte.toNat, sums.2 + (sums.1 + byte.toNat))

/-- Both sums modulo a number. -/
def reduce (modulus : Nat) (sums : Nat × Nat) : Nat × Nat := (sums.1 % modulus, sums.2 % modulus)

/-- The next byte, with the sums reduced at once. -/
def step (modulus : Nat) (sums : Nat × Nat) (byte : UInt8) : Nat × Nat :=
  let a := (sums.1 + byte.toNat) % modulus
  (a, (sums.2 + a) % modulus)

/-- The sums of a text that are reduced after every byte. -/
def sums (modulus : Nat) (data : List UInt8) : Nat × Nat := data.foldl (step modulus) (1, 0)

/-- The checksum of a text: the second sum in front of the first. -/
def checksum (modulus : Nat) (data : List UInt8) : Nat :=
  2 ^ 16 * (sums modulus data).2 + (sums modulus data).1

/-- A byte may be added in front of the reduction. -/
theorem step_reduce (modulus : Nat) (sums : Nat × Nat) (byte : UInt8) :
    step modulus (reduce modulus sums) byte = reduce modulus (add sums byte) := by
  apply Prod.ext
  · show (sums.1 % modulus + byte.toNat) % modulus = (sums.1 + byte.toNat) % modulus
    exact Nat.mod_add_mod _ _ _
  · show (sums.2 % modulus + (sums.1 % modulus + byte.toNat) % modulus) % modulus =
      (sums.2 + (sums.1 + byte.toNat)) % modulus
    rw [Nat.mod_add_mod, Nat.add_mod_mod, ← Nat.add_assoc, ← Nat.add_assoc, Nat.add_right_comm,
      Nat.add_mod_mod, Nat.add_right_comm]

/-- So may all bytes of a block. -/
theorem foldl_reduce (modulus : Nat) (block : List UInt8) (sums : Nat × Nat) :
    block.foldl (step modulus) (reduce modulus sums) = reduce modulus (block.foldl add sums) := by
  induction block generalizing sums with
  | nil => rfl
  | cons byte block inductionHypothesis =>
    rw [List.foldl_cons, List.foldl_cons, step_reduce, inductionHypothesis]

/-- The sums do not become less. -/
theorem le_foldl_add (block : List UInt8) (sums : Nat × Nat) :
    sums.1 ≤ (block.foldl add sums).1 ∧ sums.2 ≤ (block.foldl add sums).2 := by
  induction block generalizing sums with
  | nil => exact ⟨Nat.le_refl _, Nat.le_refl _⟩
  | cons byte block inductionHypothesis =>
    obtain ⟨first, second⟩ := inductionHypothesis (add sums byte)
    rw [List.foldl_cons]
    constructor
    · exact Nat.le_trans (Nat.le_add_right _ _) first
    · exact Nat.le_trans (Nat.le_add_right _ _) second

/-- The first sum grows by a byte for each place. -/
theorem foldl_add_first (block : List UInt8) (sums : Nat × Nat) :
    (block.foldl add sums).1 ≤ sums.1 + 255 * block.length := by
  induction block generalizing sums with
  | nil => exact Nat.le_refl _
  | cons byte block inductionHypothesis =>
    have later := inductionHypothesis (add sums byte)
    have small : byte.toNat < 256 := byte.toNat_lt
    simp only [add] at later
    rw [List.foldl_cons, List.length_cons]
    simp only [add]
    omega

/-- The second sum grows with the square of the length. -/
theorem foldl_add_second (block : List UInt8) (sums : Nat × Nat) :
    2 * (block.foldl add sums).2 ≤
      2 * sums.2 + 2 * (block.length * sums.1) + 255 * (block.length * (block.length + 1)) := by
  induction block generalizing sums with
  | nil => exact Nat.le_add_right _ _
  | cons byte block inductionHypothesis =>
    have later := inductionHypothesis (add sums byte)
    have small : byte.toNat ≤ 255 := Nat.le_of_lt_succ byte.toNat_lt
    have bytes : block.length * byte.toNat ≤ block.length * 255 := Nat.mul_le_mul_left _ small
    have square : (block.length + 1) * (block.length + 2) =
        block.length * (block.length + 1) + 2 * (block.length + 1) := by
      rw [Nat.mul_add, Nat.add_mul, Nat.one_mul, Nat.mul_add]
      omega
    have product := Nat.mul_add block.length sums.1 byte.toNat
    have front : (block.length + 1) * sums.1 = block.length * sums.1 + sums.1 := Nat.succ_mul _ _
    rw [List.foldl_cons, List.length_cons, front, square]
    rw [show (add sums byte).1 = sums.1 + byte.toNat by rfl,
      show (add sums byte).2 = sums.2 + (sums.1 + byte.toNat) by rfl, product] at later
    omega

end Foundation.Adler

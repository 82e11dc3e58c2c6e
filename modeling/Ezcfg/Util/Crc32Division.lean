import Ezcfg.Foundation.Crc
import Ezcfg.Util.Crc32

/-!
# The CRC-32 with a table is the CRC-32

An entry of the table is the remainder of its place, and a turn over the table takes in one
byte. The table is made for the unreflected polynomial, with both ends of each entry
reflected; its places are all checked.
-/

namespace Ezcfg.Util

open Foundation

/-- The polynomial of the code, in the order of the remainder. -/
abbrev reflectedPolynomial : BitVec 32 := crc32Polynomial.toBitVec.reverse

/-- An entry of the table is the remainder of its place. -/
theorem crc32Table_eq {i : UInt32} (inside : i.toNat < 256) :
    (crc32Table i).toBitVec = Crc.divide reflectedPolynomial i.toBitVec (Crc.zeros 8) := by
  have checked : ∀ place : Fin 256, (crc32Table (UInt32.ofNat place)).toBitVec =
      Crc.divide reflectedPolynomial (BitVec.ofNat 32 place) (Crc.zeros 8) := by
    decide +kernel
  have entry := checked ⟨i.toNat, inside⟩
  have same : BitVec.ofNat 32 i.toNat = i.toBitVec := by
    rw [← UInt32.toNat_toBitVec, BitVec.ofNat_toNat, BitVec.setWidth_eq]
  rw [UInt32.ofNat_toNat] at entry
  rw [entry, same]

/-- The bits of a byte are those of its number. -/
theorem number_byteBits (byte : UInt8) : Crc.number (Crc.byteBits byte) = byte.toNat := by
  have checked : ∀ n : Fin 256, Crc.number (Crc.byteBits (UInt8.ofNat n)) = n := by
    decide +kernel
  have all := checked ⟨byte.toNat, byte.toNat_lt⟩
  rwa [UInt8.ofNat_toNat] at all

/-- One turn over the table takes in one byte. -/
theorem crc32_turn (crc : UInt32) (byte : UInt8) :
    ((crc >>> 8) ^^^ crc32Table ((crc &&& 0xff) ^^^ byte.toUInt32)).toBitVec =
      Crc.divide reflectedPolynomial crc.toBitVec (Crc.byteBits byte) := by
  have count : (Crc.byteBits byte).length = 8 := rfl
  have place : ((crc &&& 0xff) ^^^ byte.toUInt32).toBitVec =
      (crc.toBitVec ^^^ BitVec.ofNat 32 byte.toNat) &&& BitVec.ofNat 32 (2 ^ 8 - 1) := by
    have short : byte.toNat < 2 ^ 32 := Nat.lt_trans byte.toNat_lt (by decide)
    have low : byte.toNat &&& 255 = byte.toNat :=
      (Nat.and_two_pow_sub_one_eq_mod _ 8).trans (Nat.mod_eq_of_lt byte.toNat_lt)
    apply BitVec.eq_of_toNat_eq
    rw [BitVec.toNat_and, BitVec.toNat_xor, BitVec.toNat_ofNat, Nat.mod_eq_of_lt short,
      Nat.and_xor_distrib_right]
    show (crc.toNat &&& 255) ^^^ byte.toNat = (crc.toNat &&& 255) ^^^ (byte.toNat &&& 255)
    rw [low]
  have inside : ((crc &&& 0xff) ^^^ byte.toUInt32).toNat < 256 := by
    rw [← UInt32.toNat_toBitVec, place, BitVec.toNat_and]
    exact Nat.lt_succ_of_le Nat.and_le_right
  rw [Crc.divide_block reflectedPolynomial crc.toBitVec _ (by rw [count]; decide), count,
    number_byteBits, ← place, ← crc32Table_eq inside]
  rfl

/-- The loop over the data divides its bits. -/
theorem crc32Calc_eq (crc : UInt32) (data : List UInt8) :
    (crc32Calc crc data).toBitVec =
      Crc.divide reflectedPolynomial crc.toBitVec (data.flatMap Crc.byteBits) := by
  induction data generalizing crc with
  | nil => rfl
  | cons byte data inductionHypothesis =>
    rw [List.flatMap_cons, Crc.divide_append, ← crc32_turn]
    exact inductionHypothesis _

/-- The checksum is the CRC-32 of IEEE 802.3. The source counts the bytes with an int, so
this is about fewer than 2^31 of them. -/
theorem crc32_eq_ieee (data : List UInt8) : (crc32 data).toBitVec = Crc.ieee data := by
  rw [crc32, UInt32.toBitVec_xor, crc32Calc_eq]
  rfl

end Ezcfg.Util

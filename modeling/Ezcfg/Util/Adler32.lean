import Ezcfg.Foundation.Adler

/-!
# Adler-32

The sums are reduced once for each block. Whether one of them went over what a `uint32_t`
can hold is kept in `wrapped`; the source has no such variable.
-/

namespace Ezcfg.Util

open Foundation

/-- `MOD_ADLER` -/
def modAdler : UInt32 := 65521

/-- The bytes between two reductions, at most. -/
def adlerBlock : Nat := 5550

/-- The two sums. -/
structure AdlerSums where
  a : UInt32
  b : UInt32
  wrapped : Bool

/-- The body of the inner loop. -/
def adlerTurn (sums : AdlerSums) (byte : UInt8) : AdlerSums :=
  let a := sums.a + byte.toUInt32
  { a := a
    b := sums.b + a
    wrapped := sums.wrapped || 2 ^ 32 ≤ sums.a.toNat + byte.toNat ||
      2 ^ 32 ≤ sums.b.toNat + a.toNat }

/-- The outer loop: one block after the other. -/
def adlerBlocks (sums : AdlerSums) (data : List UInt8) : AdlerSums :=
  if 0 < data.length then
    let sums := (data.take adlerBlock).foldl adlerTurn sums
    adlerBlocks { sums with a := sums.a % modAdler, b := sums.b % modAdler } (data.drop adlerBlock)
  else sums
termination_by data.length
decreasing_by
  rw [List.length_drop, adlerBlock]
  omega

/-- The sums of the data. -/
def adlerSums (data : List UInt8) : AdlerSums := adlerBlocks ⟨1, 0, false⟩ data

/-- `ezcfg_util_adler32` -/
def adler32 (data : List UInt8) : UInt32 :=
  let sums := adlerSums data
  (sums.b <<< 16) ||| sums.a

/-- The sums as numbers. -/
def AdlerSums.values (sums : AdlerSums) : Nat × Nat := (sums.a.toNat, sums.b.toNat)

/-- A byte is added without overflow when the sums stay small. -/
theorem adlerTurn_exact {sums : AdlerSums} {byte : UInt8}
    (first : (Adler.add sums.values byte).1 < 2 ^ 32)
    (second : (Adler.add sums.values byte).2 < 2 ^ 32) :
    (adlerTurn sums byte).values = Adler.add sums.values byte ∧
      (adlerTurn sums byte).wrapped = sums.wrapped := by
  have a : (sums.a + byte.toUInt32).toNat = sums.a.toNat + byte.toNat := by
    rw [UInt32.toNat_add, UInt8.toNat_toUInt32]
    exact Nat.mod_eq_of_lt first
  have b : (sums.b + (sums.a + byte.toUInt32)).toNat =
      sums.b.toNat + (sums.a.toNat + byte.toNat) := by
    rw [UInt32.toNat_add, a]
    exact Nat.mod_eq_of_lt second
  constructor
  · exact Prod.ext a b
  · have noFirst : ¬ 2 ^ 32 ≤ sums.a.toNat + byte.toNat := Nat.not_le_of_lt first
    have noSecond : ¬ 2 ^ 32 ≤ sums.b.toNat + (sums.a.toNat + byte.toNat) := Nat.not_le_of_lt second
    show (sums.wrapped || decide (2 ^ 32 ≤ sums.a.toNat + byte.toNat) ||
      decide (2 ^ 32 ≤ sums.b.toNat + (sums.a + byte.toUInt32).toNat)) = sums.wrapped
    rw [a, decide_eq_false noFirst, decide_eq_false noSecond, Bool.or_false, Bool.or_false]

/-- A block is added without overflow when its sums are small at the end. -/
theorem adlerTurns_exact (block : List UInt8) {sums : AdlerSums}
    (first : (block.foldl Adler.add sums.values).1 < 2 ^ 32)
    (second : (block.foldl Adler.add sums.values).2 < 2 ^ 32) :
    (block.foldl adlerTurn sums).values = block.foldl Adler.add sums.values ∧
      (block.foldl adlerTurn sums).wrapped = sums.wrapped := by
  induction block generalizing sums with
  | nil => exact ⟨rfl, rfl⟩
  | cons byte block inductionHypothesis =>
    rw [List.foldl_cons] at first second
    obtain ⟨lessFirst, lessSecond⟩ := Adler.le_foldl_add block (Adler.add sums.values byte)
    obtain ⟨values, wrapped⟩ := adlerTurn_exact (Nat.lt_of_le_of_lt lessFirst first)
      (Nat.lt_of_le_of_lt lessSecond second)
    rw [← values] at first second
    obtain ⟨later, still⟩ := inductionHypothesis first second
    rw [List.foldl_cons, List.foldl_cons, ← values, ← wrapped]
    exact ⟨later, still⟩

/-- The largest block of the largest bytes, on the largest reduced sums, stays below 2^32. -/
theorem block_bounds {block : List UInt8} {sums : Nat × Nat} (short : block.length ≤ adlerBlock)
    (first : sums.1 < 65521) (second : sums.2 < 65521) :
    (block.foldl Adler.add sums).1 < 2 ^ 32 ∧ (block.foldl Adler.add sums).2 < 2 ^ 32 := by
  have length : block.length ≤ 5550 := short
  have linear := Adler.foldl_add_first block sums
  have quadratic := Adler.foldl_add_second block sums
  have carried : block.length * sums.1 ≤ 5550 * 65520 :=
    Nat.mul_le_mul length (Nat.le_of_lt_succ first)
  have square : block.length * (block.length + 1) ≤ 5550 * 5551 :=
    Nat.mul_le_mul length (Nat.succ_le_succ length)
  constructor
  · omega
  · omega

/-- The blocks are added without overflow, as if each byte were reduced. -/
theorem adlerBlocks_exact (sums : AdlerSums) (data : List UInt8)
    (first : sums.a.toNat < 65521) (second : sums.b.toNat < 65521) :
    (adlerBlocks sums data).values = data.foldl (Adler.step 65521) sums.values ∧
      (adlerBlocks sums data).wrapped = sums.wrapped := by
  induction sums, data using adlerBlocks.induct with
  | case1 sums data more block inductionHypothesis =>
    have short : (data.take adlerBlock).length ≤ adlerBlock := List.length_take_le _ _
    obtain ⟨smallFirst, smallSecond⟩ :=
      @block_bounds (data.take adlerBlock) sums.values short first second
    obtain ⟨values, wrapped⟩ := adlerTurns_exact (data.take adlerBlock) smallFirst smallSecond
    have modulus : modAdler.toNat = 65521 := rfl
    have firstReduced : (block.a % modAdler).toNat = block.a.toNat % 65521 := by
      rw [UInt32.toNat_mod, modulus]
    have secondReduced : (block.b % modAdler).toNat = block.b.toNat % 65521 := by
      rw [UInt32.toNat_mod, modulus]
    have reduced : (block.a.toNat % 65521, block.b.toNat % 65521) =
        (data.take adlerBlock).foldl (Adler.step 65521) sums.values := by
      have start : Adler.reduce 65521 sums.values = sums.values :=
        Prod.ext (Nat.mod_eq_of_lt first) (Nat.mod_eq_of_lt second)
      rw [← start, Adler.foldl_reduce, ← values]
      rfl
    obtain ⟨later, still⟩ := inductionHypothesis
      (by rw [firstReduced]; exact Nat.mod_lt _ (by decide))
      (by rw [secondReduced]; exact Nat.mod_lt _ (by decide))
    rw [adlerBlocks, if_pos more]
    constructor
    · rw [later, AdlerSums.values, firstReduced, secondReduced, reduced, ← List.foldl_append,
        List.take_append_drop]
    · exact still.trans wrapped
  | case2 sums data none =>
    have empty : data = [] := List.eq_nil_of_length_eq_zero (Nat.eq_zero_of_not_pos none)
    rw [adlerBlocks, if_neg none, empty]
    exact ⟨rfl, rfl⟩

/-- Reduced sums are less than the modulus. -/
theorem sums_lt (data : List UInt8) :
    (Adler.sums 65521 data).1 < 65521 ∧ (Adler.sums 65521 data).2 < 65521 := by
  have reduced := Adler.foldl_reduce 65521 data (1, 0)
  rw [Adler.sums, show ((1, 0) : Nat × Nat) = Adler.reduce 65521 (1, 0) by rfl, reduced]
  exact ⟨Nat.mod_lt _ (by decide), Nat.mod_lt _ (by decide)⟩

/-- The sums never overflow, and the checksum is the one that is reduced after every byte. -/
theorem adler32_eq_checksum (data : List UInt8) :
    (adlerSums data).wrapped = false ∧ (adler32 data).toNat = Adler.checksum 65521 data := by
  obtain ⟨values, wrapped⟩ := adlerBlocks_exact ⟨1, 0, false⟩ data (by decide) (by decide)
  have first : (adlerSums data).a.toNat = (Adler.sums 65521 data).1 := congrArg Prod.fst values
  have second : (adlerSums data).b.toNat = (Adler.sums 65521 data).2 := congrArg Prod.snd values
  obtain ⟨smallFirst, smallSecond⟩ := sums_lt data
  constructor
  · exact wrapped
  · have high : (adlerSums data).b.toNat <<< 16 < 2 ^ 32 := by
      rw [Nat.shiftLeft_eq, second]
      omega
    have shifted : ((adlerSums data).b <<< 16).toNat = 2 ^ 16 * (Adler.sums 65521 data).2 := by
      rw [UInt32.toNat_shiftLeft, ← second]
      show (adlerSums data).b.toNat <<< 16 % 2 ^ 32 = _
      rw [Nat.mod_eq_of_lt high, Nat.shiftLeft_eq, Nat.mul_comm]
    rw [adler32, UInt32.toNat_or, shifted, first, Adler.checksum]
    exact (Nat.two_pow_add_eq_or_of_lt (Nat.lt_trans smallFirst (by decide)) _).symm

end Ezcfg.Util

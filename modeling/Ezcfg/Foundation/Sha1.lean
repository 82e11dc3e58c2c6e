import Mathlib.Algebra.Group.Nat.Defs
import Mathlib.Data.List.Basic

/-!
# The secure hash SHA-1

A message is padded with one bit, zero bits and its length to a multiple of 64 bytes. Five
words are carried from block to block: each block is spread over eighty words, and eighty
rounds mix these into the five. The padding takes one block or two, and the digest is stated
for both.
-/

namespace Foundation.Sha1

/-- The five words that are carried. -/
structure Words where
  a : UInt32
  b : UInt32
  c : UInt32
  d : UInt32
  e : UInt32
deriving DecidableEq

/-- `S^n`: a word turned to the left. -/
def rotate (n word : UInt32) : UInt32 := (word <<< n) ||| (word >>> (32 - n))

/-- `f(t; B, C, D)` -/
def choice (t : Nat) (b c d : UInt32) : UInt32 :=
  if t < 20 then (b &&& c) ||| (~~~b &&& d)
  else if t < 40 then b ^^^ c ^^^ d
  else if t < 60 then (b &&& c) ||| (b &&& d) ||| (c &&& d)
  else b ^^^ c ^^^ d

/-- `K(t)` -/
def constant (t : Nat) : UInt32 :=
  if t < 20 then 0x5A827999
  else if t < 40 then 0x6ED9EBA1
  else if t < 60 then 0x8F1BBCDC
  else 0xCA62C1D6

/-- The word that four bytes of a block make, the highest first. -/
def word (block : List UInt8) (t : Nat) : UInt32 :=
  UInt32.ofNat ((block.getD (4 * t) 0).toNat * 2 ^ 24 + (block.getD (4 * t + 1) 0).toNat * 2 ^ 16 +
    (block.getD (4 * t + 2) 0).toNat * 2 ^ 8 + (block.getD (4 * t + 3) 0).toNat)

/-- `W(t)` -/
def schedule (block : List UInt8) (t : Nat) : UInt32 :=
  if t < 16 then word block t
  else rotate 1 (schedule block (t - 3) ^^^ schedule block (t - 8) ^^^ schedule block (t - 14) ^^^
    schedule block (t - 16))

/-- One round. -/
def round (block : List UInt8) (words : Words) (t : Nat) : Words where
  a := rotate 5 words.a + choice t words.b words.c words.d + words.e + schedule block t +
    constant t
  b := words.a
  c := rotate 30 words.b
  d := words.c
  e := words.d

/-- The words after a block. -/
def compress (words : Words) (block : List UInt8) : Words :=
  let mixed := (List.range 80).foldl (round block) words
  ⟨words.a + mixed.a, words.b + mixed.b, words.c + mixed.c, words.d + mixed.d, words.e + mixed.e⟩

/-- The words before the first block. -/
def initial : Words := ⟨0x67452301, 0xEFCDAB89, 0x98BADCFE, 0x10325476, 0xC3D2E1F0⟩

/-- The full blocks of a text. -/
def blocks (data : List UInt8) : List (List UInt8) :=
  (List.range (data.length / 64)).map fun i => (data.drop (64 * i)).take 64

/-- The words after the full blocks of a text. -/
def absorb (data : List UInt8) : Words := (blocks data).foldl compress initial

/-- The eight bytes of a length, the highest first. -/
def lengthBytes (n : Nat) : List UInt8 :=
  [56, 48, 40, 32, 24, 16, 8, 0].map fun place => UInt8.ofNat (n / 2 ^ place)

/-- The padded message. -/
def padded (message : List UInt8) : List UInt8 :=
  message ++ 0x80 :: (List.replicate ((119 - message.length % 64) % 64) 0 ++
    lengthBytes (8 * message.length))

/-- The digest of a message. -/
def digest (message : List UInt8) : Words := absorb (padded message)

/-- Two blocks that are carried to the same words. -/
def Collides (words : Words) (block other : List UInt8) : Prop :=
  block ≠ other ∧ compress words block = compress words other

/-- The first words are those of the block. -/
theorem schedule_lt {block : List UInt8} {t : Nat} (early : t < 16) :
    schedule block t = word block t := by
  rw [schedule, if_pos early]

/-- The other words come from earlier ones. -/
theorem schedule_ge {block : List UInt8} {t : Nat} (late : 16 ≤ t) :
    schedule block t = rotate 1 (schedule block (t - 3) ^^^ schedule block (t - 8) ^^^
      schedule block (t - 14) ^^^ schedule block (t - 16)) := by
  rw [schedule, if_neg (Nat.not_lt_of_le late)]

/-- The blocks behind full blocks. -/
theorem blocks_append {full : List UInt8} (whole : 64 ∣ full.length) (data : List UInt8) :
    blocks (full ++ data) = blocks full ++ blocks data := by
  obtain ⟨count, length⟩ := whole
  have front : full.length / 64 = count := by omega
  have total : (full ++ data).length / 64 = count + data.length / 64 := by
    rw [List.length_append]
    omega
  rw [blocks, blocks, blocks, total, front, List.range_add, List.map_append, List.map_map]
  congr 1
  · apply List.map_congr_left
    intro i member
    have inside := List.mem_range.mp member
    rw [List.drop_append_of_le_length (by omega), List.take_append_of_le_length]
    rw [List.length_drop]
    omega
  · apply List.map_congr_left
    intro i _
    have past : 64 * (count + i) = full.length + 64 * i := by omega
    show ((full ++ data).drop (64 * (count + i))).take 64 = _
    rw [past, ← List.drop_drop, List.drop_left]

/-- A text of 64 bytes is a block. -/
theorem blocks_single {block : List UInt8} (length : block.length = 64) :
    blocks block = [block] := by
  rw [blocks, length]
  show [(block.drop 0).take 64] = [block]
  rw [List.drop_zero, List.take_of_length_le (Nat.le_of_eq length)]

/-- The words after one more block. -/
theorem absorb_append {full block : List UInt8} (whole : 64 ∣ full.length)
    (length : block.length = 64) : absorb (full ++ block) = compress (absorb full) block := by
  rw [absorb, blocks_append whole, blocks_single length, List.foldl_append]
  rfl

@[simp] theorem lengthBytes_length (n : Nat) : (lengthBytes n).length = 8 := rfl

/-- A short rest is padded in its own block. -/
theorem digest_short {full rest : List UInt8} (whole : 64 ∣ full.length)
    (short : rest.length < 56) :
    digest (full ++ rest) = compress (absorb full) (rest ++ 0x80 ::
      (List.replicate (55 - rest.length) 0 ++ lengthBytes (8 * (full ++ rest).length))) := by
  have zeroes : (119 - (full ++ rest).length % 64) % 64 = 55 - rest.length := by
    rw [List.length_append]
    omega
  rw [digest, padded, zeroes, List.append_assoc]
  apply absorb_append whole
  simp only [List.length_append, List.length_cons, List.length_replicate, lengthBytes_length]
  omega

/-- A long rest leaves no room for the length, which comes in a block of its own. -/
theorem digest_long {full rest : List UInt8} (whole : 64 ∣ full.length)
    (long : 56 ≤ rest.length) (less : rest.length < 64) :
    digest (full ++ rest) = compress
      (compress (absorb full) (rest ++ 0x80 :: List.replicate (63 - rest.length) 0))
      (List.replicate 56 0 ++ lengthBytes (8 * (full ++ rest).length)) := by
  have zeroes : (119 - (full ++ rest).length % 64) % 64 = (63 - rest.length) + 56 := by
    rw [List.length_append]
    omega
  have length : (rest ++ 0x80 :: List.replicate (63 - rest.length) (0 : UInt8)).length = 64 := by
    simp only [List.length_append, List.length_cons, List.length_replicate]
    omega
  have split : padded (full ++ rest) =
      (full ++ (rest ++ 0x80 :: List.replicate (63 - rest.length) 0)) ++
        (List.replicate 56 0 ++ lengthBytes (8 * (full ++ rest).length)) := by
    rw [padded, zeroes, List.replicate_add]
    simp only [List.append_assoc, List.cons_append]
  rw [digest, split, absorb_append _ _, absorb_append whole length]
  · rw [List.length_append, length]
    exact Nat.dvd_add whole (Nat.dvd_refl 64)
  · simp only [List.length_append, List.length_replicate, lengthBytes_length]

end Foundation.Sha1

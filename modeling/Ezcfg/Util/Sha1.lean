import Ezcfg.Foundation.ByteArea
import Ezcfg.Foundation.Sha1

/-!
# SHA-1

The bytes of the source are collected in a block of 64, which is mixed into the words when it
is full. When the padding needs a second block, the zeros in front of the length are not
written, and the bytes of the block before stay there. Writing outside the block, reading a
word of `w` that is not written and storing behind the destination have no result.
-/

namespace Ezcfg.Util

open Foundation
open Foundation.Sha1 (Words)

/-- How the machine lays a word out in memory. -/
structure Layout where
  bytes : UInt32 → List UInt8
  length : ∀ word, (bytes word).length = 4
  injective : ∀ word other, bytes word = bytes other → word = other

/-- The lowest byte first. -/
def littleEndian (word : UInt32) : List UInt8 :=
  [word.toUInt8, (word >>> 8).toUInt8, (word >>> 16).toUInt8, (word >>> 24).toUInt8]

/-- The memory of five words. -/
def Layout.memory (layout : Layout) (words : Words) : List UInt8 :=
  layout.bytes words.a ++ layout.bytes words.b ++ layout.bytes words.c ++ layout.bytes words.d ++
    layout.bytes words.e

/-- `SHA1CircularShift` -/
def circularShift (bits word : UInt32) : UInt32 :=
  ((word <<< bits) &&& 0xFFFFFFFF) ||| (word >>> (32 - bits))

/-- `sha1_k` -/
def sha1K : Fin 4 → UInt32
  | 0 => 0x5A827999
  | 1 => 0x6ED9EBA1
  | 2 => 0x8F1BBCDC
  | 3 => 0xCA62C1D6

/-- The body of the loop over the first 16 words; `w` is filled from the front. -/
def loadTurn (block : List UInt8) (w : List UInt32) (t : Nat) : Option (List UInt32) := do
  let first ← block[t * 4]?
  let second ← block[t * 4 + 1]?
  let third ← block[t * 4 + 2]?
  let fourth ← block[t * 4 + 3]?
  some (w ++ [(((first.toUInt32 <<< 24) ||| (second.toUInt32 <<< 16)) |||
    (third.toUInt32 <<< 8)) ||| fourth.toUInt32])

/-- The body of the loop over the other words. -/
def extendTurn (w : List UInt32) (t : Nat) : Option (List UInt32) := do
  let w3 ← w[t - 3]?
  let w8 ← w[t - 8]?
  let w14 ← w[t - 14]?
  let w16 ← w[t - 16]?
  some (w ++ [circularShift 1 (w3 ^^^ w8 ^^^ w14 ^^^ w16)])

/-- The body of the four loops, which differ in the combination of the words and the constant. -/
def mixTurn (f : UInt32 → UInt32 → UInt32 → UInt32) (k : UInt32) (w : List UInt32) (v : Words)
    (t : Nat) : Option Words := do
  let word ← w[t]?
  some
    { a := (circularShift 5 v.a + f v.b v.c v.d + v.e + word + k) &&& 0xFFFFFFFF
      b := v.a
      c := circularShift 30 v.b
      d := v.c
      e := v.d }

/-- `sha1_process_md` -/
def sha1ProcessMd (block : List UInt8) (md : Words) : Option Words := do
  let w ← (List.range' 0 16).foldlM (loadTurn block) []
  let w ← (List.range' 16 64).foldlM extendTurn w
  let v ← (List.range' 0 20).foldlM
    (mixTurn (fun b c d => (b &&& c) ||| (~~~b &&& d)) (sha1K 0) w) md
  let v ← (List.range' 20 20).foldlM (mixTurn (fun b c d => b ^^^ c ^^^ d) (sha1K 1) w) v
  let v ← (List.range' 40 20).foldlM
    (mixTurn (fun b c d => (b &&& c) ||| (b &&& d) ||| (c &&& d)) (sha1K 2) w) v
  let v ← (List.range' 60 20).foldlM (mixTurn (fun b c d => b ^^^ c ^^^ d) (sha1K 3) w) v
  some
    { a := (md.a + v.a) &&& 0xFFFFFFFF
      b := (md.b + v.b) &&& 0xFFFFFFFF
      c := (md.c + v.c) &&& 0xFFFFFFFF
      d := (md.d + v.d) &&& 0xFFFFFFFF
      e := (md.e + v.e) &&& 0xFFFFFFFF }

/-- Why the work on a source ends early: an access outside the block, or a length that does
not fit into 64 bits. -/
inductive Sha1Stop where
  | outside
  | tooLong
deriving DecidableEq

/-- An access that may be outside. -/
def inside {α : Type} : Option α → Except Sha1Stop α
  | some value => .ok value
  | none => .error .outside

/-- The local variables. -/
structure Sha1State where
  block : List UInt8
  blockIdx : Nat
  lenLo : UInt32
  lenHi : UInt32
  md : Words

/-- The body of the loop over the source. -/
def sha1Turn (s : Sha1State) (byte : UInt8) : Except Sha1Stop Sha1State := do
  let block ← inside (ByteArea.write s.block s.blockIdx [byte &&& 0xFF])
  let lenLo := (s.lenLo + 8) &&& 0xFFFFFFFF
  let lenHi := if lenLo = 0 then (s.lenHi + 1) &&& 0xFFFFFFFF else s.lenHi
  if lenLo = 0 ∧ lenHi = 0 then .error .tooLong
  else if s.blockIdx + 1 = 64 then do
    let md ← inside (sha1ProcessMd block s.md)
    .ok { block, blockIdx := 0, lenLo, lenHi, md }
  else .ok { block, blockIdx := s.blockIdx + 1, lenLo, lenHi, md := s.md }

/-- `while (block_idx < limit) block[block_idx++] = 0;` -/
def zeroFill (limit : Nat) (block : List UInt8) (blockIdx : Nat) :
    Except Sha1Stop (List UInt8 × Nat) :=
  if blockIdx < limit then do
    let block ← inside (ByteArea.write block blockIdx [0])
    zeroFill limit block (blockIdx + 1)
  else .ok (block, blockIdx)
termination_by limit - blockIdx

/-- The bit behind the source, and the block that is mixed when the length has no room. -/
def sha1Pad (s : Sha1State) : Except Sha1Stop Sha1State :=
  if 55 < s.blockIdx then do
    let block ← inside (ByteArea.write s.block s.blockIdx [0x80])
    let (block, blockIdx) ← zeroFill 64 block (s.blockIdx + 1)
    let md ← inside (sha1ProcessMd block s.md)
    let (block, blockIdx) ← zeroFill 56 block blockIdx
    .ok { s with block, blockIdx, md }
  else do
    let block ← inside (ByteArea.write s.block s.blockIdx [0x80])
    let (block, blockIdx) ← zeroFill 56 block (s.blockIdx + 1)
    .ok { s with block, blockIdx }

/-- The bytes that are put at the end of the last block. -/
def sha1Length (lenHi lenLo : UInt32) : List UInt8 :=
  [((lenHi >>> 24) &&& 0xFF).toUInt8, ((lenHi >>> 16) &&& 0xFF).toUInt8,
    ((lenHi >>> 8) &&& 0xFF).toUInt8, (lenHi &&& 0xFF).toUInt8,
    ((lenLo >>> 24) &&& 0xFF).toUInt8, ((lenLo >>> 16) &&& 0xFF).toUInt8,
    ((lenLo >>> 8) &&& 0xFF).toUInt8, (lenLo &&& 0xFF).toUInt8]

/-- The words that are computed. -/
def sha1Words (block src : List UInt8) : Except Sha1Stop Words := do
  let s ← src.foldlM sha1Turn
    { block, blockIdx := 0, lenLo := 0, lenHi := 0,
      md := ⟨0x67452301, 0xEFCDAB89, 0x98BADCFE, 0x10325476, 0xC3D2E1F0⟩ }
  let s ← sha1Pad s
  let block ← inside (ByteArea.write s.block 56 (sha1Length s.lenHi s.lenLo))
  inside (sha1ProcessMd block s.md)

/-- `ezcfg_util_sha1`: the code and the destination. The block is not initialised; a pointer
that is NULL has no area. -/
def sha1 (layout : Layout) (block : List UInt8) (src dst : Option (List UInt8)) :
    Option (Int × Option (List UInt8)) :=
  match src, dst with
  | some src, some dst =>
    if src.length < 1 then some (-1, some dst)
    else if dst.length < 20 then some (-1, some dst)
    else
      match sha1Words block src with
      | .ok md => (ByteArea.write dst 0 (layout.memory md)).map fun dst => (20, some dst)
      | .error .tooLong => some (-1, some dst)
      | .error .outside => none
  | _, dst => some (-1, dst)

/-- A full mask changes nothing. -/
theorem word_mask (word : UInt32) : word &&& 0xFFFFFFFF = word := UInt32.and_neg_one

theorem byte_mask (byte : UInt8) : byte &&& 0xFF = byte := UInt8.and_neg_one

theorem circularShift_eq (bits word : UInt32) :
    circularShift bits word = Sha1.rotate bits word := by
  rw [circularShift, word_mask, Sha1.rotate]

/-- Numbers that do not overlap are added by or. -/
theorem or_low (high : Nat) {low place : Nat} (less : low < 2 ^ place) :
    high * 2 ^ place ||| low = high * 2 ^ place + low := by
  rw [Nat.mul_comm]
  exact (Nat.two_pow_add_eq_or_of_lt less high).symm

/-- The word that is put together from four bytes. -/
theorem joined_eq (first second third fourth : UInt8) :
    (((first.toUInt32 <<< 24) ||| (second.toUInt32 <<< 16)) ||| (third.toUInt32 <<< 8)) |||
        fourth.toUInt32 =
      UInt32.ofNat (first.toNat * 2 ^ 24 + second.toNat * 2 ^ 16 + third.toNat * 2 ^ 8 +
        fourth.toNat) := by
  have firstLess := first.toNat_lt
  have secondLess := second.toNat_lt
  have thirdLess := third.toNat_lt
  have fourthLess := fourth.toNat_lt
  have two := or_low first.toNat (show second.toNat * 2 ^ 16 < 2 ^ 24 by omega)
  have three := or_low (first.toNat * 2 ^ 8 + second.toNat)
    (show third.toNat * 2 ^ 8 < 2 ^ 16 by omega)
  have four := or_low (first.toNat * 2 ^ 16 + second.toNat * 2 ^ 8 + third.toNat)
    (show fourth.toNat < 2 ^ 8 by omega)
  have twoPlaces : first.toNat * 2 ^ 24 + second.toNat * 2 ^ 16 =
      (first.toNat * 2 ^ 8 + second.toNat) * 2 ^ 16 := by
    rw [Nat.add_mul, Nat.mul_assoc, ← Nat.pow_add]
  have threePlaces : (first.toNat * 2 ^ 8 + second.toNat) * 2 ^ 16 + third.toNat * 2 ^ 8 =
      (first.toNat * 2 ^ 16 + second.toNat * 2 ^ 8 + third.toNat) * 2 ^ 8 := by
    rw [Nat.add_mul, Nat.add_mul, Nat.add_mul, Nat.mul_assoc, Nat.mul_assoc, Nat.mul_assoc,
      ← Nat.pow_add, ← Nat.pow_add, ← Nat.pow_add]
  apply UInt32.toNat_inj.mp
  simp only [UInt32.toNat_or, UInt32.toNat_shiftLeft, UInt8.toNat_toUInt32, Nat.shiftLeft_eq,
    UInt32.toNat_ofNat', UInt32.reduceToNat, Nat.reduceMod]
  rw [Nat.mod_eq_of_lt (by omega), Nat.mod_eq_of_lt (by omega), Nat.mod_eq_of_lt (by omega),
    Nat.mod_eq_of_lt (by omega), two, twoPlaces, three, threePlaces, four]

/-- What is in `w` when its first words are written. -/
def written (block : List UInt8) (count : Nat) : List UInt32 :=
  (List.range count).map (Sha1.schedule block)

/-- One more word is written. -/
theorem written_succ (block : List UInt8) (count : Nat) :
    written block (count + 1) = written block count ++ [Sha1.schedule block count] := by
  rw [written, List.range_succ, List.map_append]
  rfl

/-- A word that is written is read. -/
theorem written_read {block : List UInt8} {count t : Nat} (less : t < count) :
    (written block count)[t]? = some (Sha1.schedule block t) := by
  rw [written, List.getElem?_map, List.getElem?_range less]
  rfl

/-- The first loop reads the words of the block. -/
theorem load_exact {block : List UInt8} (length : block.length = 64) (count : Nat)
    (early : count ≤ 16) :
    (List.range' 0 count).foldlM (loadTurn block) [] = some (written block count) := by
  induction count with
  | zero => rfl
  | succ count inductionHypothesis =>
    have byte (i : Nat) (less : i < 64) : block[i]? = some (block.getD i 0) := by
      rw [List.getD_eq_getElem?_getD, List.getElem?_eq_getElem (by omega)]
      rfl
    have place : count * 4 = 4 * count := Nat.mul_comm _ _
    have turn : loadTurn block (written block count) count = some (written block (count + 1)) := by
      rw [loadTurn, place, byte _ (by omega), byte _ (by omega), byte _ (by omega),
        byte _ (by omega), written_succ, Sha1.schedule_lt (by omega), Sha1.word, ← joined_eq]
      rfl
    rw [List.range'_1_concat, List.foldlM_append, inductionHypothesis (by omega), Nat.zero_add]
    simp only [Option.bind_eq_bind, Option.bind_some, List.foldlM_cons, List.foldlM_nil, turn]
    rfl

/-- The second loop computes the other words. -/
theorem extend_exact (block : List UInt8) (count : Nat) :
    (List.range' 16 count).foldlM extendTurn (written block 16) =
      some (written block (16 + count)) := by
  induction count with
  | zero => rfl
  | succ count inductionHypothesis =>
    have turn : extendTurn (written block (16 + count)) (16 + count) =
        some (written block (16 + count + 1)) := by
      rw [extendTurn, written_read (by omega), written_read (by omega), written_read (by omega),
        written_read (by omega), written_succ, Sha1.schedule_ge (Nat.le_add_right 16 count),
        ← circularShift_eq]
      rfl
    rw [List.range'_1_concat, List.foldlM_append, inductionHypothesis]
    simp only [Option.bind_eq_bind, Option.bind_some, List.foldlM_cons, List.foldlM_nil, turn]
    rfl

/-- A loop over rounds with one combination and one constant. -/
theorem mix_exact {f : UInt32 → UInt32 → UInt32 → UInt32} {k : UInt32} (block : List UInt8)
    (start count : Nat) (v : Words) (inRange : start + count ≤ 80)
    (combination : ∀ t b c d, start ≤ t → t < start + count → Sha1.choice t b c d = f b c d)
    (number : ∀ t, start ≤ t → t < start + count → Sha1.constant t = k) :
    (List.range' start count).foldlM (mixTurn f k (written block 80)) v =
      some ((List.range' start count).foldl (Sha1.round block) v) := by
  induction count with
  | zero => rfl
  | succ count inductionHypothesis =>
    have turn (v : Words) : mixTurn f k (written block 80) v (start + count) =
        some (Sha1.round block v (start + count)) := by
      rw [mixTurn, written_read (by omega), Sha1.round,
        combination _ _ _ _ (Nat.le_add_right _ _) (by omega),
        number _ (Nat.le_add_right _ _) (by omega), ← circularShift_eq, ← circularShift_eq]
      simp only [Option.bind_eq_bind, Option.bind_some, word_mask]
    rw [List.range'_1_concat, List.foldlM_append, List.foldl_append,
      inductionHypothesis (by omega)
        (fun t b c d from' upTo => combination t b c d from' (by omega))
        (fun t from' upTo => number t from' (by omega))]
    simp only [Option.bind_eq_bind, Option.bind_some, List.foldlM_cons, List.foldlM_nil, turn]
    rfl

/-- A block is mixed into the words as it should be. -/
theorem sha1ProcessMd_eq {block : List UInt8} (length : block.length = 64) (md : Words) :
    sha1ProcessMd block md = some (Sha1.compress md block) := by
  have rounds : List.range 80 =
      List.range' 0 20 ++ List.range' 20 20 ++ List.range' 40 20 ++ List.range' 60 20 := by
    rw [List.range_eq_range', List.range'_append_1, List.range'_append_1, List.range'_append_1]
  rw [sha1ProcessMd, load_exact length 16 (Nat.le_refl _), Option.bind_eq_bind, Option.bind_some,
    extend_exact block 64, Option.bind_eq_bind, Option.bind_some,
    mix_exact block 0 20 _ (by decide), Option.bind_some,
    mix_exact block 20 20 _ (by decide), Option.bind_some,
    mix_exact block 40 20 _ (by decide), Option.bind_some,
    mix_exact block 60 20 _ (by decide), Option.bind_some]
  · rw [word_mask, word_mask, word_mask, word_mask, word_mask, Sha1.compress, rounds,
      List.foldl_append, List.foldl_append, List.foldl_append]
  · intro t b c d start _
    rw [Sha1.choice, if_neg (by omega), if_neg (by omega), if_neg (by omega)]
  · intro t start _
    rw [Sha1.constant, if_neg (by omega), if_neg (by omega), if_neg (by omega), sha1K]
  · intro t b c d start limit
    rw [Sha1.choice, if_neg (by omega), if_neg (by omega), if_pos limit]
  · intro t start limit
    rw [Sha1.constant, if_neg (by omega), if_neg (by omega), if_pos limit, sha1K]
  · intro t b c d start limit
    rw [Sha1.choice, if_neg (by omega), if_pos limit]
  · intro t start limit
    rw [Sha1.constant, if_neg (by omega), if_pos limit, sha1K]
  · intro t b c d _ limit
    rw [Sha1.choice, if_pos (by omega)]
  · intro t _ limit
    rw [Sha1.constant, if_pos (by omega), sha1K]

end Ezcfg.Util

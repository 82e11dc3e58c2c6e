import Ezcfg.Util.Sha1

/-!
# The digest that SHA-1 computes

The block holds what stands behind the last full block of the source. A source whose rest has
less than 56 bytes gets its digest. Behind a longer rest the length comes in a block of its
own, which starts with the rest where zeros belong: the digest is right when the rest starts
with 56 zeros, or when both blocks happen to be mixed to the same words.
-/

namespace Ezcfg.Util

open Foundation
open Foundation.Sha1 (Words)

/-- The full blocks of a source. -/
def fullPart (seen : List UInt8) : List UInt8 := seen.take (seen.length / 64 * 64)

/-- What stands behind the full blocks. -/
def restPart (seen : List UInt8) : List UInt8 := seen.drop (seen.length / 64 * 64)

theorem full_rest (seen : List UInt8) : fullPart seen ++ restPart seen = seen :=
  List.take_append_drop _ _

theorem fullPart_length (seen : List UInt8) : 64 ∣ (fullPart seen).length := by
  rw [fullPart, List.length_take]
  omega

theorem restPart_length (seen : List UInt8) : (restPart seen).length = seen.length % 64 := by
  rw [restPart, List.length_drop]
  omega

/-- A byte that does not fill the block goes to the rest. -/
theorem parts_grow (seen : List UInt8) (less : seen.length % 64 + 1 < 64) (byte : UInt8) :
    fullPart (seen ++ [byte]) = fullPart seen ∧
      restPart (seen ++ [byte]) = restPart seen ++ [byte] := by
  have count : (seen ++ [byte]).length / 64 * 64 = seen.length / 64 * 64 := by
    rw [List.length_append, List.length_singleton]
    omega
  constructor
  · rw [fullPart, count, List.take_append_of_le_length (by omega), fullPart]
  · rw [restPart, count, List.drop_append_of_le_length (by omega), restPart]

/-- A byte that fills the block leaves no rest. -/
theorem parts_fill {seen : List UInt8} (last : seen.length % 64 + 1 = 64) (byte : UInt8) :
    fullPart (seen ++ [byte]) = fullPart seen ++ (restPart seen ++ [byte]) ∧
      restPart (seen ++ [byte]) = [] := by
  have count : (seen ++ [byte]).length / 64 * 64 = (seen ++ [byte]).length := by
    rw [List.length_append, List.length_singleton]
    omega
  constructor
  · rw [fullPart, count, List.take_length, ← List.append_assoc, full_rest]
  · rw [restPart, count, List.drop_length]

/-- The state after the bytes that are seen. -/
structure Absorbed (seen : List UInt8) (s : Sha1State) : Prop where
  area : s.block.length = 64
  rest : restPart seen <+: s.block
  index : s.blockIdx = seen.length % 64
  length : s.lenHi.toNat * 2 ^ 32 + s.lenLo.toNat = 8 * seen.length
  words : s.md = Sha1.absorb (fullPart seen)

/-- Both halves of the length count on together. -/
theorem length_turn {lenHi lenLo next : UInt32} {count : Nat}
    (total : lenHi.toNat * 2 ^ 32 + lenLo.toNat = 8 * count) (room : count + 1 < 2 ^ 61)
    (low : next = lenLo + 8) :
    ¬ (next = 0 ∧ (if next = 0 then lenHi + 1 else lenHi) = 0) ∧
      (if next = 0 then lenHi + 1 else lenHi).toNat * 2 ^ 32 + next.toNat = 8 * (count + 1) := by
  have lowLess := lenLo.toNat_lt
  have highLess := lenHi.toNat_lt
  have sum : next.toNat = (lenLo.toNat + 8) % 2 ^ 32 := by
    rw [low, UInt32.toNat_add]
    rfl
  by_cases carried : next = 0
  · have zero : next.toNat = 0 := by
      rw [carried]
      rfl
    have high : (lenHi + 1).toNat = lenHi.toNat + 1 := by
      rw [UInt32.toNat_add, UInt32.toNat_one]
      exact Nat.mod_eq_of_lt (by omega)
    rw [if_pos carried]
    constructor
    · rintro ⟨_, wrapped⟩
      have none := congrArg UInt32.toNat wrapped
      rw [high] at none
      cases none
    · have top : lenLo.toNat + 8 = 2 ^ 32 := by omega
      rw [high, zero]
      calc (lenHi.toNat + 1) * 2 ^ 32 + 0 = lenHi.toNat * 2 ^ 32 + 2 ^ 32 := Nat.succ_mul _ _
        _ = lenHi.toNat * 2 ^ 32 + (lenLo.toNat + 8) := by rw [top]
        _ = 8 * count + 8 := by rw [← Nat.add_assoc, total]
  · have positive : next.toNat ≠ 0 := by
      intro zero
      exact carried (UInt32.toNat_inj.mp zero)
    rw [if_neg carried]
    constructor
    · intro both
      exact carried both.1
    · omega

/-- What a byte does that is stored and counted. -/
theorem sha1Turn_stored {s : Sha1State} {byte : UInt8} {block : List UInt8}
    (stored : ByteArea.write s.block s.blockIdx [byte] = some block) (area : block.length = 64)
    (fits : ¬ (s.lenLo + 8 = 0 ∧ (if s.lenLo + 8 = 0 then s.lenHi + 1 else s.lenHi) = 0)) :
    sha1Turn s byte = .ok
      { block
        blockIdx := if s.blockIdx + 1 = 64 then 0 else s.blockIdx + 1
        lenLo := s.lenLo + 8
        lenHi := if s.lenLo + 8 = 0 then s.lenHi + 1 else s.lenHi
        md := if s.blockIdx + 1 = 64 then Sha1.compress s.md block else s.md } := by
  rw [sha1Turn, byte_mask, stored]
  simp only [word_mask]
  show (if _ then _ else _) = _
  rw [if_neg fits]
  by_cases last : s.blockIdx + 1 = 64
  · rw [if_pos last, if_pos last, if_pos last, sha1ProcessMd_eq area]
    rfl
  · rw [if_neg last, if_neg last, if_neg last]

/-- One byte is seen. -/
theorem sha1Turn_absorbed {seen : List UInt8} {s : Sha1State} (before : Absorbed seen s)
    (byte : UInt8) (room : seen.length + 1 < 2 ^ 61) :
    ∃ after, sha1Turn s byte = .ok after ∧ Absorbed (seen ++ [byte]) after := by
  obtain ⟨tail, area⟩ := before.rest
  have restLength := restPart_length seen
  have position : s.blockIdx = (restPart seen).length := before.index.trans restLength.symm
  have full := before.area
  have small : seen.length % 64 < 64 := Nat.mod_lt _ (by decide)
  have grown : (seen ++ [byte]).length = seen.length + 1 := by
    rw [List.length_append, List.length_singleton]
  obtain ⟨fits, total⟩ := length_turn before.length room rfl
  cases tail with
  | nil =>
    rw [← area, List.append_nil, restLength] at full
    omega
  | cons old tail =>
    have stored : ByteArea.write s.block s.blockIdx [byte] =
        some (restPart seen ++ [byte] ++ tail) := by
      have wrote := ByteArea.write_between (restPart seen) [old] [byte] tail rfl
      rw [List.append_assoc, List.singleton_append, area, ← position] at wrote
      exact wrote
    have block : (restPart seen ++ [byte] ++ tail).length = 64 := by
      rw [ByteArea.write_length stored, before.area]
    refine ⟨_, sha1Turn_stored stored block fits, ?_⟩
    rw [before.index]
    by_cases last : seen.length % 64 + 1 = 64
    · obtain ⟨fullNow, restNow⟩ := parts_fill last byte
      have empty : tail = [] := by
        apply List.eq_nil_of_length_eq_zero
        rw [List.length_append, List.length_append, List.length_singleton, restLength] at block
        omega
      rw [if_pos last, if_pos last]
      constructor
      · exact block
      · rw [restNow]
        exact List.nil_prefix
      · rw [grown]
        show 0 = _
        omega
      · rw [grown]
        exact total
      · rw [empty, List.append_nil] at block
        rw [fullNow, Sha1.absorb_append (fullPart_length seen) block, ← before.words, empty,
          List.append_nil]
    · obtain ⟨fullNow, restNow⟩ := parts_grow seen (by omega) byte
      rw [if_neg last, if_neg last]
      constructor
      · exact block
      · rw [restNow]
        exact List.prefix_append _ _
      · rw [grown]
        show seen.length % 64 + 1 = _
        omega
      · rw [grown]
        exact total
      · rw [fullNow]
        exact before.words

/-- The whole source is seen. -/
theorem sha1Turns_absorbed (src : List UInt8) {seen : List UInt8} {s : Sha1State}
    (before : Absorbed seen s) (room : seen.length + src.length < 2 ^ 61) :
    ∃ after, src.foldlM sha1Turn s = .ok after ∧ Absorbed (seen ++ src) after := by
  induction src generalizing seen s with
  | nil =>
    rw [List.append_nil]
    exact ⟨s, rfl, before⟩
  | cons byte src inductionHypothesis =>
    rw [List.length_cons] at room
    obtain ⟨next, turn, absorbed⟩ := sha1Turn_absorbed before byte (by omega)
    obtain ⟨after, turns, later⟩ := inductionHypothesis absorbed (by
      rw [List.length_append, List.length_singleton]
      omega)
    rw [List.append_assoc, List.singleton_append] at later
    rw [List.foldlM_cons, turn]
    exact ⟨after, turns, later⟩

/-- A byte of a word. -/
theorem shifted_byte (word place : UInt32) (less : place.toNat < 32) :
    ((word >>> place) &&& 0xFF).toUInt8 = UInt8.ofNat (word.toNat / 2 ^ place.toNat) := by
  apply UInt8.toNat_inj.mp
  rw [UInt32.toNat_toUInt8, UInt32.toNat_and, UInt32.toNat_shiftRight, Nat.mod_eq_of_lt less,
    Nat.shiftRight_eq_div_pow, UInt8.toNat_ofNat', show (0xFF : UInt32).toNat = 2 ^ 8 - 1 by rfl,
    Nat.and_two_pow_sub_one_eq_mod, Nat.mod_mod]

/-- The lowest byte of a word. -/
theorem lowest_byte (word : UInt32) :
    (word &&& 0xFF).toUInt8 = UInt8.ofNat (word.toNat / 2 ^ 0) := by
  have shifted := shifted_byte word 0 (by decide)
  rwa [UInt32.shiftRight_zero] at shifted

/-- The length is written with the highest byte first. -/
theorem sha1Length_eq {lenHi lenLo : UInt32} {n : Nat}
    (total : lenHi.toNat * 2 ^ 32 + lenLo.toNat = n) :
    sha1Length lenHi lenLo = Sha1.lengthBytes n := by
  have lowLess := lenLo.toNat_lt
  have high : lenHi.toNat = n / 2 ^ 32 := by omega
  have split (place : Nat) : n / 2 ^ 32 / 2 ^ place = n / 2 ^ (32 + place) := by
    rw [Nat.div_div_eq_div_mul, Nat.pow_add]
  have low (place : Nat) (less : place ≤ 24) :
      UInt8.ofNat (lenLo.toNat / 2 ^ place) = UInt8.ofNat (n / 2 ^ place) := by
    have power : 2 ^ 32 = 2 ^ place * (2 ^ (24 - place) * 2 ^ 8) := by
      rw [← Nat.pow_add, ← Nat.pow_add]
      congr 1
      omega
    apply UInt8.toNat_inj.mp
    rw [UInt8.toNat_ofNat', UInt8.toNat_ofNat', ← total, power, Nat.mul_comm lenHi.toNat,
      Nat.mul_assoc, Nat.mul_add_div (Nat.two_pow_pos place), Nat.mul_comm (2 ^ (24 - place)),
      Nat.mul_assoc, Nat.mul_add_mod]
  rw [sha1Length, shifted_byte _ _ (by decide), shifted_byte _ _ (by decide),
    shifted_byte _ _ (by decide), lowest_byte, shifted_byte _ _ (by decide),
    shifted_byte _ _ (by decide), shifted_byte _ _ (by decide), lowest_byte, high]
  show [UInt8.ofNat (n / 2 ^ 32 / 2 ^ 24), UInt8.ofNat (n / 2 ^ 32 / 2 ^ 16),
    UInt8.ofNat (n / 2 ^ 32 / 2 ^ 8), UInt8.ofNat (n / 2 ^ 32 / 2 ^ 0),
    UInt8.ofNat (lenLo.toNat / 2 ^ 24), UInt8.ofNat (lenLo.toNat / 2 ^ 16),
    UInt8.ofNat (lenLo.toNat / 2 ^ 8), UInt8.ofNat (lenLo.toNat / 2 ^ 0)] = _
  rw [split, split, split, split, low 24 (by decide), low 16 (by decide), low 8 (by decide),
    low 0 (by decide)]
  rfl

/-- A place up to the limit is filled with zeros. -/
theorem zeroFill_between (front junk after : List UInt8) :
    zeroFill (front.length + junk.length) (front ++ junk ++ after) front.length =
      .ok (front ++ List.replicate junk.length 0 ++ after, front.length + junk.length) := by
  induction junk generalizing front with
  | nil =>
    rw [zeroFill, if_neg (by simp)]
    simp
  | cons old junk inductionHypothesis =>
    have stored := ByteArea.write_between front [old] [0] (junk ++ after) rfl
    have later := inductionHypothesis (front ++ [0])
    have place : front.length + (old :: junk).length = (front ++ [0]).length + junk.length := by
      simp only [List.length_append, List.length_cons, List.length_nil]
      omega
    have next : front.length + 1 = (front ++ [(0 : UInt8)]).length := by
      rw [List.length_append, List.length_singleton]
    rw [zeroFill, if_pos (by rw [List.length_cons]; omega)]
    rw [show front ++ old :: junk ++ after = front ++ [old] ++ (junk ++ after) by simp, stored]
    show zeroFill _ (front ++ [0] ++ (junk ++ after)) (front.length + 1) = _
    rw [place, next, ← List.append_assoc, later]
    simp [List.replicate_succ]

/-- What is filled already stays. -/
theorem zeroFill_past {limit blockIdx : Nat} (past : limit ≤ blockIdx) (block : List UInt8) :
    zeroFill limit block blockIdx = .ok (block, blockIdx) := by
  rw [zeroFill, if_neg (Nat.not_lt_of_le past)]

/-- The bit behind the rest, and zeros up to a limit. -/
theorem padding_fills (limit : Nat) {rest block : List UInt8} (area : block.length = 64)
    (front : rest <+: block) (less : rest.length < limit) (within : limit ≤ 64) :
    ∃ marked after, ByteArea.write block rest.length [0x80] = some marked ∧
      zeroFill limit marked (rest.length + 1) =
        .ok (rest ++ 0x80 :: List.replicate (limit - 1 - rest.length) 0 ++ after, limit) ∧
      after.length = 64 - limit := by
  obtain ⟨tail, rfl⟩ := front
  rw [List.length_append] at area
  cases tail with
  | nil =>
    rw [List.length_nil] at area
    omega
  | cons old tail =>
    rw [List.length_cons] at area
    have stored := ByteArea.write_between rest [old] [0x80] tail rfl
    have filled := zeroFill_between (rest ++ [0x80]) (tail.take (limit - 1 - rest.length))
      (tail.drop (limit - 1 - rest.length))
    have count : (tail.take (limit - 1 - rest.length)).length = limit - 1 - rest.length := by
      rw [List.length_take]
      omega
    have stop : (rest ++ [(0x80 : UInt8)]).length + (limit - 1 - rest.length) = limit := by
      rw [List.length_append, List.length_singleton]
      omega
    rw [count, stop, List.append_assoc _ _ (tail.drop _), List.take_append_drop,
      List.length_append, List.length_singleton] at filled
    refine ⟨rest ++ [0x80] ++ tail, tail.drop (limit - 1 - rest.length), ?_, ?_, ?_⟩
    · rw [List.append_assoc, List.singleton_append] at stored
      exact stored
    · rw [filled, List.append_assoc rest, List.singleton_append]
    · rw [List.length_drop]
      omega

/-- The words in front of the block that has the length alone. -/
def beforeLast (message : List UInt8) : Words :=
  Sha1.compress (Sha1.absorb (fullPart message))
    (restPart message ++ 0x80 :: List.replicate (63 - (restPart message).length) 0)

/-- The length stands behind 56 bytes. -/
def lastBlock (front message : List UInt8) : List UInt8 :=
  front ++ Sha1.lengthBytes (8 * message.length)

/-- What is written at the end of a block. -/
theorem write_length_bytes {front after bytes : List UInt8} (length : front.length = 56)
    (same : after.length = bytes.length) :
    ByteArea.write (front ++ after) 56 bytes = some (front ++ bytes) := by
  have wrote := ByteArea.write_between front after bytes [] same
  rwa [List.append_nil, List.append_nil, length] at wrote

/-- The digest of a source whose rest has room for the length. -/
theorem finish_short {message : List UInt8} {s : Sha1State} (absorbed : Absorbed message s)
    (short : message.length % 64 < 56) :
    (do
      let s ← sha1Pad s
      let block ← inside (ByteArea.write s.block 56 (sha1Length s.lenHi s.lenLo))
      inside (sha1ProcessMd block s.md)) = .ok (Sha1.digest message) := by
  have restLength := restPart_length message
  obtain ⟨marked, after, stored, filled, spare⟩ := padding_fills 56 absorbed.area
    absorbed.rest (by rw [restLength]; exact short) (by decide)
  have position : s.blockIdx = (restPart message).length := absorbed.index.trans restLength.symm
  have length : (restPart message ++ 0x80 ::
      List.replicate (56 - 1 - (restPart message).length) 0).length = 56 := by
    rw [List.length_append, List.length_cons, List.length_replicate]
    omega
  have block : (restPart message ++ 0x80 :: List.replicate (56 - 1 - (restPart message).length) 0 ++
      Sha1.lengthBytes (8 * message.length)).length = 64 := by
    rw [List.length_append, length, Sha1.lengthBytes_length]
  have digest := Sha1.digest_short (fullPart_length message)
    (show (restPart message).length < 56 by rw [restLength]; exact short)
  rw [full_rest] at digest
  have pad : sha1Pad s = .ok { s with
      block := restPart message ++ 0x80 ::
        List.replicate (56 - 1 - (restPart message).length) 0 ++ after
      blockIdx := 56 } := by
    rw [sha1Pad, if_neg (by rw [absorbed.index]; omega), position, stored]
    show (zeroFill 56 marked ((restPart message).length + 1)).bind _ = _
    rw [filled]
    rfl
  rw [pad]
  show (inside (ByteArea.write _ 56 (sha1Length s.lenHi s.lenLo))).bind _ = _
  rw [sha1Length_eq absorbed.length, write_length_bytes length spare]
  show inside (sha1ProcessMd _ s.md) = _
  rw [sha1ProcessMd_eq block, absorbed.words, digest]
  rw [List.append_assoc, List.cons_append]
  rfl

/-- What is computed for a source whose rest has none: the last block starts with the rest. -/
theorem finish_long {message : List UInt8} {s : Sha1State} (absorbed : Absorbed message s)
    (long : 56 ≤ message.length % 64) :
    (do
      let s ← sha1Pad s
      let block ← inside (ByteArea.write s.block 56 (sha1Length s.lenHi s.lenLo))
      inside (sha1ProcessMd block s.md)) =
      .ok (Sha1.compress (beforeLast message)
        (lastBlock ((restPart message).take 56) message)) := by
  have restLength := restPart_length message
  obtain ⟨marked, after, stored, filled, spare⟩ := padding_fills 64 absorbed.area
    absorbed.rest (by rw [restLength]; exact Nat.mod_lt _ (by decide)) (Nat.le_refl _)
  obtain rfl : after = [] := List.eq_nil_of_length_eq_zero spare
  have position : s.blockIdx = (restPart message).length := absorbed.index.trans restLength.symm
  have length : (restPart message ++ 0x80 ::
      List.replicate (63 - (restPart message).length) 0).length = 64 := by
    rw [List.length_append, List.length_cons, List.length_replicate]
    omega
  have front : (restPart message ++ 0x80 ::
      List.replicate (63 - (restPart message).length) 0).take 56 = (restPart message).take 56 :=
    List.take_append_of_le_length (by omega)
  have frontLength : ((restPart message).take 56).length = 56 := by
    rw [List.length_take]
    omega
  have pad : sha1Pad s = .ok { s with
      block := restPart message ++ 0x80 :: List.replicate (63 - (restPart message).length) 0
      blockIdx := 64
      md := beforeLast message } := by
    rw [sha1Pad, if_pos (by rw [absorbed.index]; omega), position, stored]
    show (zeroFill 64 marked ((restPart message).length + 1)).bind _ = _
    rw [filled, List.append_nil]
    show (inside (sha1ProcessMd (restPart message ++ 0x80 ::
      List.replicate (63 - (restPart message).length) 0) s.md)).bind _ = _
    rw [sha1ProcessMd_eq length, absorbed.words]
    show (zeroFill 56 _ 64).bind _ = _
    rw [zeroFill_past (by decide)]
    rfl
  rw [pad]
  show (inside (ByteArea.write (restPart message ++ 0x80 ::
    List.replicate (63 - (restPart message).length) 0) 56 (sha1Length s.lenHi s.lenLo))).bind _ = _
  rw [sha1Length_eq absorbed.length, ← List.take_append_drop 56 (restPart message ++ 0x80 ::
    List.replicate (63 - (restPart message).length) 0), front, write_length_bytes frontLength]
  · show inside (sha1ProcessMd (lastBlock _ message) (beforeLast message)) = _
    rw [sha1ProcessMd_eq]
    · rfl
    · rw [lastBlock, List.length_append, frontLength, Sha1.lengthBytes_length]
  · rw [List.length_drop, length, Sha1.lengthBytes_length]

/-- Nothing is seen at the start. -/
theorem absorbed_start {block : List UInt8} (area : block.length = 64) :
    Absorbed [] { block, blockIdx := 0, lenLo := 0, lenHi := 0, md := Sha1.initial } where
  area := area
  rest := List.nil_prefix
  index := rfl
  length := by rw [List.length_nil, UInt32.toNat_zero, Nat.zero_mul]
  words := by rw [fullPart, List.take_nil, Sha1.absorb, Sha1.blocks, List.length_nil]; rfl

/-- The words that are computed; nothing outside the block is touched. -/
theorem sha1Words_eq {block message : List UInt8} (area : block.length = 64)
    (short : message.length < 2 ^ 61) :
    sha1Words block message = .ok (if message.length % 64 < 56 then Sha1.digest message
      else Sha1.compress (beforeLast message)
        (lastBlock ((restPart message).take 56) message)) := by
  obtain ⟨s, turns, absorbed⟩ := sha1Turns_absorbed message (absorbed_start area)
    (by rw [List.length_nil, Nat.zero_add]; exact short)
  rw [List.nil_append] at absorbed
  rw [sha1Words]
  show (message.foldlM sha1Turn ⟨block, 0, 0, 0, Sha1.initial⟩).bind _ = _
  rw [turns]
  by_cases room : message.length % 64 < 56
  · rw [if_pos room]
    exact finish_short absorbed room
  · rw [if_neg room]
    exact finish_long absorbed (Nat.le_of_not_lt room)

/-- The digest of a source whose length needs a block of its own. -/
theorem digest_lastBlock {message : List UInt8} (long : 56 ≤ message.length % 64) :
    Sha1.digest message =
      Sha1.compress (beforeLast message) (lastBlock (List.replicate 56 0) message) := by
  have restLength := restPart_length message
  have digest := Sha1.digest_long (fullPart_length message)
    (show 56 ≤ (restPart message).length by rw [restLength]; exact long)
    (by rw [restLength]; exact Nat.mod_lt _ (by decide))
  rw [full_rest] at digest
  exact digest

/-- Five words take 20 bytes. -/
theorem memory_length (layout : Layout) (words : Words) : (layout.memory words).length = 20 := by
  simp only [Layout.memory, List.length_append, layout.length]

/-- The words are known from their memory. -/
theorem memory_injective {layout : Layout} {words other : Words}
    (same : layout.memory words = layout.memory other) : words = other := by
  simp only [Layout.memory] at same
  obtain ⟨same, e⟩ := List.append_inj' same (by rw [layout.length, layout.length])
  obtain ⟨same, d⟩ := List.append_inj' same (by rw [layout.length, layout.length])
  obtain ⟨same, c⟩ := List.append_inj' same (by rw [layout.length, layout.length])
  obtain ⟨a, b⟩ := List.append_inj' same (by rw [layout.length, layout.length])
  obtain ⟨a1, b1, c1, d1, e1⟩ := words
  obtain ⟨a2, b2, c2, d2, e2⟩ := other
  rw [Words.mk.injEq]
  exact ⟨layout.injective _ _ a, layout.injective _ _ b, layout.injective _ _ c,
    layout.injective _ _ d, layout.injective _ _ e⟩

/-- The code and the destination, for a source and a destination of the asked lengths. -/
theorem sha1_stores {layout : Layout} {block message dst : List UInt8} {md : Words}
    (words : sha1Words block message = .ok md) (nonempty : 1 ≤ message.length)
    (room : 20 ≤ dst.length) :
    sha1 layout block (some message) (some dst) =
      some (20, some (layout.memory md ++ dst.drop 20)) := by
  have wrote := ByteArea.write_between [] (dst.take 20) (layout.memory md) (dst.drop 20)
    (by rw [memory_length, List.length_take, Nat.min_eq_left room])
  rw [List.nil_append, List.take_append_drop] at wrote
  rw [sha1]
  simp only [words]
  rw [if_neg (Nat.not_lt_of_le nonempty), if_neg (Nat.not_lt_of_le room)]
  show Option.map _ (ByteArea.write dst ([] : List UInt8).length (layout.memory md)) = _
  rw [wrote]
  rfl

/-- 20 is returned, and the digest of the source is in the destination. -/
def Hashes (layout : Layout) (block message dst : List UInt8) : Prop :=
  sha1 layout block (some message) (some dst) =
    some (20, some (layout.memory (Sha1.digest message) ++ dst.drop 20))

/-- The digest is stored just when the words are those of the digest. -/
theorem hashes_iff_words {layout : Layout} {block message dst : List UInt8} {md : Words}
    (words : sha1Words block message = .ok md) (nonempty : 1 ≤ message.length)
    (room : 20 ≤ dst.length) :
    Hashes layout block message dst ↔ md = Sha1.digest message := by
  rw [Hashes, sha1_stores words nonempty room]
  constructor
  · intro same
    have memory := Option.some.inj (congrArg Prod.snd (Option.some.inj same))
    exact memory_injective (List.append_cancel_right memory)
  · intro same
    rw [same]

/-- The digest is stored when the rest behind the full blocks has less than 56 bytes, when it
starts with 56 zeros, or when its start is mixed to the same words as zeros are. -/
theorem hashes_iff (layout : Layout) {block message dst : List UInt8} (area : block.length = 64)
    (nonempty : 1 ≤ message.length) (short : message.length < 2 ^ 61) (room : 20 ≤ dst.length) :
    Hashes layout block message dst ↔
      message.length % 64 < 56 ∨ (restPart message).take 56 = List.replicate 56 0 ∨
        Sha1.Collides (beforeLast message) (lastBlock ((restPart message).take 56) message)
          (lastBlock (List.replicate 56 0) message) := by
  rw [hashes_iff_words (sha1Words_eq area short) nonempty room]
  by_cases fits : message.length % 64 < 56
  · rw [if_pos fits]
    constructor
    · intro _
      exact Or.inl fits
    · intro _
      rfl
  · rw [if_neg fits, digest_lastBlock (Nat.le_of_not_lt fits)]
    constructor
    · intro same
      by_cases zeros : (restPart message).take 56 = List.replicate 56 0
      · exact Or.inr (Or.inl zeros)
      · apply Or.inr
        apply Or.inr
        constructor
        · intro blocks
          exact zeros (List.append_cancel_right blocks)
        · exact same
    · rintro (less | zeros | collision)
      · exact absurd less fits
      · rw [zeros]
      · exact collision.2

/-- A byte of the memory of a word. -/
theorem shifted_toNat (word place : UInt32) (less : place.toNat < 32) :
    (word >>> place).toUInt8.toNat = word.toNat / 2 ^ place.toNat % 256 := by
  rw [UInt32.toNat_toUInt8, UInt32.toNat_shiftRight, Nat.mod_eq_of_lt less,
    Nat.shiftRight_eq_div_pow]

/-- A word is known from its four bytes. -/
theorem littleEndian_injective (word other : UInt32)
    (same : littleEndian word = littleEndian other) : word = other := by
  have wordLess := word.toNat_lt
  have otherLess := other.toNat_lt
  simp only [littleEndian, List.cons.injEq] at same
  obtain ⟨first, second, third, fourth, _⟩ := same
  have first := congrArg UInt8.toNat first
  have second := congrArg UInt8.toNat second
  have third := congrArg UInt8.toNat third
  have fourth := congrArg UInt8.toNat fourth
  rw [UInt32.toNat_toUInt8, UInt32.toNat_toUInt8] at first
  rw [shifted_toNat _ _ (by decide), shifted_toNat _ _ (by decide)] at second third fourth
  have eight : (8 : UInt32).toNat = 8 := rfl
  have sixteen : (16 : UInt32).toNat = 16 := rfl
  have twentyFour : (24 : UInt32).toNat = 24 := rfl
  rw [eight] at second
  rw [sixteen] at third
  rw [twentyFour] at fourth
  apply UInt32.toNat_inj.mp
  omega

/-- The layout of a machine that stores the lowest byte first. -/
def littleEndianLayout : Layout := ⟨littleEndian, fun _ => rfl, littleEndian_injective⟩

/-- One letter is hashed. -/
theorem hashes_iff_letter :
    Hashes littleEndianLayout (List.replicate 64 0) [0x7a] (List.replicate 20 0) ↔
      [(0x7a : UInt8)].length % 64 < 56 ∨
      (restPart [0x7a]).take 56 = List.replicate 56 0 ∨
        Sha1.Collides (beforeLast [0x7a]) (lastBlock ((restPart [0x7a]).take 56) [0x7a])
          (lastBlock (List.replicate 56 0) [0x7a]) :=
  hashes_iff littleEndianLayout (by decide) (by decide) (by decide) (by decide)

/-- The words that the code computes are those of the block. -/
theorem compress_of_process {block : List UInt8} {md after : Words} (length : block.length = 64)
    (computed : sha1ProcessMd block md = some after) : Sha1.compress md block = after := by
  rw [sha1ProcessMd_eq length] at computed
  exact Option.some.inj computed

/-- The digest of 56 ones is not stored. -/
theorem not_hashes :
    ¬ Hashes littleEndianLayout (List.replicate 64 0) (List.replicate 56 1)
      (List.replicate 20 0) := by
  have before : beforeLast (List.replicate 56 1) =
      ⟨2179151503, 2806365882, 2951018715, 120533553, 1306197652⟩ :=
    compress_of_process (by decide +kernel) (by decide +kernel)
  have stale : Sha1.compress ⟨2179151503, 2806365882, 2951018715, 120533553, 1306197652⟩
      (lastBlock ((restPart (List.replicate 56 1)).take 56) (List.replicate 56 1)) =
      ⟨2100002222, 1208823617, 3782140548, 27946514, 805732282⟩ :=
    compress_of_process (by decide +kernel) (by decide +kernel)
  have zeros : Sha1.compress ⟨2179151503, 2806365882, 2951018715, 120533553, 1306197652⟩
      (lastBlock (List.replicate 56 0) (List.replicate 56 1)) =
      ⟨3051135709, 2535040089, 2161542012, 1525429078, 1853315835⟩ :=
    compress_of_process (by decide +kernel) (by decide +kernel)
  have long : ¬ (List.replicate 56 (1 : UInt8)).length % 64 < 56 := by
    rw [List.length_replicate]
    decide
  rw [hashes_iff_words (sha1Words_eq List.length_replicate (by decide +kernel)) (by decide)
    (by decide), if_neg long, digest_lastBlock (Nat.le_of_not_lt long), before, stale, zeros]
  decide

end Ezcfg.Util

import Ezcfg.Http.Handle
import Ezcfg.Util.Base64

/-!
# Encoding base64

The encoder writes four symbols for three bytes, and fills a last group up. The decoder
gives back what was encoded. Neither pointer is NULL. Reading behind the source, looking up
behind the table and a count that an int cannot hold have no result.
-/

namespace Ezcfg.Util

open Foundation.Base64

/-- The place for a result. An object of the target is smaller than 2^31 bytes. -/
structure Place where
  size : Nat
  small : size < 2 ^ 31

/-- `b64_encode_table` -/
def b64EncodeTable : List UInt8 :=
  Http.ascii "ABCDEFGHIJKLMNOPQRSTUVWXYZabcdefghijklmnopqrstuvwxyz0123456789+/"

/-- The entry of the table for a number. -/
def encoded (n : Nat) : Option UInt8 := b64EncodeTable[n]?

/-- What is written, where the source goes on, and the count. -/
structure Encoding where
  dst : List UInt8
  src : List UInt8
  count : Int

/-- Four symbols are written; `count += 4`. -/
def Encoding.write (encoding : Encoding) (symbols src : List UInt8) : Option Encoding :=
  if encoding.count + 4 < 2 ^ 31 then
    some ⟨encoding.dst ++ symbols, src, encoding.count + 4⟩
  else none

/-- The loop over the full groups, with the turns that are left. -/
def encodeFulls : Nat → Encoding → Option Encoding
  | 0, encoding => some encoding
  | turns + 1, encoding =>
    match encoding.src with
    | c0 :: c1 :: c2 :: src => do
      let first ← encoded (c0.toNat >>> 2)
      let second ← encoded (((c0.toNat <<< 4) ||| (c1.toNat >>> 4)) &&& 0x3f)
      let third ← encoded (((c1.toNat <<< 2) ||| (c2.toNat >>> 6)) &&& 0x3f)
      let fourth ← encoded (c2.toNat &&& 0x3f)
      let encoding ← encoding.write [first, second, third, fourth] src
      encodeFulls turns encoding
    | _ => none

/-- The branches for a last group that is not full. -/
def encodeTail (b64Mod : Nat) (encoding : Encoding) : Option Encoding :=
  if b64Mod = 1 then
    match encoding.src with
    | c0 :: src => do
      let first ← encoded ((c0.toNat &&& 0xfc) >>> 2)
      let second ← encoded ((c0.toNat &&& 0x03) <<< 4)
      encoding.write [first, second, pad, pad] src
    | [] => none
  else if b64Mod = 2 then
    match encoding.src with
    | c0 :: c1 :: src => do
      let first ← encoded ((c0.toNat &&& 0xfc) >>> 2)
      let second ← encoded (((c0.toNat &&& 0x03) <<< 4) ||| ((c1.toNat &&& 0xf0) >>> 4))
      let third ← encoded ((c1.toNat &&& 0x0f) <<< 2)
      encoding.write [first, second, third, pad] src
    | _ => none
  else some encoding

/-- `ezcfg_util_base64_encode`: the code and what is written. -/
def base64Encode (src : List UInt8) (srcLen : Nat) (dst : Place) : Option (Int × List UInt8) :=
  let b64Div := srcLen / 3
  let b64Mod := srcLen % 3
  if dst.size < (b64Div + (b64Mod + 2) / 3) * 4 + 1 then some (-1, [])
  else do
    let encoding ← encodeFulls b64Div ⟨[], src, 0⟩
    let encoding ← encodeTail b64Mod encoding
    return (encoding.count, encoding.dst ++ [0])

/-! ## Symbols -/

/-- The table has the symbol of every digit. -/
theorem encoded_eq {digit : Nat} (small : digit < 64) : encoded digit = some (symbol digit) := by
  have checked : ∀ d : Fin 64, encoded d = some (symbol d) := by decide +kernel
  exact checked ⟨digit, small⟩

/-- The mask for a digit. -/
theorem digit_mask (n : Nat) : n &&& 0x3f = n % 64 := Nat.and_two_pow_sub_one_eq_mod n 6

/-- Shifted bits and those below them. -/
theorem shift_or {low count : Nat} (high : Nat) (small : low < 2 ^ count) :
    (high <<< count) ||| low = high * 2 ^ count + low := by
  rw [Nat.shiftLeft_eq, Nat.mul_comm, Nat.two_pow_add_eq_or_of_lt small]

section Digits

variable (a b c : UInt8)

/-- The first digit. -/
theorem first_digit : encoded (a.toNat >>> 2) = some (symbol (number a b c / 2 ^ 18)) := by
  have middle := b.toNat_lt
  have low := c.toNat_lt
  have digit : a.toNat >>> 2 = number a b c / 2 ^ 18 := by
    rw [Nat.shiftRight_eq_div_pow, number]
    omega
  rw [digit, encoded_eq (leading_lt a b c)]

/-- The second digit. -/
theorem second_digit : encoded (((a.toNat <<< 4) ||| (b.toNat >>> 4)) &&& 0x3f) =
    some (symbol (number a b c / 2 ^ 12 % 64)) := by
  have middle := b.toNat_lt
  have low := c.toNat_lt
  have part : b.toNat >>> 4 < 2 ^ 4 := by
    rw [Nat.shiftRight_eq_div_pow]
    omega
  have digit : ((a.toNat <<< 4) ||| (b.toNat >>> 4)) &&& 0x3f = number a b c / 2 ^ 12 % 64 := by
    rw [shift_or _ part, digit_mask, Nat.shiftRight_eq_div_pow, number]
    omega
  rw [digit, encoded_eq (place_lt _)]

/-- The third digit. -/
theorem third_digit : encoded (((b.toNat <<< 2) ||| (c.toNat >>> 6)) &&& 0x3f) =
    some (symbol (number a b c / 2 ^ 6 % 64)) := by
  have low := c.toNat_lt
  have part : c.toNat >>> 6 < 2 ^ 2 := by
    rw [Nat.shiftRight_eq_div_pow]
    omega
  have digit : ((b.toNat <<< 2) ||| (c.toNat >>> 6)) &&& 0x3f = number a b c / 2 ^ 6 % 64 := by
    rw [shift_or _ part, digit_mask, Nat.shiftRight_eq_div_pow, number]
    omega
  rw [digit, encoded_eq (place_lt _)]

/-- The fourth digit. -/
theorem fourth_digit : encoded (c.toNat &&& 0x3f) = some (symbol (number a b c % 64)) := by
  have digit : c.toNat &&& 0x3f = number a b c % 64 := by
    rw [digit_mask, number]
    omega
  rw [digit, encoded_eq (place_lt _)]

/-- The first digit of a last group. -/
theorem tail_first :
    encoded ((a.toNat &&& 0xfc) >>> 2) = some (symbol (number a b c / 2 ^ 18)) := by
  have high := a.toNat_lt
  have same : (a.toNat &&& 0xfc) >>> 2 = a.toNat >>> 2 := by
    rw [Nat.shiftRight_and_distrib]
    show a.toNat >>> 2 &&& 0x3f = _
    rw [digit_mask, Nat.shiftRight_eq_div_pow]
    omega
  rw [same]
  exact first_digit a b c

/-- The second digit of a last byte. -/
theorem tail_last : encoded ((a.toNat &&& 0x03) <<< 4) =
    some (symbol (number a 0 0 / 2 ^ 12 % 64)) := by
  have low : a.toNat &&& 0x03 = a.toNat % 4 := Nat.and_two_pow_sub_one_eq_mod _ 2
  have digit : (a.toNat &&& 0x03) <<< 4 = number a 0 0 / 2 ^ 12 % 64 := by
    rw [low, Nat.shiftLeft_eq, number]
    show _ = (a.toNat * 2 ^ 16 + 0 * 2 ^ 8 + 0) / 2 ^ 12 % 64
    omega
  rw [digit, encoded_eq (place_lt _)]

/-- The second digit of two last bytes. -/
theorem tail_second :
    encoded (((a.toNat &&& 0x03) <<< 4) ||| ((b.toNat &&& 0xf0) >>> 4)) =
      some (symbol (number a b 0 / 2 ^ 12 % 64)) := by
  have middle := b.toNat_lt
  have low : a.toNat &&& 0x03 = a.toNat % 4 := Nat.and_two_pow_sub_one_eq_mod _ 2
  have part : (b.toNat &&& 0xf0) >>> 4 = b.toNat / 16 % 16 := by
    rw [Nat.shiftRight_and_distrib, Nat.shiftRight_eq_div_pow]
    exact Nat.and_two_pow_sub_one_eq_mod _ 4
  have digit : ((a.toNat &&& 0x03) <<< 4) ||| ((b.toNat &&& 0xf0) >>> 4) =
      number a b 0 / 2 ^ 12 % 64 := by
    have below : b.toNat / 16 % 16 < 2 ^ 4 := Nat.mod_lt _ (by decide)
    rw [part, shift_or _ below, low, number]
    show _ = (a.toNat * 2 ^ 16 + b.toNat * 2 ^ 8 + 0) / 2 ^ 12 % 64
    omega
  rw [digit, encoded_eq (place_lt _)]

/-- The third digit of two last bytes. -/
theorem tail_third : encoded ((b.toNat &&& 0x0f) <<< 2) =
    some (symbol (number a b 0 / 2 ^ 6 % 64)) := by
  have low : b.toNat &&& 0x0f = b.toNat % 16 := Nat.and_two_pow_sub_one_eq_mod _ 4
  have digit : (b.toNat &&& 0x0f) <<< 2 = number a b 0 / 2 ^ 6 % 64 := by
    rw [low, Nat.shiftLeft_eq, number]
    show _ = (a.toNat * 2 ^ 16 + b.toNat * 2 ^ 8 + 0) / 2 ^ 6 % 64
    omega
  rw [digit, encoded_eq (place_lt _)]

end Digits

/-! ## The text -/

/-- A full group is encoded in one turn. -/
theorem encodeFulls_succ (turns : Nat) (a b c : UInt8) (dst src : List UInt8) {count : Int}
    (small : count + 4 < 2 ^ 31) :
    encodeFulls (turns + 1) ⟨dst, a :: b :: c :: src, count⟩ =
      encodeFulls turns ⟨dst ++ [symbol (number a b c / 2 ^ 18),
        symbol (number a b c / 2 ^ 12 % 64), symbol (number a b c / 2 ^ 6 % 64),
        symbol (number a b c % 64)], src, count + 4⟩ := by
  rw [encodeFulls]
  simp only [first_digit a b c, second_digit a b c, third_digit a b c, fourth_digit a b c,
    Option.bind_eq_bind, Option.bind_some]
  rw [Encoding.write, if_pos small]
  rfl

/-- The loop and the branches behind it encode the bytes. The induction takes the groups one
by one. -/
theorem encode_bytes (bytes behind dst : List UInt8) {count : Int}
    (small : count + (encode bytes).length < 2 ^ 31) :
    ∃ encoding, encodeFulls (bytes.length / 3) ⟨dst, bytes ++ behind, count⟩ = some encoding ∧
      encodeTail (bytes.length % 3) encoding =
        some ⟨dst ++ encode bytes, behind, count + (encode bytes).length⟩ := by
  induction bytes using encode.induct generalizing dst count with
  | case1 =>
    refine ⟨_, rfl, ?_⟩
    rw [encode, List.append_nil, List.length_nil, Int.natCast_zero, Int.add_zero]
    rfl
  | case2 a =>
    have none : [a].length / 3 = 0 := by simp
    refine ⟨⟨dst, a :: behind, count⟩, by rw [none]; rfl, ?_⟩
    have one : [a].length % 3 = 1 := by simp
    rw [one]
    show (encoded ((a.toNat &&& 0xfc) >>> 2)).bind _ = _
    rw [tail_first a 0 0, Option.bind_some]
    show (encoded ((a.toNat &&& 0x03) <<< 4)).bind _ = _
    rw [tail_last a, Option.bind_some]
    exact if_pos small
  | case3 a b =>
    have none : [a, b].length / 3 = 0 := by simp
    refine ⟨⟨dst, a :: b :: behind, count⟩, by rw [none]; rfl, ?_⟩
    have two : [a, b].length % 3 = 2 := by simp
    rw [two]
    show (encoded ((a.toNat &&& 0xfc) >>> 2)).bind _ = _
    rw [tail_first a b 0, Option.bind_some]
    show (encoded (((a.toNat &&& 0x03) <<< 4) ||| ((b.toNat &&& 0xf0) >>> 4))).bind _ = _
    rw [tail_second a b, Option.bind_some]
    show (encoded ((b.toNat &&& 0x0f) <<< 2)).bind _ = _
    rw [tail_third a b, Option.bind_some]
    exact if_pos small
  | case4 a b c rest inductionHypothesis =>
    have length : (encode (a :: b :: c :: rest)).length = 4 + (encode rest).length := by
      rw [encode, List.length_append]
      rfl
    have turns : (a :: b :: c :: rest).length / 3 = rest.length / 3 + 1 := by
      simp only [List.length_cons]
      omega
    have left : (a :: b :: c :: rest).length % 3 = rest.length % 3 := by
      simp only [List.length_cons]
      omega
    rw [length, Int.natCast_add, ← Int.add_assoc] at small ⊢
    obtain ⟨encoding, run, tail⟩ := @inductionHypothesis (dst ++ [symbol (number a b c / 2 ^ 18),
      symbol (number a b c / 2 ^ 12 % 64), symbol (number a b c / 2 ^ 6 % 64),
      symbol (number a b c % 64)]) (count + 4) small
    refine ⟨encoding, ?_, ?_⟩
    · rw [turns, ← run]
      apply encodeFulls_succ
      omega
    · rw [left, tail, encode, List.append_assoc]
      rfl

/-- A byte of the alphabet. -/
def IsSymbol (byte : UInt8) : Prop := ∃ digit < 64, byte = symbol digit

/-- A digit has a symbol. -/
theorem isSymbol_place (n : Nat) : IsSymbol (symbol (n % 64)) := ⟨_, place_lt n, rfl⟩

/-- The leading digit has a symbol. -/
theorem isSymbol_leading (a b c : UInt8) : IsSymbol (symbol (number a b c / 2 ^ 18)) :=
  ⟨_, leading_lt a b c, rfl⟩

/-- Symbols behind a symbol. -/
theorem isSymbol_cons {byte : UInt8} {symbols : List UInt8} (first : IsSymbol byte)
    (others : ∀ byte ∈ symbols, IsSymbol byte) : ∀ other ∈ byte :: symbols, IsSymbol other :=
  List.forall_mem_cons.mpr ⟨first, others⟩

/-- The text is made of symbols, with at most two pads behind them. -/
theorem encode_symbols (bytes : List UInt8) :
    ∃ symbols pads, encode bytes = symbols ++ List.replicate pads pad ∧ pads ≤ 2 ∧
      ∀ byte ∈ symbols, IsSymbol byte := by
  induction bytes using encode.induct with
  | case1 => exact ⟨[], 0, rfl, by decide, by simp⟩
  | case2 a =>
    refine ⟨[symbol (number a 0 0 / 2 ^ 18), symbol (number a 0 0 / 2 ^ 12 % 64)], 2, rfl,
      by decide, ?_⟩
    apply isSymbol_cons (isSymbol_leading a 0 0)
    exact isSymbol_cons (isSymbol_place _) (by simp)
  | case3 a b =>
    refine ⟨[symbol (number a b 0 / 2 ^ 18), symbol (number a b 0 / 2 ^ 12 % 64),
      symbol (number a b 0 / 2 ^ 6 % 64)], 1, rfl, by decide, ?_⟩
    apply isSymbol_cons (isSymbol_leading a b 0)
    exact isSymbol_cons (isSymbol_place _) (isSymbol_cons (isSymbol_place _) (by simp))
  | case4 a b c rest inductionHypothesis =>
    obtain ⟨symbols, pads, parts, few, all⟩ := inductionHypothesis
    refine ⟨[symbol (number a b c / 2 ^ 18), symbol (number a b c / 2 ^ 12 % 64),
      symbol (number a b c / 2 ^ 6 % 64), symbol (number a b c % 64)] ++ symbols, pads, ?_, few, ?_⟩
    · rw [encode, parts, List.append_assoc]
    · apply isSymbol_cons (isSymbol_leading a b c)
      apply isSymbol_cons (isSymbol_place _)
      exact isSymbol_cons (isSymbol_place _) (isSymbol_cons (isSymbol_place _) all)

/-- The encoder writes four characters for every group, and the decoder gives back what was
encoded. -/
theorem base64_roundTrip (bytes behind after : List UInt8) (dst : Place) (dstLen : Nat)
    (room : (bytes.length + 2) / 3 * 4 + 1 ≤ dst.size)
    (decodedRoom : (bytes.length + 2) / 3 * 3 + 1 ≤ dstLen) :
    ∃ text : List UInt8, base64Encode (bytes ++ behind) bytes.length dst =
        some ((((bytes.length + 2) / 3 * 4 : Nat) : Int), text ++ [0]) ∧
      text.length = (bytes.length + 2) / 3 * 4 ∧
      (∃ symbols pads, text = symbols ++ List.replicate pads pad ∧ pads ≤ 2 ∧
        ∀ byte ∈ symbols, IsSymbol byte) ∧
      base64Decode (text ++ after) text.length dstLen =
        some ((bytes.length : Int), bytes ++ [0]) := by
  have length := length_encode bytes
  have small := dst.small
  obtain ⟨encoding, run, tail⟩ := @encode_bytes bytes behind [] 0 (by omega)
  refine ⟨encode bytes, ?_, length, encode_symbols bytes, ?_⟩
  · have groups : (bytes.length / 3 + (bytes.length % 3 + 2) / 3) * 4 + 1 ≤ dst.size := by omega
    rw [base64Encode, if_neg (Nat.not_lt.mpr groups), run]
    show (encodeTail (bytes.length % 3) encoding).bind _ = _
    rw [tail, length, Int.zero_add]
    rfl
  · apply base64Decode_encode
    omega

/-- A letter makes two symbols and two pads. -/
theorem base64_roundTrip_letter : ∃ text : List UInt8,
    base64Encode ([0x6b] ++ []) 1 ⟨5, by decide⟩ = some (4, text ++ [0]) ∧ text.length = 4 ∧
      (∃ symbols pads, text = symbols ++ List.replicate pads pad ∧ pads ≤ 2 ∧
        ∀ byte ∈ symbols, IsSymbol byte) ∧
      base64Decode (text ++ [0]) text.length 4 = some (1, [0x6b] ++ [0]) :=
  base64_roundTrip [0x6b] [] [0] ⟨5, by decide⟩ 4 (by decide) (by decide)

end Ezcfg.Util

import Ezcfg.Foundation.Base64

/-!
# Decoding base64

The decoder turns over the text in groups. It looks at a pad before it reads the symbol
in that place, so the pointer stays in front of the pads of a last group. Reading behind
the text, and looking up a byte that is behind the table, has no result. The value of a
turn is in the range of int32, where shifts and masks are those of the naturals. Neither
pointer is NULL; the place for the result is given by its size.
-/

namespace Ezcfg.Util

open Foundation.Base64

/-- `b64_decode_table` -/
def b64DecodeTable : List Nat := [
  0, 0, 0, 0, 0, 0, 0, 0, 0, 0, 0, 0, 0, 0, 0, 0, 0, 0, 0, 0, 0, 0, 0, 0,
  0, 0, 0, 0, 0, 0, 0, 0, 0, 0, 0, 0, 0, 0, 0, 0, 0, 0, 0,
  62,
  0, 0, 0,
  63,
  52, 53, 54, 55, 56, 57, 58, 59, 60, 61,
  0, 0, 0, 0, 0, 0, 0,
  0, 1, 2, 3, 4, 5, 6, 7, 8, 9, 10, 11, 12, 13, 14, 15, 16, 17, 18, 19, 20, 21, 22, 23, 24, 25,
  0, 0, 0, 0, 0, 0,
  26, 27, 28, 29, 30, 31, 32, 33, 34, 35, 36, 37, 38, 39, 40, 41, 42, 43, 44, 45, 46, 47, 48, 49,
  50, 51]

/-- The entry of the table for a byte. -/
def decoded (byte : UInt8) : Option Nat := b64DecodeTable[byte.toNat]?

/-- The third part of a turn: the fourth symbol. Gives the bytes of the turn and the place
of the pointer. -/
def decodeFourth (written : List UInt8) (val : Nat) : List UInt8 → Option (List UInt8 × List UInt8)
  | [] => none
  | byte :: src =>
    if byte ≠ pad then do
      let val := val + (← decoded byte)
      return (written ++ [UInt8.ofNat (val &&& 0x000000ff)], src)
    else some (written, byte :: src)

/-- The second part of a turn: the third symbol and what follows. -/
def decodeThird (written : List UInt8) (val : Nat) : List UInt8 → Option (List UInt8 × List UInt8)
  | [] => none
  | byte :: src =>
    if byte ≠ pad then do
      let val := val + (← decoded byte) <<< 6
      decodeFourth (written ++ [UInt8.ofNat ((val &&& 0x0000ff00) >>> 8)]) val src
    else some (written, byte :: src)

/-- One turn. -/
def decodeTurn : List UInt8 → Option (List UInt8 × List UInt8)
  | first :: second :: src => do
    let val := (← decoded first) <<< 18
    let val := val + (← decoded second) <<< 12
    decodeThird [UInt8.ofNat ((val &&& 0x00ff0000) >>> 16)] val src
  | _ => none

/-- So many turns. -/
def decodeTurns : Nat → List UInt8 → Option (List UInt8)
  | 0, _ => some []
  | count + 1, src => do
    let (written, src) ← decodeTurn src
    let others ← decodeTurns count src
    return written ++ others

/-- `ezcfg_util_base64_decode`: the code and what is written. -/
def base64Decode (src : List UInt8) (srcLen dstLen : Nat) : Option (Int × List UInt8) :=
  if srcLen % 4 ≠ 0 then some (-1, [])
  else if dstLen < srcLen / 4 * 3 + 1 then some (-1, [])
  else do
    let written ← decodeTurns (srcLen / 4) src
    return (written.length, written ++ [0])

/-- The table has the digit of every symbol, and no symbol is the pad. -/
theorem decoded_symbol {digit : Nat} (small : digit < 64) :
    decoded (symbol digit) = some digit ∧ symbol digit ≠ pad := by
  have checked : ∀ d : Fin 64, decoded (symbol d) = some d.val ∧ symbol d ≠ pad := by decide
  exact checked ⟨digit, small⟩

/-- The byte of a value that a mask and a shift take out. -/
theorem masked (val count : Nat) :
    (val &&& 0xff <<< count) >>> count = val / 2 ^ count % 256 := by
  rw [Nat.shiftRight_and_distrib, Nat.shiftLeft_shiftRight, Nat.shiftRight_eq_div_pow]
  exact Nat.and_two_pow_sub_one_eq_mod _ 8

/-- The fourth part reads a symbol. -/
theorem decodeFourth_symbol (written : List UInt8) (val : Nat) {digit : Nat} (small : digit < 64)
    (src : List UInt8) :
    decodeFourth written val (symbol digit :: src) =
      some (written ++ [UInt8.ofNat ((val + digit) % 256)], src) := by
  obtain ⟨value, other⟩ := decoded_symbol small
  have low : (val + digit) &&& 0x000000ff = (val + digit) % 256 :=
    Nat.and_two_pow_sub_one_eq_mod _ 8
  rw [decodeFourth, if_pos other, value, ← low]
  rfl

/-- The third part reads a symbol. -/
theorem decodeThird_symbol (written : List UInt8) (val : Nat) {digit : Nat} (small : digit < 64)
    (src : List UInt8) :
    decodeThird written val (symbol digit :: src) =
      decodeFourth (written ++ [UInt8.ofNat ((val + digit * 2 ^ 6) / 2 ^ 8 % 256)])
        (val + digit * 2 ^ 6) src := by
  obtain ⟨value, other⟩ := decoded_symbol small
  rw [decodeThird, if_pos other, value, ← masked, ← Nat.shiftLeft_eq]
  rfl

/-- A turn reads two symbols. -/
theorem decodeTurn_symbols {first second : Nat} (firstSmall : first < 64) (secondSmall : second < 64)
    (src : List UInt8) :
    decodeTurn (symbol first :: symbol second :: src) =
      decodeThird [UInt8.ofNat ((first * 2 ^ 18 + second * 2 ^ 12) / 2 ^ 16 % 256)]
        (first * 2 ^ 18 + second * 2 ^ 12) src := by
  rw [decodeTurn, (decoded_symbol firstSmall).1, (decoded_symbol secondSmall).1, ← masked,
    ← Nat.shiftLeft_eq, ← Nat.shiftLeft_eq]
  rfl

/-- A place of a number has a digit. -/
theorem place_lt (n : Nat) : n % 64 < 64 := Nat.mod_lt n (by decide)

/-- A turn gives back a full group. -/
theorem decodeTurn_full (a b c : UInt8) (rest src : List UInt8) :
    decodeTurn (encode (a :: b :: c :: rest) ++ src) = some ([a, b, c], encode rest ++ src) := by
  simp only [encode, List.cons_append, List.nil_append]
  rw [decodeTurn_symbols (leading_lt a b c) (place_lt _), two_digits, leading_byte,
    decodeThird_symbol _ _ (place_lt _), three_digits, middle_byte,
    decodeFourth_symbol _ _ (place_lt _)]
  have whole := ofDigits_digits (number a b c)
  rw [ofDigits] at whole
  rw [whole, last_byte]
  rfl

/-- A turn gives back a last group of two bytes. -/
theorem decodeTurn_two (a b : UInt8) (src : List UInt8) :
    decodeTurn (encode [a, b] ++ src) = some ([a, b], pad :: src) := by
  simp only [encode, List.cons_append, List.nil_append]
  rw [decodeTurn_symbols (leading_lt a b 0) (place_lt _), two_digits, leading_byte,
    decodeThird_symbol _ _ (place_lt _), three_digits, middle_byte]
  rfl

/-- A turn gives back a last byte. -/
theorem decodeTurn_one (a : UInt8) (src : List UInt8) :
    decodeTurn (encode [a] ++ src) = some ([a], pad :: pad :: src) := by
  simp only [encode, List.cons_append, List.nil_append]
  rw [decodeTurn_symbols (leading_lt a 0 0) (place_lt _), two_digits, leading_byte]
  rfl

/-- A turn is followed by the other turns. -/
theorem decodeTurns_succ (count : Nat) {src written behind others : List UInt8}
    (turn : decodeTurn src = some (written, behind))
    (next : decodeTurns count behind = some others) :
    decodeTurns (count + 1) src = some (written ++ others) := by
  rw [decodeTurns, turn]
  show (decodeTurns count behind >>= _) = _
  rw [next]
  rfl

/-- The turns give back what was encoded. The induction takes the groups one by one; the
last group leaves the pointer in front of its pads, where no turn begins. -/
theorem decodeTurns_encode (bytes src : List UInt8) :
    decodeTurns ((encode bytes).length / 4) (encode bytes ++ src) = some bytes := by
  induction bytes using encode.induct with
  | case1 => simp [encode, decodeTurns]
  | case2 a =>
    have turns : (encode [a]).length / 4 = 0 + 1 := by simp [length_encode]
    rw [turns]
    exact decodeTurns_succ 0 (decodeTurn_one a src) rfl
  | case3 a b =>
    have turns : (encode [a, b]).length / 4 = 0 + 1 := by simp [length_encode]
    rw [turns]
    exact decodeTurns_succ 0 (decodeTurn_two a b src) rfl
  | case4 a b c rest inductionHypothesis =>
    have turns : (encode (a :: b :: c :: rest)).length / 4 = (encode rest).length / 4 + 1 := by
      simp only [length_encode, List.length_cons]
      omega
    rw [turns]
    exact decodeTurns_succ _ (decodeTurn_full a b c rest src) inductionHypothesis

/-- The decoder gives back what was encoded, and terminates it, when there is room for it. -/
theorem base64Decode_encode (bytes src : List UInt8) {dstLen : Nat}
    (room : (encode bytes).length / 4 * 3 + 1 ≤ dstLen) :
    base64Decode (encode bytes ++ src) (encode bytes).length dstLen =
      some ((bytes.length : Int), bytes ++ [0]) := by
  have whole : ¬ (encode bytes).length % 4 ≠ 0 := by
    rw [length_encode]
    omega
  rw [base64Decode, if_neg whole, if_neg (Nat.not_lt.mpr room), decodeTurns_encode]
  rfl

end Ezcfg.Util

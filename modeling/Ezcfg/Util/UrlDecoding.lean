import Ezcfg.Foundation.PercentEncoding
import Ezcfg.Foundation.Terminated
import Ezcfg.Http.Handle

/-!
# Decoding URLs

`ezcfg_util_url_decode` looks at the two bytes behind a percent sign without regard to the
length of the source. It decodes every text that does not end with a cut escape, and one
that does when the destination is full before the escape is reached. The memory at the
source is the text with whatever is behind it; reading behind all of this has no result.
-/

namespace Ezcfg.Util

open Foundation Foundation.Chunked Foundation.PercentEncoding

/-- `HEXTOI` -/
def hextoi (x : UInt8) : Nat :=
  if Decimal.isDigit x then x.toNat - 0x30 else x.toNat - 0x57

/-- The two digits behind a percent sign. The second place is read when the first holds a
digit. -/
def hexPair (src : List UInt8) : Option (Option (UInt8 × UInt8)) := do
  if (← readByte src) = percent then
    let a ← src[1]?
    if isHexDigit a then
      let b ← src[2]?
      if isHexDigit b then return some (Http.toLower a, Http.toLower b) else return none
    else return none
  else return none

/-- The body of the loop of `ezcfg_util_url_decode`: what is written, and how far `i` goes. -/
def urlDecodeByte (form : Bool) (src : List UInt8) : Option (UInt8 × Nat) := do
  match ← hexPair src with
  | some (a, b) => return (UInt8.ofNat (hextoi a <<< 4 ||| hextoi b), 3)
  | none =>
    let byte ← readByte src
    return (if form ∧ byte = 0x2b then 0x20 else byte, 1)

/-- The loop of `ezcfg_util_url_decode`: `room` is `dst_len - 1 - j`, `src` the memory from
`src + i` on, and `left` is `src_len - i`, or zero when `i` has gone further. -/
def urlDecodeLoop (form : Bool) : Nat → List UInt8 → Nat → Option (List UInt8)
  | 0, _, _ => some []
  | room + 1, src, left =>
    if 0 < left then do
      let (byte, gone) ← urlDecodeByte form src
      let written ← urlDecodeLoop form room (src.drop gone) (left - gone)
      return byte :: written
    else some []

/-- `ezcfg_util_url_decode`, for a destination of at least one byte: the number that is
returned and the bytes that are written. -/
def urlDecode (src : List UInt8) (srcLen dstLen : Nat) (form : Bool) :
    Option (Nat × List UInt8) := do
  let written ← urlDecodeLoop form (dstLen - 1) src srcLen
  return (written.length, written ++ [0])

/-- What the decoder is to do: whatever stands behind the text, the start of the decoded text
that fits is written with a terminator. -/
def DecodesUrl (text : List UInt8) (dstLen : Nat) (form : Bool) : Prop :=
  ∀ behind, urlDecode (text ++ behind) text.length dstLen form =
    some (((decode form text).take (dstLen - 1)).length, (decode form text).take (dstLen - 1) ++ [0])

/-- The number of two digits. -/
theorem hextoi_pair {high low : UInt8} (highDigit : isHexDigit high) (lowDigit : isHexDigit low) :
    UInt8.ofNat (hextoi (Http.toLower high) <<< 4 ||| hextoi (Http.toLower low)) =
      escaped high low := by
  have digits : ∀ n : Fin 256, isHexDigit (UInt8.ofNat n) →
      hextoi (Http.toLower (UInt8.ofNat n)) = hexValue (UInt8.ofNat n) ∧
        hexValue (UInt8.ofNat n) < 16 := by
    decide +kernel
  have value : ∀ {digit : UInt8}, isHexDigit digit →
      hextoi (Http.toLower digit) = hexValue digit ∧ hexValue digit < 16 := by
    intro digit isDigit
    have entry := digits ⟨digit.toNat, digit.toNat_lt⟩
    rw [UInt8.ofNat_toNat] at entry
    exact entry isDigit
  obtain ⟨highValue, -⟩ := value highDigit
  obtain ⟨lowValue, small⟩ := value lowDigit
  rw [highValue, lowValue, Nat.shiftLeft_eq, Nat.mul_comm,
    ← Nat.two_pow_add_eq_or_of_lt (show hexValue low < 2 ^ 4 from small)]
  rfl

/-! ## One turn -/

/-- A text begins with `taken`, which is decoded and read in one turn. -/
structure Turn (form : Bool) (text : List UInt8) (byte : UInt8) (taken rest : List UInt8) :
    Prop where
  parts : text = taken ++ rest
  present : taken ≠ []
  noCut : ∀ cut, Cut cut → cut <:+ text → cut <:+ rest
  decoded : decode form text = byte :: decode form rest
  read : ∀ behind, urlDecodeByte form (text ++ behind) = some (byte, taken.length)

/-- What is read in front is written, and the loop goes on behind it. -/
theorem urlDecodeLoop_read {form : Bool} {src : List UInt8} {byte : UInt8} {gone left : Nat}
    (read : urlDecodeByte form src = some (byte, gone)) (positive : 0 < left) (room : Nat) :
    urlDecodeLoop form (room + 1) src left =
      (urlDecodeLoop form room (src.drop gone) (left - gone)).map (byte :: ·) := by
  rw [urlDecodeLoop, if_pos positive, read, Option.map_eq_bind]
  rfl

/-- A turn of the loop. -/
theorem Turn.run {form : Bool} {text taken rest : List UInt8} {byte : UInt8}
    (turn : Turn form text byte taken rest) (room : Nat) (behind : List UInt8) :
    urlDecodeLoop form (room + 1) (text ++ behind) text.length =
      (urlDecodeLoop form room (rest ++ behind) rest.length).map (byte :: ·) := by
  obtain ⟨rfl, present, -, -, read⟩ := turn
  have positive : 0 < (taken ++ rest).length := by
    rw [List.length_append]
    exact Nat.add_pos_left (List.length_pos_of_ne_nil present) _
  have behindIt : (taken ++ rest ++ behind).drop taken.length = rest ++ behind := by
    rw [List.append_assoc, List.drop_left]
  have left : (taken ++ rest).length - taken.length = rest.length := by
    rw [List.length_append, Nat.add_sub_cancel_left]
  rw [urlDecodeLoop_read (read behind) positive, behindIt, left]

/-- Two digits behind a percent sign are found. -/
theorem hexPair_digits {high low : UInt8} (highDigit : isHexDigit high)
    (lowDigit : isHexDigit low) (rest : List UInt8) :
    hexPair (percent :: high :: low :: rest) =
      some (some (Http.toLower high, Http.toLower low)) := by
  show (if isHexDigit high then (if isHexDigit low then _ else _) else _) = _
  rw [if_pos highDigit, if_pos lowDigit]
  rfl

/-- What is neither an escape nor a cut one has no digits, whatever stands behind it. -/
theorem hexPair_plain {byte : UInt8} {rest : List UInt8} (uncut : ¬ Cut (byte :: rest))
    (plain : ∀ high low others, byte = percent → rest = high :: low :: others →
      ¬ (isHexDigit high ∧ isHexDigit low)) (behind : List UInt8) :
    hexPair (byte :: rest ++ behind) = some none := by
  show (if byte = percent then _ else _) = _
  by_cases isPercent : byte = percent
  · subst isPercent
    rw [if_pos rfl]
    rcases rest with _ | ⟨high, _ | ⟨low, others⟩⟩
    · exact absurd (.inl rfl) uncut
    · have other : ¬ isHexDigit high := fun digit => uncut (.inr ⟨high, digit, rfl⟩)
      exact if_neg other
    · show (if isHexDigit high then (if isHexDigit low then _ else _) else _) = _
      by_cases highDigit : isHexDigit high
      · have other : ¬ isHexDigit low := fun lowDigit =>
          plain high low others rfl rfl ⟨highDigit, lowDigit⟩
        rw [if_pos highDigit, if_neg other]
        rfl
      · exact if_neg highDigit
  · exact if_neg isPercent

/-- An escape is read at once. -/
theorem read_escape (form : Bool) {high low : UInt8} (highDigit : isHexDigit high)
    (lowDigit : isHexDigit low) (rest : List UInt8) :
    urlDecodeByte form (percent :: high :: low :: rest) = some (escaped high low, 3) := by
  rw [urlDecodeByte, hexPair_digits highDigit lowDigit, ← hextoi_pair highDigit lowDigit]
  rfl

/-- An escape is a turn. -/
theorem turn_escape (form : Bool) {high low : UInt8} (highDigit : isHexDigit high)
    (lowDigit : isHexDigit low) (rest : List UInt8) :
    Turn form (percent :: high :: low :: rest) (escaped high low) [percent, high, low] rest := by
  refine ⟨rfl, List.cons_ne_nil _ _, ?_, decode_escape form highDigit lowDigit rest, ?_⟩
  · intro cut isCut isSuffix
    have front : ∀ {digit : UInt8} {others : List UInt8}, isHexDigit digit →
        cut ≠ digit :: others := by
      rintro digit others isDigit rfl
      rcases isCut with same | ⟨second, -, same⟩
      · exact percent_not_digit isDigit (List.cons.inj same).1
      · exact percent_not_digit isDigit (List.cons.inj same).1
    have whole : cut ≠ percent :: high :: low :: rest := by
      rintro rfl
      rcases isCut with same | ⟨second, -, same⟩
      · exact absurd (congrArg List.length same) (by simp)
      · exact absurd (congrArg List.length same) (by simp)
    rcases List.suffix_cons_iff.mp isSuffix with same | isSuffix
    · exact absurd same whole
    rcases List.suffix_cons_iff.mp isSuffix with same | isSuffix
    · exact absurd same (front highDigit)
    rcases List.suffix_cons_iff.mp isSuffix with same | isSuffix
    · exact absurd same (front lowDigit)
    · exact isSuffix
  · intro behind
    exact read_escape form highDigit lowDigit (rest ++ behind)

/-- Anything else is a turn, unless it is a cut escape. -/
theorem turn_literal (form : Bool) {byte : UInt8} {rest : List UInt8}
    (uncut : ¬ Cut (byte :: rest))
    (plain : ∀ high low others, byte = percent → rest = high :: low :: others →
      ¬ (isHexDigit high ∧ isHexDigit low)) :
    Turn form (byte :: rest) (literal form byte) [byte] rest := by
  refine ⟨rfl, List.cons_ne_nil _ _, ?_, decode_literal form plain, ?_⟩
  · intro cut isCut isSuffix
    rcases List.suffix_cons_iff.mp isSuffix with rfl | isSuffix
    · exact absurd isCut uncut
    · exact isSuffix
  · intro behind
    rw [urlDecodeByte, hexPair_plain uncut plain behind]
    rfl

/-- Every text that is neither empty nor a cut escape begins with a turn. -/
theorem turn_exists (form : Bool) {text : List UInt8} (present : text ≠ []) (uncut : ¬ Cut text) :
    ∃ byte taken rest, Turn form text byte taken rest := by
  obtain ⟨byte, rest, rfl⟩ := List.exists_cons_of_ne_nil present
  by_cases escape : ∃ high low others, byte = percent ∧ rest = high :: low :: others ∧
      isHexDigit high ∧ isHexDigit low
  · obtain ⟨high, low, others, rfl, rfl, highDigit, lowDigit⟩ := escape
    exact ⟨_, _, _, turn_escape form highDigit lowDigit others⟩
  · refine ⟨_, _, _, turn_literal form uncut ?_⟩
    intro high low others isPercent parts digits
    exact escape ⟨high, low, others, isPercent, parts, digits⟩

/-! ## The whole text -/

/-- A text is decoded when no cut escape ends it in front of the end of the destination. The
induction is on the room that is left. -/
theorem urlDecodeLoop_decodes (form : Bool) (room : Nat) {text : List UInt8}
    (complete : ∀ cut, Cut cut → cut <:+ text → room + cut.length ≤ (decode form text).length)
    (behind : List UInt8) :
    urlDecodeLoop form room (text ++ behind) text.length = some ((decode form text).take room) := by
  induction room generalizing text with
  | zero => rfl
  | succ room inductionHypothesis =>
    by_cases present : text = []
    · subst present
      rfl
    by_cases isCut : Cut text
    · have full := complete text isCut List.suffix_rfl
      rcases isCut with rfl | ⟨digit, -, rfl⟩
      · exact absurd full (by simp [decode])
      · exact absurd full (by simp [decode])
    obtain ⟨byte, taken, rest, turn⟩ := turn_exists form present isCut
    have later : ∀ cut, Cut cut → cut <:+ rest →
        room + cut.length ≤ (decode form rest).length := by
      intro cut cutIs isSuffix
      have whole : cut <:+ text := by
        rw [turn.parts]
        exact List.suffix_append_of_suffix isSuffix
      have enough := complete cut cutIs whole
      rw [turn.decoded, List.length_cons] at enough
      omega
    rw [turn.run, inductionHypothesis later, turn.decoded]
    rfl

/-- Letters behind a cut escape are taken for its digits, and the byte differs from the
percent sign. -/
theorem urlDecodeLoop_letters (form : Bool) (room : Nat) {cut : List UInt8} (isCut : Cut cut) :
    urlDecodeLoop form (room + 1) (cut ++ [0x41, 0x41]) cut.length ≠
      some ((decode form cut).take (room + 1)) := by
  obtain ⟨others, copied⟩ := isCut.decode_eq form
  have letter : isHexDigit 0x41 := by decide
  have read : ∃ byte, urlDecodeByte form (cut ++ [0x41, 0x41]) = some (byte, 3) ∧
      byte ≠ percent := by
    rcases isCut with rfl | ⟨digit, isDigit, rfl⟩
    · exact ⟨_, read_escape form letter letter [], by decide⟩
    · have differs : ∀ n : Fin 256, escaped (UInt8.ofNat n) 0x41 ≠ percent := by
        decide +kernel
      have other := differs ⟨digit.toNat, digit.toNat_lt⟩
      rw [UInt8.ofNat_toNat] at other
      exact ⟨_, read_escape form isDigit letter [0x41], other⟩
  have positive : 0 < cut.length := by
    rcases isCut with rfl | ⟨digit, -, rfl⟩
    · exact Nat.succ_pos _
    · exact Nat.succ_pos _
  obtain ⟨byte, result, other⟩ := read
  rw [urlDecodeLoop_read result positive, copied, List.take_succ_cons]
  intro same
  obtain ⟨written, -, whole⟩ := Option.map_eq_some_iff.mp same
  exact other (List.cons.inj whole).1

/-- A cut escape that is reached is taken for another byte when letters stand behind it. The
induction is on the length of the text. -/
theorem urlDecodeLoop_misses (form : Bool) {cut : List UInt8} (isCut : Cut cut) (size : Nat)
    {text : List UInt8} (sized : text.length = size) (isSuffix : cut <:+ text) {room : Nat}
    (reached : (decode form text).length < room + cut.length) :
    urlDecodeLoop form room (text ++ [0x41, 0x41]) text.length ≠
      some ((decode form text).take room) := by
  induction size using Nat.strong_induction_on generalizing text room with
  | _ size inductionHypothesis =>
    by_cases other : Cut text
    · obtain rfl := isCut.suffix_eq other isSuffix
      have roomy : 0 < room := by
        rw [isCut.length_decode] at reached
        omega
      obtain ⟨room, rfl⟩ := Nat.exists_eq_succ_of_ne_zero (Nat.pos_iff_ne_zero.mp roomy)
      exact urlDecodeLoop_letters form room isCut
    · have present : text ≠ [] := by
        rintro rfl
        obtain rfl := List.suffix_nil.mp isSuffix
        rcases isCut with same | ⟨digit, -, same⟩
        · exact List.cons_ne_nil _ _ same.symm
        · exact List.cons_ne_nil _ _ same.symm
      obtain ⟨byte, taken, rest, turn⟩ := turn_exists form present other
      have shorter : rest.length < size := by
        have some := List.length_pos_of_ne_nil turn.present
        rw [← sized, turn.parts, List.length_append]
        omega
      have inRest := turn.noCut cut isCut isSuffix
      rw [turn.decoded, List.length_cons] at reached
      cases room with
      | zero =>
        exact absurd rfl (@inductionHypothesis rest.length shorter rest rfl inRest 0 (by omega))
      | succ room =>
        have missed := @inductionHypothesis rest.length shorter rest rfl inRest room (by omega)
        rw [turn.run, turn.decoded, List.take_succ_cons]
        intro same
        obtain ⟨written, run, whole⟩ := Option.map_eq_some_iff.mp same
        rw [run] at missed
        exact missed (congrArg some (List.cons.inj whole).2)

/-- The decoder does its work exactly when no cut escape ends the text, or the destination is
full before it. -/
theorem decodesUrl_iff {text : List UInt8} {dstLen : Nat} {form : Bool} (positive : 0 < dstLen) :
    DecodesUrl text dstLen form ↔ ∀ cut, Cut cut → cut <:+ text →
      dstLen + cut.length ≤ (decode form text).length + 1 := by
  constructor
  · intro decodes cut isCut isSuffix
    by_contra reached
    obtain ⟨written, run, result⟩ := Option.bind_eq_some_iff.mp (decodes [0x41, 0x41])
    have missed := @urlDecodeLoop_misses form cut isCut _ text rfl isSuffix (dstLen - 1) (by omega)
    injection result with result
    injection result with _ bytes
    rw [run, List.append_cancel_right bytes] at missed
    exact missed rfl
  · intro complete behind
    have decoded := @urlDecodeLoop_decodes form (dstLen - 1) text (by
      intro cut isCut isSuffix
      have enough := complete cut isCut isSuffix
      omega) behind
    rw [urlDecode, decoded]
    rfl

/-- A form with a plus sign and an escape. -/
theorem decodesUrl_iff_form :
    DecodesUrl [0x78, 0x2b, percent, 0x32, 0x66] 8 true := by
  apply (decodesUrl_iff (by decide)).mpr
  intro cut isCut isSuffix
  obtain ⟨front, parts⟩ := isSuffix
  have backward := congrArg List.reverse parts
  rw [List.reverse_append] at backward
  rcases isCut with rfl | ⟨digit, -, rfl⟩
  · exact absurd (List.cons.inj backward).1 (by decide)
  · exact absurd (List.cons.inj (List.cons.inj backward).2).1 (by decide)

/-- A text of one percent sign takes the two digits behind it for its own. -/
theorem not_decodesUrl : ¬ ∀ (text : List UInt8) (dstLen : Nat) (form : Bool), 0 < dstLen →
    DecodesUrl text dstLen form := by
  intro decodes
  have copied := decodes [percent] 4 false (by decide) [0x34, 0x31]
  exact absurd copied (by decide)

end Ezcfg.Util

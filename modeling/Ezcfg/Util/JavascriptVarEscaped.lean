import Ezcfg.Foundation.ScriptString
import Ezcfg.Foundation.Written
import Ezcfg.Values

/-!
# Values in the script of a page

`ezcfg_util_javascript_var_escaped` counts the bytes of the result, allocates as many and fills
them. It escapes backslashes and quotes; line terminators are copied as they are.
-/

namespace Ezcfg.Util

open Foundation Foundation.ScriptString

/-- `IS_ESCAPED_CHAR` -/
def isEscapedChar (c : UInt8) : Bool := c == 0x5c || c == 0x27

/-- The loop of `var_escaped_length`. -/
def varEscapedLoop (len : Int) : List UInt8 → Int
  | [] => len
  | c :: s =>
    let len := if isEscapedChar c then toInt32 (len + 1) else len
    varEscapedLoop (toInt32 (len + 1)) s

/-- `var_escaped_length` -/
def varEscapedLength (s : List UInt8) : Int := toInt32 (varEscapedLoop 0 s + 1)

/-- `*p++ = c`; behind the object nothing can be written. -/
def storeByte (dst : Area) (p : Nat) (c : UInt8) : Option (Area × Nat) :=
  if p < dst.length then some (dst.set p (some c), p + 1) else none

/-- The loop that copies, and the terminator. -/
def copyEscaped (dst : Area) (p : Nat) : List UInt8 → Option Area
  | [] => do
    let (dst, _) ← storeByte dst p 0
    return dst
  | c :: src => do
    let (dst, p) ← if isEscapedChar c then storeByte dst p 0x5c else some (dst, p)
    let (dst, p) ← storeByte dst p c
    copyEscaped dst p src

/-- `ezcfg_util_javascript_var_escaped`: the object that is returned, or none for NULL. -/
def javascriptVarEscaped (granted : Bool) (src : Option CString) : Option (Option Area) :=
  match src with
  | none => some none
  | some src =>
    let len := varEscapedLength src.bytes
    if len < 1 then some none
    else if granted then do
      let dst ← copyEscaped (Area.fresh len.toNat) 0 src.bytes
      return some dst
    else some none

/-- As many bytes are written as were counted, and between quotes they are a literal with the
text as its value, whatever follows. -/
def StaysQuoted (src : CString) : Prop :=
  ∃ body, javascriptVarEscaped true (some src) = some (some (Area.ofString body)) ∧
    ((Area.ofString body).length : Int) = varEscapedLength src.bytes ∧
    ∀ rest, read (body ++ quote :: rest) = some (src.bytes, rest)

/-! ## The bytes that are written -/

/-- The conversion to int may be made once, behind the addition. -/
theorem toInt32_add (n more : Int) : toInt32 (toInt32 n + more) = toInt32 (n + more) := by
  unfold toInt32
  omega

/-- The loop counts the escaped bytes. -/
theorem varEscapedLoop_eq (s : List UInt8) (n : Int) :
    varEscapedLoop (toInt32 n) s = toInt32 (n + (escape s).length) := by
  induction s generalizing n with
  | nil => rw [varEscapedLoop, escape, List.length_nil, Int.natCast_zero, Int.add_zero]
  | cons c s inductionHypothesis =>
    rw [varEscapedLoop, escape, special, isEscapedChar]
    split
    · rw [toInt32_add, Int.add_assoc, toInt32_add, inductionHypothesis]
      congr 1
      rw [List.length_cons, List.length_cons]
      omega
    · rw [toInt32_add, inductionHypothesis]
      congr 1
      rw [List.length_cons]
      omega

/-- One byte more is counted for the terminator. -/
theorem varEscapedLength_eq (s : List UInt8) :
    varEscapedLength s = toInt32 ((escape s).length + 1) := by
  have counted := varEscapedLoop_eq s 0
  rw [toInt32_of_range (by omega) (by omega), Int.zero_add] at counted
  rw [varEscapedLength, counted, toInt32_add]

/-- A text becomes two times as long at most. -/
theorem escape_length (s : List UInt8) : (escape s).length ≤ 2 * s.length := by
  induction s with
  | nil => exact Nat.le_refl 0
  | cons c s inductionHypothesis =>
    rw [escape, List.length_cons]
    split
    · rw [List.length_cons, List.length_cons]
      omega
    · rw [List.length_cons]
      omega

/-- A byte is stored behind what has been written. -/
theorem storeByte_front (done : List UInt8) (left : Nat) (c : UInt8) :
    storeByte (done.map some ++ Area.fresh (left + 1)) done.length c =
      some ((done ++ [c]).map some ++ Area.fresh left, (done ++ [c]).length) := by
  have place : done.length = (done.map some).length := (List.length_map some).symm
  rw [storeByte, if_pos (by simp [Area.fresh]), List.length_append, List.length_singleton]
  congr 2
  rw [place, List.set_append_right _ _ (Nat.le_refl _), Nat.sub_self, Area.fresh,
    List.replicate_succ, List.set_cons_zero, List.map_append, List.append_assoc]
  rfl

/-- The bytes are the escaped ones, and fill the object. -/
theorem copyEscaped_eq (src done : List UInt8) :
    copyEscaped (done.map some ++ Area.fresh ((escape src).length + 1)) done.length src =
      some (Area.ofString (done ++ escape src)) := by
  induction src generalizing done with
  | nil =>
    rw [copyEscaped, escape, List.length_nil, storeByte_front, List.append_nil]
    simp [Area.ofString, Area.fresh]
  | cons c src inductionHypothesis =>
    have further : ∀ start : List UInt8,
        copyEscaped ((start ++ [c]).map some ++ Area.fresh ((escape src).length + 1))
          (start ++ [c]).length src = some (Area.ofString (start ++ c :: escape src)) := by
      intro start
      rw [inductionHypothesis, List.append_assoc]
      rfl
    rw [copyEscaped, escape, special, isEscapedChar]
    split
    · rw [List.length_cons, List.length_cons, storeByte_front, Option.bind_eq_bind, Option.bind_some]
      dsimp only
      rw [storeByte_front, Option.bind_some, further, List.append_assoc]
      rfl
    · rw [List.length_cons, Option.bind_eq_bind, Option.bind_some]
      dsimp only
      rw [storeByte_front, Option.bind_some]
      exact further done

/-- What `strdup` makes is known from its bytes. -/
theorem ofString_inj {first second : List UInt8} (same : Area.ofString first = Area.ofString second) :
    first = second := by
  rw [Area.ofString, Area.ofString, List.append_cancel_right_eq] at same
  exact List.map_injective_iff.mpr (fun c d => Option.some.inj) same

/-- A value stays in its quotes exactly when its escaped text is counted without overflow and it
has no line terminator. -/
theorem staysQuoted_iff (src : CString) :
    StaysQuoted src ↔ (escape src.bytes).length + 1 < 2 ^ 31 ∧ ¬ HasLineEnd src.bytes := by
  have short := src.short
  have twice := escape_length src.bytes
  have counted := varEscapedLength_eq src.bytes
  by_cases fits : (escape src.bytes).length + 1 < 2 ^ 31
  · rw [toInt32_of_range (by omega) (by omega)] at counted
    have filled := copyEscaped_eq src.bytes []
    rw [List.map_nil, List.nil_append, List.length_nil, List.nil_append] at filled
    have result : javascriptVarEscaped true (some src) =
        some (some (Area.ofString (escape src.bytes))) := by
      have size : (((escape src.bytes).length : Int) + 1).toNat = (escape src.bytes).length + 1 := by
        omega
      rw [javascriptVarEscaped, counted, size, if_neg (by omega), if_pos rfl, bind_of_some filled]
      rfl
    have length : ((Area.ofString (escape src.bytes)).length : Int) =
        varEscapedLength src.bytes := by
      rw [counted]
      simp [Area.ofString]
    constructor
    · rintro ⟨body, done, -, reads⟩
      refine ⟨fits, fun ends => ?_⟩
      rw [result] at done
      have same := ofString_inj (Option.some.inj (Option.some.inj done))
      have failed := (read_escape src.bytes []).2 ends
      rw [same, reads []] at failed
      cases failed
    · rintro ⟨-, whole⟩
      exact ⟨escape src.bytes, result, length, fun rest => (read_escape src.bytes rest).1 whole⟩
  · apply iff_of_false _ (fun both => fits both.1)
    rintro ⟨body, done, -⟩
    have negative : varEscapedLength src.bytes < 1 := by
      rw [counted]
      unfold toInt32
      omega
    rw [javascriptVarEscaped, if_pos negative] at done
    cases done

/-- A line feed. -/
def feed : CString := .single 0x0a (by decide)

/-- A line feed leaves the quotes. -/
theorem not_staysQuoted : ¬ ∀ src, StaysQuoted src := by
  intro stays
  obtain ⟨body, done, -, reads⟩ := stays feed
  have copied : javascriptVarEscaped true (some feed) = some (some (Area.ofString [0x0a])) := by
    decide
  rw [copied] at done
  have failed := reads []
  rw [← ofString_inj (Option.some.inj (Option.some.inj done))] at failed
  have raw : read [0x0a, quote] = none := by decide
  cases raw.symm.trans failed

end Ezcfg.Util

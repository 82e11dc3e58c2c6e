import Mathlib.Data.List.Basic

/-!
# Single-quoted strings of scripts

A string literal between single quotes ends at the first quote that no backslash escapes. It may
not contain a line terminator; in UTF-8 these are LF, CR and two sequences of three bytes. A
backslash with a byte stands for this byte, or for a control character; the longer escapes, of
digits, "x" and "u", and continued lines are not read.
-/

namespace Foundation.ScriptString

/-- "'" -/
abbrev quote : UInt8 := 0x27

/-- "\\" -/
abbrev backslash : UInt8 := 0x5c

/-- A line terminator stands here. -/
def startsLineEnd : List UInt8 → Bool
  | first :: rest =>
    first == 0x0a || first == 0x0d ||
      first == 0xe2 && (rest.take 2 == [0x80, 0xa8] || rest.take 2 == [0x80, 0xa9])
  | [] => false

/-- The single characters that stand for control characters. -/
def controls : List (UInt8 × UInt8) :=
  [(0x62, 0x08), (0x74, 0x09), (0x6e, 0x0a), (0x76, 0x0b), (0x66, 0x0c), (0x72, 0x0d)]

/-- The byte that an escape stands for. -/
def escaped (text : List UInt8) : Option UInt8 :=
  match text with
  | [] => none
  | c :: _ =>
    if startsLineEnd text ∨ 0x30 ≤ c ∧ c ≤ 0x39 ∨ c = 0x78 ∨ c = 0x75 then none
    else some ((controls.lookup c).getD c)

/-- Read a literal behind its first quote: its value, and what follows the last quote. -/
def read : List UInt8 → Option (List UInt8 × List UInt8)
  | [] => none
  | c :: rest =>
    if c = quote then some ([], rest)
    else if c = backslash then
      match rest with
      | [] => none
      | e :: behind => do
        let c ← escaped (e :: behind)
        let (value, after) ← read behind
        return (c :: value, after)
    else if startsLineEnd (c :: rest) then none
    else do
      let (value, after) ← read rest
      return (c :: value, after)

/-- The literal ends with a quote. -/
theorem read_quote (rest : List UInt8) : read (quote :: rest) = some ([], rest) := by
  rw [read.eq_def]
  exact if_pos rfl

/-- Another byte stands for itself, unless it is a line terminator. -/
theorem read_plain {c : UInt8} (plain : ¬ c = quote ∧ ¬ c = backslash) (rest : List UInt8) :
    read (c :: rest) = if startsLineEnd (c :: rest) then none else
      (read rest).map fun result => (c :: result.1, result.2) := by
  rw [read.eq_def]
  dsimp only
  rw [if_neg plain.1, if_neg plain.2]
  cases read rest <;> rfl

/-- A byte behind a backslash. -/
theorem read_escaped {e c : UInt8} {behind : List UInt8} (stands : escaped (e :: behind) = some c) :
    read (backslash :: e :: behind) = (read behind).map fun result => (c :: result.1, result.2) := by
  rw [read.eq_def]
  dsimp only
  rw [if_neg (by decide), if_pos rfl, stands]
  cases read behind <;> rfl

/-- The bytes that have to be escaped. -/
def special (c : UInt8) : Bool := c == backslash || c == quote

/-- A backslash in front of each of these. -/
def escape : List UInt8 → List UInt8
  | [] => []
  | c :: rest => if special c then backslash :: c :: escape rest else c :: escape rest

/-- A line terminator stands somewhere. -/
def HasLineEnd (text : List UInt8) : Prop := ∃ rest, rest <:+ text ∧ startsLineEnd rest

/-- Line terminators behind a byte. -/
theorem hasLineEnd_cons {c : UInt8} {text : List UInt8} :
    HasLineEnd (c :: text) ↔ startsLineEnd (c :: text) ∨ HasLineEnd text := by
  constructor
  · rintro ⟨rest, behind, starts⟩
    obtain rfl | later := List.suffix_cons_iff.mp behind
    · exact .inl starts
    · exact .inr ⟨rest, later, starts⟩
  · rintro (starts | ⟨rest, behind, starts⟩)
    · exact ⟨c :: text, List.suffix_refl _, starts⟩
    · exact ⟨rest, behind.trans (List.suffix_cons c text), starts⟩

/-- Nothing has no line terminator. -/
theorem not_hasLineEnd_nil : ¬ HasLineEnd [] := by
  rintro ⟨rest, behind, starts⟩
  rw [List.suffix_nil.mp behind] at starts
  cases starts

/-- A byte that has to be escaped starts no line terminator. -/
theorem startsLineEnd_special {c : UInt8} (isSpecial : special c = true) (text : List UInt8) :
    startsLineEnd (c :: text) = false := by
  rw [special, Bool.or_eq_true, beq_iff_eq, beq_iff_eq] at isSpecial
  obtain rfl | rfl := isSpecial
  · rfl
  · rfl

/-- The two bytes that may follow are the same ones when the text is escaped. -/
theorem take_escape (text rest : List UInt8) {first second : UInt8}
    (plainFirst : special first = false) (plainSecond : special second = false) :
    (escape text ++ quote :: rest).take 2 = [first, second] ↔ text.take 2 = [first, second] := by
  have notBackslash : ∀ c, special c = false → backslash ≠ c := by
    rintro c plain rfl
    cases plain
  have notQuote : ∀ c, special c = false → quote ≠ c := by
    rintro c plain rfl
    cases plain
  have notSpecial : ∀ c d, special c = true → special d = false → c ≠ d := by
    rintro c d isSpecial plain rfl
    rw [isSpecial] at plain
    cases plain
  have head : ∀ {c d : UInt8} {front back : List UInt8}, c ≠ d → c :: front ≠ d :: back :=
    fun other same => other (List.cons.inj same).1
  cases text with
  | nil => exact iff_of_false (head (notQuote first plainFirst)) (List.cons_ne_nil _ _).symm
  | cons c text =>
    rw [escape]
    by_cases isSpecial : special c = true
    · rw [if_pos isSpecial]
      exact iff_of_false (head (notBackslash first plainFirst))
        (head (notSpecial c first isSpecial plainFirst))
    · rw [if_neg isSpecial, List.cons_append, List.take_succ_cons, List.take_succ_cons,
        List.cons.injEq, List.cons.injEq]
      apply and_congr_right
      intro _
      cases text with
      | nil => exact iff_of_false (head (notQuote second plainSecond)) (List.cons_ne_nil _ _).symm
      | cons d text =>
        rw [escape]
        by_cases isSpecial : special d = true
        · rw [if_pos isSpecial]
          exact iff_of_false (head (notBackslash second plainSecond))
            (head (notSpecial d second isSpecial plainSecond))
        · rw [if_neg isSpecial]
          rfl

/-- Escaping leaves line terminators where they are. -/
theorem startsLineEnd_escape {c : UInt8} (text rest : List UInt8) :
    startsLineEnd (c :: (escape text ++ quote :: rest)) = startsLineEnd (c :: text) := by
  rw [startsLineEnd, startsLineEnd]
  have first := take_escape text rest (show special 0x80 = false by decide)
    (show special 0xa8 = false by decide)
  have second := take_escape text rest (show special 0x80 = false by decide)
    (show special 0xa9 = false by decide)
  rw [← beq_iff_eq, ← beq_iff_eq (b := [0x80, 0xa8]), ← Bool.eq_iff_iff] at first
  rw [← beq_iff_eq, ← beq_iff_eq (b := [0x80, 0xa9]), ← Bool.eq_iff_iff] at second
  rw [first, second]

/-- A text is read back from its escaped bytes exactly when it has no line terminator. -/
theorem read_escape (text rest : List UInt8) :
    (¬ HasLineEnd text → read (escape text ++ quote :: rest) = some (text, rest)) ∧
      (HasLineEnd text → read (escape text ++ quote :: rest) = none) := by
  induction text with
  | nil => exact ⟨fun _ => read_quote rest, fun ends => absurd ends not_hasLineEnd_nil⟩
  | cons c text inductionHypothesis =>
    obtain ⟨reads, fails⟩ := inductionHypothesis
    rw [escape, hasLineEnd_cons, not_or]
    by_cases isSpecial : special c = true
    · have stands : escaped (c :: (escape text ++ quote :: rest)) = some c := by
        rw [escaped, startsLineEnd_special isSpecial]
        rw [special, Bool.or_eq_true, beq_iff_eq, beq_iff_eq] at isSpecial
        obtain rfl | rfl := isSpecial
        · rfl
        · rfl
      rw [if_pos isSpecial, startsLineEnd_special isSpecial]
      rw [List.cons_append, List.cons_append, read_escaped stands]
      constructor
      · rintro ⟨-, whole⟩
        rw [reads whole]
        rfl
      · rintro (starts | ends)
        · cases starts
        · rw [fails ends]
          rfl
    · have plain : ¬ c = quote ∧ ¬ c = backslash := by
        rw [special, Bool.or_eq_true, beq_iff_eq, beq_iff_eq, not_or] at isSpecial
        exact ⟨isSpecial.2, isSpecial.1⟩
      rw [if_neg isSpecial, List.cons_append, read_plain plain, startsLineEnd_escape]
      constructor
      · rintro ⟨starts, whole⟩
        rw [if_neg starts, reads whole]
        rfl
      · rintro (starts | ends)
        · rw [if_pos starts]
        · rw [fails ends]
          exact ite_self none

end Foundation.ScriptString

import Ezcfg.Json.Grammar

/-!
# The parser and RFC 7159

The parser takes every string up to the next quotation mark and needs no digit behind
the sign of an exponent. So it takes texts that are not in the standard, where a token is
not; and it fails on texts of the standard with an escaped quotation mark in a string.
On all other texts it agrees with the standard.

That an escaped quotation mark always makes it fail is a matter of parity. In a text
the parser takes, quotation marks come in pairs and a reverse solidus is only inside
such a pair, so after an escaped mark an even number of marks is left. In a text of the
standard an odd number is left after the last escaped one.
-/

namespace Ezcfg.Json

open Foundation Foundation.Json

/-- A text of the standard with an object or an array at the root. -/
def Rfc7159Text (text : List UInt8) : Prop := ∃ value, DerivesText rfc7159 value text

/-- The text derives a value with the tokens of the parser of which one is no token of
the standard: a string that is not a sequence of characters and escapes, or a number
whose exponent has no digit. -/
def HasLooseToken (text : List UInt8) : Prop :=
  ∃ value, DerivesText tokens value text ∧ ¬ value.All StringBody (NumberWith ExpPart)

/-- The text is one of the standard with an escaped quotation mark in some string. -/
def HasEscapedQuote (text : List UInt8) : Prop :=
  ∃ value, DerivesText rfc7159 value text ∧ ¬ value.All (quote ∉ ·) (fun _ => True)

/-! ## Counting quotation marks -/

/-- Quotation marks come in pairs, and every reverse solidus is inside a pair. -/
def Balanced (segment : List UInt8) : Prop :=
  segment.count quote % 2 = 0 ∧
    ∀ before after, segment = before ++ backslash :: after → before.count quote % 2 = 1

/-- Without an escaped mark, quotation marks come in pairs; with one, an odd number is
left after the last of them. -/
def Parted (unescaped : Prop) (segment : List UInt8) : Prop :=
  (unescaped → segment.count quote % 2 = 0) ∧
    (¬ unescaped → ∃ before after, segment = before ++ backslash :: quote :: after ∧
      after.count quote % 2 = 1)

/-- A balanced segment has no escaped mark. -/
theorem unescaped_of_balanced {unescaped : Prop} {segment : List UInt8}
    (balanced : Balanced segment) (parted : Parted unescaped segment) : unescaped := by
  by_contra escaped
  obtain ⟨before, after, whole, odd⟩ := parted.2 escaped
  have inside := balanced.2 before (quote :: after) whole
  have total := balanced.1
  have different : backslash ≠ quote := by decide
  rw [whole, List.count_append, List.count_cons_of_ne different, List.count_cons_self] at total
  omega

/-- Neither a quotation mark nor a reverse solidus. -/
def Clean (segment : List UInt8) : Prop := quote ∉ segment ∧ backslash ∉ segment

instance (segment : List UInt8) : Decidable (Clean segment) :=
  inferInstanceAs (Decidable (_ ∧ _))

/-- Clean segments are balanced. -/
theorem Clean.balanced {segment : List UInt8} (clean : Clean segment) : Balanced segment := by
  refine ⟨by rw [List.count_eq_zero.mpr clean.1], ?_⟩
  rintro before after rfl
  exact absurd (by simp) clean.2

/-- Clean segments have no escaped mark. -/
theorem Clean.parted {segment : List UInt8} (clean : Clean segment) : Parted True segment :=
  ⟨fun _ => by rw [List.count_eq_zero.mpr clean.1], fun escaped => absurd trivial escaped⟩

/-- The marks of the grammar are clean. -/
theorem mark_clean {mark : UInt8} (member : mark ∈ marks) : Clean [mark] := by
  have all : ∀ mark ∈ marks, Clean [mark] := forall_bytes _ (by decide)
  exact all mark member

/-- Whitespace is clean. -/
theorem space_clean {byte : UInt8} (space : isSpace byte) : Clean [byte] := by
  have all : ∀ byte ∈ ([0x20, 0x09, 0x0a, 0x0d] : List UInt8), Clean [byte] :=
    forall_bytes _ (by decide)
  exact all byte (by simpa [isSpace, or_assoc] using space)

/-- Literals are clean. -/
theorem literal_clean (word : Literal) : Clean word.bytes := by
  cases word <;> decide

/-- Numbers are clean. -/
theorem number_clean {content : List UInt8} (number : NumberWith LooseExpPart content) :
    Clean content :=
  ⟨fun member => (numberByte_ne (number_bytes number quote member)).2.1 rfl,
    fun member => (numberByte_ne (number_bytes number backslash member)).2.2 rfl⟩

/-- Balanced segments in a row are balanced. -/
theorem Balanced.append {first second : List UInt8} (balanced : Balanced first)
    (further : Balanced second) : Balanced (first ++ second) := by
  refine ⟨?_, ?_⟩
  · rw [List.count_append]
    have left := balanced.1
    have right := further.1
    omega
  · intro before after split
    rcases List.append_eq_append_iff.mp split with ⟨more, rfl, rest⟩ | ⟨more, whole, rest⟩
    · have inside := further.2 more after rest
      have left := balanced.1
      rw [List.count_append]
      omega
    · cases more with
      | nil =>
        rw [List.append_nil] at whole
        have inside := further.2 [] after (by simpa using rest.symm)
        simp at inside
      | cons byte more =>
        obtain ⟨rfl, rfl⟩ := List.cons.inj rest
        exact balanced.2 before more whole

/-- A string up to the next quotation mark is balanced. -/
theorem balanced_string {content : List UInt8} (unquoted : quote ∉ content) :
    Balanced (quote :: (content ++ [quote])) := by
  have none : content.count quote = 0 := List.count_eq_zero.mpr unquoted
  refine ⟨by simp [none], ?_⟩
  intro before after split
  cases before with
  | nil =>
    have first := (List.cons.inj split).1
    exact absurd first (by decide)
  | cons byte before =>
    obtain ⟨rfl, rest⟩ := List.cons.inj split
    rcases List.append_eq_append_iff.mp rest with ⟨more, rfl, last⟩ | ⟨more, rfl, last⟩
    · -- the reverse solidus cannot be the closing mark
      cases more with
      | nil => exact absurd (List.cons.inj last).1 (by decide)
      | cons other more => simp at last
    · have inner : before.count quote = 0 := by
        rw [List.count_append] at none
        omega
      simp [inner]

/-- What the parser takes is balanced. -/
theorem balanced_composes : Composes tokens (fun _ => True) (fun _ => True)
    (fun _ => Balanced) where
  append _ _ _ _ first second := first.append second
  nothing := Clean.balanced (by decide)
  mark _ member := (mark_clean member).balanced
  space _ space := (space_clean space).balanced
  literal word := (literal_clean word).balanced
  string _ token := balanced_string token
  number _ _ token := (number_clean (number_of_tokens token)).balanced

/-- Parted segments in a row. -/
theorem Parted.append {p q : Prop} {first second : List UInt8} (parted : Parted p first)
    (further : Parted q second) : Parted (p ∧ q) (first ++ second) := by
  refine ⟨fun both => ?_, fun escaped => ?_⟩
  · have left := parted.1 both.1
    have right := further.1 both.2
    rw [List.count_append]
    omega
  · by_cases clean : q
    · obtain ⟨before, after, rfl, odd⟩ := parted.2 fun holds => escaped ⟨holds, clean⟩
      refine ⟨before, after ++ second, by simp, ?_⟩
      have right := further.1 clean
      rw [List.count_append]
      omega
    · obtain ⟨before, after, rfl, odd⟩ := further.2 clean
      exact ⟨first ++ before, after, by simp, odd⟩

/-- A string of the standard is parted by its last escaped mark. -/
theorem parted_string {content : List UInt8} (body : StringBody content) :
    Parted (quote ∉ content) (quote :: (content ++ [quote])) := by
  refine ⟨fun unquoted => ?_, fun quoted => ?_⟩
  · simp [List.count_eq_zero.mpr unquoted]
  · obtain ⟨before, after, rfl, clean⟩ := body.last_escape (not_not.mp quoted)
    exact ⟨quote :: before, after ++ [quote], by simp, by simp [List.count_eq_zero.mpr clean]⟩

/-- Texts of the standard are parted. -/
theorem parted_composes : Composes rfc7159 (quote ∉ ·) (fun _ => True) Parted where
  append _ _ _ _ first second := first.append second
  nothing := Clean.parted (by decide)
  mark _ member := (mark_clean member).parted
  space _ space := (space_clean space).parted
  literal word := (literal_clean word).parted
  string _ token := parted_string token
  number _ _ token := (number_clean (token.mono fun _ => looseExpPart_of_expPart)).parted

/-! ## Acceptance -/

/-- The parser accepts the texts that derive a value with its tokens. -/
theorem accepts_iff (text : List UInt8) {len : Int} (positive : 0 < len) :
    (∃ json, jsonParseText jsonNew text len = some (retOk, json)) ↔
      ∃ value, DerivesText tokens value text := by
  constructor
  · rintro ⟨json, accepted⟩
    refine (parse_cases text positive).resolve_left fun failed => ?_
    have codes : retOk = retFail :=
      (Prod.mk.inj (Option.some.inj (accepted.symm.trans failed))).1
    exact absurd codes (by decide)
  · rintro ⟨value, derives⟩
    exact ⟨_, parse_of_derives derives positive⟩

/-- A text of the standard without escaped marks derives its value with the tokens of
the parser. -/
theorem derives_of_unescaped {text : List UInt8} {value : Value}
    (derives : DerivesText rfc7159 value text)
    (unescaped : value.All (quote ∉ ·) (fun _ => True)) : DerivesText tokens value text := by
  obtain ⟨ws, input, trailing, whole, spaces, after, container, inside⟩ := derives
  refine DerivesText.transfer ⟨ws, input, trailing, whole, spaces, after, container, inside⟩
    takes_tokens ?_
  exact Value.all_combine (fun _ unquoted _ => unquoted)
    (fun _ _ ⟨_, number⟩ => number.mono fun _ => looseExpPart_of_expPart) value unescaped inside.all

/-- A text with an escaped mark that is in the standard is not accepted. -/
theorem not_accepted_of_escaped {text : List UInt8} (escaped : HasEscapedQuote text) :
    ¬ ∃ value, DerivesText tokens value text := by
  rintro ⟨value, derives⟩
  obtain ⟨other, standard, quoted⟩ := escaped
  exact quoted (unescaped_of_balanced (derives.composed balanced_composes)
    (standard.composed parted_composes))

/-- The parser agrees with the standard on exactly the texts without loose tokens and
without escaped quotation marks. -/
theorem agrees_iff (text : Text) (len : Int) (positive : 0 < len) :
    ((∃ json, jsonParseText jsonNew text.bytes len = some (retOk, json)) ↔
        Rfc7159Text text.bytes) ↔
      ¬ HasLooseToken text.bytes ∧ ¬ HasEscapedQuote text.bytes := by
  rw [accepts_iff text.bytes positive]
  constructor
  · intro agrees
    refine ⟨fun loose => ?_, fun escaped => ?_⟩
    · obtain ⟨value, derives, bad⟩ := loose
      obtain ⟨other, standard⟩ := agrees.mp ⟨value, derives⟩
      by_cases unescaped : other.All (quote ∉ ·) (fun _ => True)
      · -- both readings are then the same, and its tokens are of the standard
        obtain rfl := derivesText_unique derives (derives_of_unescaped standard unescaped)
        obtain ⟨ws, input, trailing, -, -, -, -, inside⟩ := standard
        exact bad (Value.all_combine (fun _ body _ => body) (fun _ ⟨_, number⟩ _ => number) value
          inside.all inside.all)
      · exact not_accepted_of_escaped ⟨other, standard, unescaped⟩ ⟨value, derives⟩
    · obtain ⟨other, standard, quoted⟩ := escaped
      exact not_accepted_of_escaped ⟨other, standard, quoted⟩ (agrees.mpr ⟨other, standard⟩)
  · rintro ⟨strict, unescaped⟩
    constructor
    · rintro ⟨value, derives⟩
      have good : value.All StringBody (NumberWith ExpPart) := by
        by_contra bad
        exact strict ⟨value, derives, bad⟩
      exact ⟨value, derives.transfer takes_rfc7159 good⟩
    · rintro ⟨value, standard⟩
      have clean : value.All (quote ∉ ·) (fun _ => True) := by
        by_contra quoted
        exact unescaped ⟨value, standard, quoted⟩
      exact ⟨value, derives_of_unescaped standard clean⟩

/-- An array of a string with an escaped quotation mark. -/
def escapedText : Text where
  bytes := [0x5b, 0x22, 0x5c, 0x22, 0x22, 0x5d]
  nonul := by decide
  short := by decide

/-- The parser and the standard on the array of a string with an escaped mark. -/
theorem agrees_iff_escaped : 0 < (7 : Int) ∧
    (((∃ json, jsonParseText jsonNew escapedText.bytes 7 = some (retOk, json)) ↔
        Rfc7159Text escapedText.bytes) ↔
      ¬ HasLooseToken escapedText.bytes ∧ ¬ HasEscapedQuote escapedText.bytes) :=
  ⟨by decide, agrees_iff escapedText 7 (by decide)⟩

/-- The parser does not accept exactly the texts of the standard. -/
theorem not_agrees : ¬ ∀ (text : Text) (len : Int), 0 < len →
    ((∃ json, jsonParseText jsonNew text.bytes len = some (retOk, json)) ↔
      Rfc7159Text text.bytes) := by
  intro agrees
  have standard : Rfc7159Text escapedText.bytes := by
    have body : StringBody [backslash, quote] :=
      .cons (.escape (by decide)) .nil
    exact ⟨.array (.cons (.string [backslash, quote]) .nil), [], escapedText.bytes, [], rfl,
      spaces_nil, spaces_nil, trivial, .array spaces_nil (.last spaces_nil (.string body))⟩
  obtain ⟨json, accepted⟩ := (agrees escapedText 7 (by decide)).mpr standard
  have failed : jsonParseText jsonNew escapedText.bytes 7 = some (retFail, jsonNew) := by decide
  have codes : retOk = retFail :=
    (Prod.mk.inj (Option.some.inj (accepted.symm.trans failed))).1
  exact absurd codes (by decide)

end Ezcfg.Json

import Mathlib.Data.List.TakeWhile
import Ezcfg.Foundation.CString
import Ezcfg.Foundation.Rfc7159

/-!
# The tokens of the JSON parser

`skip_ws`, `is_token_delim`, `get_number` and `json_value_create`, and the strings
and names that the parser cuts out with `strchr`. A position in the text is the
bytes from there up to the terminator, so a pointer past the last byte is the empty
list and reading it gives the terminator.

The numbers of `get_number` are the numbers of the standard except for exponents,
where a sign is enough and no digit has to follow it.
-/

namespace Ezcfg.Json

open Foundation Foundation.Json

/-- The type of a JSON value. -/
inductive ValueType where
  | false
  | null
  | true
  | object
  | array
  | number
  | string
  | nvPair
  | emptySet
deriving DecidableEq, Repr

/-- `*p` -/
def byteAt (p : List UInt8) : UInt8 := p.headD 0

/-- `skip_ws` -/
def skipWs (buf : List UInt8) : List UInt8 := buf.dropWhile isSpace

/-- `is_token_delim` -/
def isTokenDelim (c : UInt8) : Bool :=
  isSpace c || c = comma || c = closeBrace || c = closeBracket

/-- `get_number` from `exp:` on; `p` points at the exponent mark. -/
def numberExp (p : List UInt8) : List UInt8 :=
  let q := p.tail
  if !isSign (byteAt q) && !isDigit (byteAt q) then p
  else if isSign (byteAt q) then q.tail.dropWhile isDigit
  else q.dropWhile isDigit

/-- `get_number` from `frac:` on; `p` points at the decimal point. -/
def numberFrac (p : List UInt8) : List UInt8 :=
  let q := p.tail
  if !isDigit (byteAt q) then p
  else
    let q := q.dropWhile isDigit
    if isExponentMark (byteAt q) then numberExp q else q

/-- `get_number`: the position behind the number, or NULL. -/
def getNumber (buf : List UInt8) : Option (List UInt8) :=
  let p := if byteAt buf = 0x2d then buf.tail else buf
  if !isDigit (byteAt p) then none
  else
    let p := if byteAt p = 0x30 then p.tail else p.dropWhile isDigit
    if byteAt p = 0x2e then some (numberFrac p)
    else if isExponentMark (byteAt p) then some (numberExp p)
    else some p

/-- `strchr (cur, '"')` -/
def strchrQuote (cur : List UInt8) : Option (List UInt8) :=
  if quote ∈ cur then some (cur.dropWhile (· ≠ quote)) else none

/-- The type of a literal. -/
def literalType : Literal → ValueType
  | .false => .false
  | .null => .null
  | .true => .true

/-- The type of the node of a value. -/
def typeOf : Value → ValueType
  | .string _ => .string
  | .number _ => .number
  | .literal word => literalType word
  | .object _ => .object
  | .array _ => .array

/-- Whether the text starts with the letters of a literal and a delimiter. -/
def startsLiteral (word : Literal) (buf : List UInt8) : Bool :=
  strncmp word.bytes.length buf word.bytes = .eq &&
    isTokenDelim (byteAt (buf.drop word.bytes.length))

/-- `json_value_create`: the type of the value that starts here, or NULL. -/
def valueCreate (buf : List UInt8) : Option ValueType :=
  if byteAt buf = quote then some .string
  else if byteAt buf = openBrace then some .object
  else if byteAt buf = openBracket then some .array
  else if startsLiteral .false buf then some .false
  else if startsLiteral .null buf then some .null
  else if startsLiteral .true buf then some .true
  else if byteAt buf = 0x2d || isDigit (byteAt buf) then some .number
  else none

/-- The tokens as the functions above take them. -/
def tokens : Lexicon where
  string := fun content => quote ∉ content
  number := fun content rest => getNumber (content ++ rest) = some rest
  literal := fun rest => isTokenDelim (byteAt rest)

/-- The byte at the front. -/
theorem byteAt_cons (byte : UInt8) (rest : List UInt8) : byteAt (byte :: rest) = byte := rfl

/-! ## Whitespace -/

/-- `skip_ws` goes past some whitespace to a byte that is none. -/
theorem skipWs_spec (buf : List UInt8) :
    ∃ ws, Spaces ws ∧ buf = ws ++ skipWs buf ∧ ¬ isSpace (byteAt (skipWs buf)) := by
  refine ⟨buf.takeWhile isSpace, fun byte member => List.mem_takeWhile_imp member,
    List.takeWhile_append_dropWhile.symm, ?_⟩
  induction buf with
  | nil => decide
  | cons byte rest inductionHypothesis =>
    by_cases space : isSpace byte
    · simpa [skipWs, space] using inductionHypothesis
    · simp [skipWs, space, byteAt]

/-- Whitespace is skipped. -/
theorem skipWs_spaces {ws : List UInt8} (spaces : Spaces ws) (rest : List UInt8) :
    skipWs (ws ++ rest) = skipWs rest := by
  induction ws with
  | nil => rfl
  | cons byte ws inductionHypothesis =>
    have others : Spaces ws := fun other member => spaces other (by simp [member])
    simpa [skipWs, spaces byte (by simp)] using inductionHypothesis others

/-- Where no whitespace is, nothing is skipped. -/
theorem skipWs_of_not_space {buf : List UInt8} (first : ¬ isSpace (byteAt buf)) :
    skipWs buf = buf := by
  cases buf with
  | nil => rfl
  | cons byte rest =>
    have kept : ¬ isSpace byte := first
    simp [skipWs, kept]

/-- Whitespace is skipped up to the first byte that is none. -/
theorem skipWs_to {ws : List UInt8} (spaces : Spaces ws) {byte : UInt8} (stop : ¬ isSpace byte)
    (rest : List UInt8) : skipWs (ws ++ byte :: rest) = byte :: rest :=
  (skipWs_spaces spaces _).trans (skipWs_of_not_space stop)

/-- Skipping does not lengthen the text. -/
theorem skipWs_length_le (buf : List UInt8) : (skipWs buf).length ≤ buf.length :=
  (List.dropWhile_suffix _).length_le

/-! ## Numbers -/

/-- Nothing, or an exponent mark, then a sign, digits or both. -/
def LooseExpPart (part : List UInt8) : Prop :=
  part = [] ∨ ∃ mark sign digits, part = mark :: (sign ++ digits) ∧ isExponentMark mark ∧
    (sign = [] ∨ ∃ byte, sign = [byte] ∧ isSign byte) ∧ (sign ≠ [] ∨ digits ≠ []) ∧
    Digits digits

/-- The exponents of the standard are among them. -/
theorem looseExpPart_of_expPart {part : List UInt8} (strict : ExpPart part) : LooseExpPart part := by
  rcases strict with rfl | ⟨mark, sign, digits, whole, marked, signed, present, only⟩
  · exact .inl rfl
  · exact .inr ⟨mark, sign, digits, whole, marked, signed, .inr present, only⟩

/-- A byte that is not the terminator is the first byte of the rest. -/
theorem eq_cons_of_byteAt {p : List UInt8} (present : byteAt p ≠ 0) :
    p = byteAt p :: p.tail := by
  cases p with
  | nil => exact absurd rfl present
  | cons byte rest => rfl

/-- A text whose first byte satisfies a test that the terminator fails. -/
theorem eq_cons_of_test {test : UInt8 → Bool} {p : List UInt8} (holds : test (byteAt p))
    (terminator : test 0 = Bool.false) : p = byteAt p :: p.tail :=
  eq_cons_of_byteAt fun zero => by simp [zero, terminator] at holds

/-- The digits in front, and what is behind them. -/
theorem digits_split (p : List UInt8) :
    ∃ digits, Digits digits ∧ p = digits ++ p.dropWhile isDigit :=
  ⟨p.takeWhile isDigit, fun _ member => List.mem_takeWhile_imp member,
    List.takeWhile_append_dropWhile.symm⟩

/-- The digits from a digit on, of which there is at least one. -/
theorem digits_split_cons {p : List UInt8} (first : isDigit (byteAt p)) :
    ∃ digits, Digits digits ∧ p = byteAt p :: (digits ++ p.dropWhile isDigit) := by
  have shape : p = byteAt p :: p.tail := eq_cons_of_test first (by decide)
  obtain ⟨digits, only, split⟩ := digits_split p.tail
  refine ⟨digits, only, ?_⟩
  have dropped : p.dropWhile isDigit = p.tail.dropWhile isDigit := by
    rw [shape]
    simp [first]
  rw [dropped, ← split]
  exact shape

/-- What is taken from an exponent mark on is an exponent. -/
theorem numberExp_sound {p : List UInt8} (mark : isExponentMark (byteAt p)) :
    ∃ part, p = part ++ numberExp p ∧ LooseExpPart part := by
  have shape : p = byteAt p :: p.tail := eq_cons_of_test mark (by decide)
  by_cases sign : isSign (byteAt p.tail)
  · obtain ⟨digits, only, split⟩ := digits_split p.tail.tail
    have signed : p.tail = byteAt p.tail :: p.tail.tail := eq_cons_of_test sign (by decide)
    refine ⟨byteAt p :: ([byteAt p.tail] ++ digits), ?_, .inr ⟨_, _, digits, rfl, mark,
      .inr ⟨_, rfl, sign⟩, .inl nofun, only⟩⟩
    have taken : numberExp p = p.tail.tail.dropWhile isDigit := by simp [numberExp, sign]
    rw [taken]
    simpa [← split, ← signed] using shape
  · by_cases digit : isDigit (byteAt p.tail)
    · obtain ⟨digits, only, split⟩ := digits_split_cons digit
      refine ⟨byteAt p :: ([] ++ byteAt p.tail :: digits), ?_, .inr ⟨_, _, _, rfl, mark,
        .inl rfl, .inr nofun, ?_⟩⟩
      · have taken : numberExp p = p.tail.dropWhile isDigit := by simp [numberExp, sign, digit]
        rw [taken]
        simpa [← split] using shape
      · intro byte member
        rcases List.mem_cons.mp member with rfl | later
        · exact digit
        · exact only byte later
    · exact ⟨[], by simp [numberExp, sign, digit], .inl rfl⟩

/-- What is taken from a decimal point on is a fraction and an exponent. -/
theorem numberFrac_sound {p : List UInt8} (point : byteAt p = 0x2e) :
    ∃ frac exp, p = frac ++ (exp ++ numberFrac p) ∧ FracPart frac ∧ LooseExpPart exp := by
  have shape : p = byteAt p :: p.tail := eq_cons_of_byteAt (by simp [point])
  by_cases digit : isDigit (byteAt p.tail)
  · obtain ⟨digits, only, split⟩ := digits_split_cons digit
    have all : Digits (byteAt p.tail :: digits) := by
      intro byte member
      rcases List.mem_cons.mp member with rfl | later
      · exact digit
      · exact only byte later
    by_cases mark : isExponentMark (byteAt (p.tail.dropWhile isDigit))
    · obtain ⟨exp, whole, loose⟩ := numberExp_sound mark
      have taken : numberFrac p = numberExp (p.tail.dropWhile isDigit) := by
        simp [numberFrac, digit, mark]
      refine ⟨0x2e :: byteAt p.tail :: digits, exp, ?_, .inr ⟨_, rfl, nofun, all⟩, loose⟩
      rw [taken, ← whole]
      simpa [← split, point] using shape
    · have taken : numberFrac p = p.tail.dropWhile isDigit := by simp [numberFrac, digit, mark]
      refine ⟨0x2e :: byteAt p.tail :: digits, [], ?_, .inr ⟨_, rfl, nofun, all⟩, .inl rfl⟩
      rw [taken]
      simpa [← split, point] using shape
  · exact ⟨[], [], by simp [numberFrac, digit], .inl rfl, .inl rfl⟩

/-- What `get_number` takes is a number, up to the loose exponents. -/
theorem getNumber_sound {buf rest : List UInt8} (taken : getNumber buf = some rest) :
    ∃ content, buf = content ++ rest ∧ NumberWith LooseExpPart content := by
  obtain ⟨minus, p, whole, signed, started⟩ :
      ∃ minus p, buf = minus ++ p ∧ MinusPart minus ∧
        (if byteAt buf = 0x2d then buf.tail else buf) = p := by
    by_cases negative : byteAt buf = 0x2d
    · have shape : buf = byteAt buf :: buf.tail := eq_cons_of_byteAt (by simp [negative])
      refine ⟨[0x2d], buf.tail, ?_, .inr rfl, by simp [negative]⟩
      simpa [negative] using shape
    · exact ⟨[], buf, rfl, .inl rfl, by simp [negative]⟩
  simp only [getNumber, started] at taken
  have digit : isDigit (byteAt p) := by
    by_contra none
    simp [none] at taken
  obtain ⟨int, q, inside, integral, stopped⟩ :
      ∃ int q, p = int ++ q ∧ IntPart int ∧
        (if byteAt p = 0x30 then p.tail else p.dropWhile isDigit) = q := by
    by_cases zero : byteAt p = 0x30
    · have shape : p = byteAt p :: p.tail := eq_cons_of_byteAt (by simp [zero])
      refine ⟨[0x30], p.tail, ?_, .inl rfl, by simp [zero]⟩
      simpa [zero] using shape
    · obtain ⟨digits, only, split⟩ := digits_split_cons digit
      exact ⟨byteAt p :: digits, _, split, .inr ⟨_, _, rfl, zero, digit, only⟩, by simp [zero]⟩
  simp only [digit, stopped, Bool.not_true, Bool.false_eq_true, if_false] at taken
  subst whole inside
  by_cases point : byteAt q = 0x2e
  · obtain ⟨frac, exp, split, fractional, loose⟩ := numberFrac_sound point
    have same : numberFrac q = rest := by simpa [point] using taken
    rw [same] at split
    exact ⟨minus ++ (int ++ (frac ++ exp)), by simp [split], minus, int, frac, exp, rfl, signed,
      integral, fractional, loose⟩
  · by_cases mark : isExponentMark (byteAt q)
    · obtain ⟨exp, split, loose⟩ := numberExp_sound mark
      have same : numberExp q = rest := by simpa [point, mark] using taken
      rw [same] at split
      exact ⟨minus ++ (int ++ ([] ++ exp)), by simp [split], minus, int, [], exp, rfl, signed,
        integral, .inl rfl, loose⟩
    · have same : q = rest := by simpa [point, mark] using taken
      exact ⟨minus ++ (int ++ ([] ++ [])), by simp [same], minus, int, [], [], rfl, signed,
        integral, .inl rfl, .inl rfl⟩

/-- A delimiter is no part of a number. -/
theorem delimited_stops {rest : List UInt8} (delimited : Delimited rest) :
    ¬ isDigit (byteAt rest) ∧ byteAt rest ≠ 0x2e ∧ ¬ isExponentMark (byteAt rest) := by
  cases rest with
  | nil => exact absurd delimited not_false
  | cons byte rest =>
    have cases : byte = 0x20 ∨ byte = 0x09 ∨ byte = 0x0a ∨ byte = 0x0d ∨ byte = comma ∨
        byte = closeBrace ∨ byte = closeBracket := by
      simpa [Delimited, isSpace, or_assoc] using delimited
    change ¬ isDigit byte ∧ byte ≠ 0x2e ∧ ¬ isExponentMark byte
    rcases cases with rfl | rfl | rfl | rfl | rfl | rfl | rfl <;> decide

/-- Digits are passed up to the first byte that is none. -/
theorem dropWhile_digits {digits rest : List UInt8} (only : Digits digits)
    (stops : ¬ isDigit (byteAt rest)) : (digits ++ rest).dropWhile isDigit = rest := by
  induction digits with
  | nil =>
    cases rest with
    | nil => rfl
    | cons byte rest =>
      have kept : ¬ isDigit byte := stops
      simp [kept]
  | cons digit digits inductionHypothesis =>
    have others : Digits digits := fun other member => only other (by simp [member])
    simpa [only digit (by simp)] using inductionHypothesis others

/-- An exponent in front of a byte that is no digit is passed. -/
theorem numberExp_complete {part rest : List UInt8} (present : part ≠ []) (loose : LooseExpPart part)
    (stops : ¬ isDigit (byteAt rest)) :
    isExponentMark (byteAt (part ++ rest)) ∧ numberExp (part ++ rest) = rest := by
  obtain ⟨mark, sign, digits, rfl, marked, signed, some, only⟩ := loose.resolve_left present
  refine ⟨marked, ?_⟩
  have passed := dropWhile_digits only stops
  rcases signed with rfl | ⟨byte, rfl, isSign⟩
  · cases digits with
    | nil => simp at some
    | cons digit digits =>
      have first : isDigit digit := only digit (by simp)
      have unsigned : ¬ Json.isSign digit := by
        intro signed
        simp only [Json.isSign, Bool.or_eq_true, decide_eq_true_eq] at signed
        rcases signed with rfl | rfl <;> exact absurd first (by decide)
      simpa [numberExp, byteAt, first, unsigned] using passed
  · simpa [numberExp, byteAt, isSign] using passed

/-- What may follow the integer part does not continue it. -/
theorem after_int {frac exp rest : List UInt8} (fractional : FracPart frac)
    (loose : LooseExpPart exp) (stops : ¬ isDigit (byteAt rest)) :
    ¬ isDigit (byteAt (frac ++ (exp ++ rest))) := by
  rcases fractional with rfl | ⟨digits, rfl, -, -⟩
  · rcases loose with rfl | ⟨mark, sign, digits, rfl, marked, -⟩
    · exact stops
    · intro digit
      have bad : isExponentMark mark ∧ isDigit mark := ⟨marked, digit⟩
      simp only [isExponentMark, Bool.or_eq_true, decide_eq_true_eq] at bad
      rcases bad with ⟨rfl | rfl, both⟩ <;> exact absurd both (by decide)
  · intro digit
    have point : isDigit 0x2e := digit
    exact absurd point (by decide)

/-- A fraction and what follows it are passed up to a byte that continues neither. -/
theorem numberFrac_complete {frac exp rest : List UInt8} (present : frac ≠ [])
    (fractional : FracPart frac) (loose : LooseExpPart exp) (stops : ¬ isDigit (byteAt rest))
    (unmarked : ¬ isExponentMark (byteAt rest)) :
    byteAt (frac ++ (exp ++ rest)) = 0x2e ∧ numberFrac (frac ++ (exp ++ rest)) = rest := by
  obtain ⟨digits, rfl, some, only⟩ := fractional.resolve_left present
  refine ⟨rfl, ?_⟩
  have passed := dropWhile_digits only (after_int (.inl rfl) loose stops)
  obtain ⟨digit, others, rfl⟩ := List.exists_cons_of_ne_nil some
  have first : isDigit digit := only digit (by simp)
  have enters : byteAt (digit :: (others ++ (exp ++ rest))) = digit := rfl
  simp only [List.cons_append, List.nil_append] at passed
  simp only [numberFrac, List.cons_append, List.tail_cons, passed, enters, first, Bool.not_true,
    Bool.false_eq_true, if_false]
  by_cases exponent : exp = []
  · subst exponent
    simp [unmarked]
  · obtain ⟨marked, done⟩ := numberExp_complete exponent loose stops
    simp [marked, done]

/-- The integer part is passed up to what follows it. -/
theorem int_complete {int tail : List UInt8} (integral : IntPart int)
    (stops : ¬ isDigit (byteAt tail)) :
    isDigit (byteAt (int ++ tail)) ∧
      (if byteAt (int ++ tail) = 0x30 then (int ++ tail).tail
        else (int ++ tail).dropWhile isDigit) = tail := by
  rcases integral with rfl | ⟨digit, digits, rfl, nonzero, first, only⟩
  · exact ⟨rfl, rfl⟩
  · refine ⟨first, ?_⟩
    have passed := dropWhile_digits only stops
    simp [byteAt, nonzero, first, passed]

/-- A number in front of a delimiter is taken as a whole. -/
theorem getNumber_complete {content rest : List UInt8} (number : NumberWith LooseExpPart content)
    (delimited : Delimited rest) : getNumber (content ++ rest) = some rest := by
  obtain ⟨minus, int, frac, exp, rfl, signed, integral, fractional, loose⟩ := number
  obtain ⟨stops, pointless, unmarked⟩ := delimited_stops delimited
  obtain ⟨digit, passed⟩ := int_complete integral (after_int fractional loose stops)
  have started : (if byteAt (minus ++ (int ++ (frac ++ exp)) ++ rest) = 0x2d
      then (minus ++ (int ++ (frac ++ exp)) ++ rest).tail
      else minus ++ (int ++ (frac ++ exp)) ++ rest) = int ++ (frac ++ (exp ++ rest)) := by
    rcases signed with rfl | rfl
    · have unsigned : byteAt (int ++ (frac ++ (exp ++ rest))) ≠ 0x2d := by
        intro minus
        rw [minus] at digit
        exact absurd digit (by decide)
      simp [unsigned]
    · simp [byteAt]
  simp only [getNumber, started, digit, passed, Bool.not_true, Bool.false_eq_true, if_false]
  by_cases pointed : frac = []
  · subst pointed
    by_cases exponent : exp = []
    · subst exponent
      simp [pointless, unmarked]
    · obtain ⟨marked, done⟩ := numberExp_complete exponent loose stops
      have pointless : byteAt (exp ++ rest) ≠ 0x2e := by
        intro point
        rw [point] at marked
        exact absurd marked (by decide)
      simp [pointless, marked, done]
  · obtain ⟨point, done⟩ := numberFrac_complete pointed fractional loose stops unmarked
    simp [point, done]

/-! ## Strings -/

/-- The first quotation mark is found behind bytes that are none. -/
theorem strchrQuote_eq {content : List UInt8} (unquoted : quote ∉ content) (rest : List UInt8) :
    strchrQuote (content ++ quote :: rest) = some (quote :: rest) := by
  have passed : (content ++ quote :: rest).dropWhile (· ≠ quote) = quote :: rest := by
    rw [List.dropWhile_append_of_pos]
    · simp
    · intro byte member
      have different : byte ≠ quote := fun same => unquoted (same ▸ member)
      simpa using different
  rw [strchrQuote, if_pos (by simp), passed]

/-- What is in front of the quotation mark found is no quotation mark. -/
theorem strchrQuote_some {cur p : List UInt8} (found : strchrQuote cur = some p) :
    ∃ content rest, cur = content ++ quote :: rest ∧ quote ∉ content ∧ p = quote :: rest := by
  have member : quote ∈ cur := by
    by_contra absent
    simp [strchrQuote, absent] at found
  obtain ⟨content, rest, rfl, unquoted⟩ := List.eq_append_cons_of_mem member
  have same : quote :: rest = p := by simpa [strchrQuote_eq unquoted] using found
  exact ⟨content, rest, rfl, unquoted, same.symm⟩

/-! ## The type of a value -/

/-- A literal starts a text exactly when its letters and a delimiter do. -/
theorem startsLiteral_iff {word : Literal} {buf : List UInt8} :
    startsLiteral word buf ↔ ∃ rest, buf = word.bytes ++ rest ∧ isTokenDelim (byteAt rest) := by
  have compared : strncmp word.bytes.length buf word.bytes = .eq ↔ word.bytes <+: buf := by
    rw [strncmp_eq_take, List.take_length, strcmp_eq_iff, List.prefix_iff_eq_take, eq_comm]
  simp only [startsLiteral, Bool.and_eq_true, decide_eq_true_eq, compared]
  constructor
  · rintro ⟨⟨rest, rfl⟩, delimiter⟩
    exact ⟨rest, rfl, by simpa using delimiter⟩
  · rintro ⟨rest, rfl, delimiter⟩
    exact ⟨⟨rest, rfl⟩, by simpa using delimiter⟩

/-- A delimited text starts with a delimiter of `is_token_delim`. -/
theorem isTokenDelim_of_delimited {rest : List UInt8} (delimited : Delimited rest) :
    isTokenDelim (byteAt rest) := by
  cases rest with
  | nil => exact absurd delimited not_false
  | cons byte rest => simpa [isTokenDelim, byteAt, Delimited, or_assoc] using delimited

/-- The parser takes its tokens in front of every delimiter. -/
theorem takes_tokens : Takes tokens (quote ∉ ·) (NumberWith LooseExpPart) where
  string _ unquoted := unquoted
  number _ _ := getNumber_complete
  literal _ := isTokenDelim_of_delimited

/-- The tokens of the parser are strings without quotation marks and numbers. -/
theorem number_of_tokens {content rest : List UInt8} (token : tokens.number content rest) :
    NumberWith LooseExpPart content := by
  obtain ⟨same, whole, number⟩ := getNumber_sound token
  rwa [List.append_cancel_right whole]

/-- The bytes of numbers. -/
def isNumberByte (byte : UInt8) : Bool :=
  isDigit byte || isSign byte || isExponentMark byte || byte = 0x2e

/-- A number has no other bytes. -/
theorem number_bytes {content : List UInt8} (number : NumberWith LooseExpPart content) :
    ∀ byte ∈ content, isNumberByte byte := by
  obtain ⟨minus, int, frac, exp, rfl, signed, integral, fractional, loose⟩ := number
  have digits : ∀ part, Digits part → ∀ byte ∈ part, isNumberByte byte :=
    fun part only byte member => by simp [isNumberByte, only byte member]
  intro byte member
  rcases List.mem_append.mp member with inMinus | member
  · rcases signed with rfl | rfl
    · cases inMinus
    · rw [List.mem_singleton.mp inMinus]
      rfl
  rcases List.mem_append.mp member with inInt | member
  · rcases integral with rfl | ⟨digit, others, rfl, -, first, only⟩
    · rw [List.mem_singleton.mp inInt]
      rfl
    · rcases List.mem_cons.mp inInt with rfl | later
      · simp [isNumberByte, first]
      · exact digits others only byte later
  rcases List.mem_append.mp member with inFrac | inExp
  · rcases fractional with rfl | ⟨others, rfl, -, only⟩
    · cases inFrac
    · rcases List.mem_cons.mp inFrac with rfl | later
      · rfl
      · exact digits others only byte later
  · rcases loose with rfl | ⟨mark, sign, others, rfl, marked, signed, -, only⟩
    · cases inExp
    · rcases List.mem_cons.mp inExp with rfl | later
      · simp [isNumberByte, marked]
      rcases List.mem_append.mp later with inSign | later
      · rcases signed with rfl | ⟨plus, rfl, isSign⟩
        · cases inSign
        · simp [isNumberByte, List.mem_singleton.mp inSign, isSign]
      · exact digits others only byte later

/-- A byte of a number is neither whitespace nor a quotation mark nor a reverse
solidus. -/
theorem numberByte_ne {byte : UInt8} (holds : isNumberByte byte) :
    ¬ isSpace byte ∧ byte ≠ quote ∧ byte ≠ backslash := by
  have others : ∀ other ∈ ([0x20, 0x09, 0x0a, 0x0d, quote, backslash] : List UInt8),
      ¬ isNumberByte other := forall_bytes _ (by decide)
  refine ⟨fun space => ?_, ?_, ?_⟩
  · simp only [isSpace, Bool.or_eq_true, decide_eq_true_eq] at space
    rcases space with ((rfl | rfl) | rfl) | rfl <;> exact others _ (by simp) holds
  · rintro rfl
    exact others quote (by simp) holds
  · rintro rfl
    exact others backslash (by simp) holds

/-- A number starts with a minus or a digit. -/
theorem number_start {content : List UInt8} (number : NumberWith LooseExpPart content)
    (rest : List UInt8) :
    byteAt (content ++ rest) = 0x2d ∨ isDigit (byteAt (content ++ rest)) := by
  obtain ⟨minus, int, frac, exp, rfl, rfl | rfl, integral, -, -⟩ := number
  · right
    rcases integral with rfl | ⟨digit, digits, rfl, -, first, -⟩
    · rfl
    · exact first
  · exact .inl rfl

/-- The first letter of a literal. -/
theorem literal_start (word : Literal) (rest : List UInt8) :
    byteAt (word.bytes ++ rest) ∈ ([0x66, 0x6e, 0x74] : List UInt8) := by
  cases word <;> exact List.elem_iff.mp rfl

/-- No literal starts with a minus or a digit. -/
theorem not_startsLiteral {buf : List UInt8} (word : Literal)
    (first : byteAt buf = 0x2d ∨ isDigit (byteAt buf)) : ¬ startsLiteral word buf := by
  rw [startsLiteral_iff]
  rintro ⟨rest, rfl, -⟩
  have others : ∀ letter ∈ ([0x66, 0x6e, 0x74] : List UInt8),
      ¬ (letter = 0x2d ∨ isDigit letter) := forall_bytes _ (by decide)
  exact others _ (literal_start word rest) first

/-- What is created where no string, object or array starts. -/
theorem valueCreate_other {buf : List UInt8}
    (unmarked : byteAt buf ∉ [quote, openBrace, openBracket]) :
    valueCreate buf =
      if startsLiteral .false buf then some .false
      else if startsLiteral .null buf then some .null
      else if startsLiteral .true buf then some .true
      else if byteAt buf = 0x2d || isDigit (byteAt buf) then some .number
      else none := by
  simp only [List.mem_cons, List.not_mem_nil, or_false, not_or] at unmarked
  rw [valueCreate, if_neg unmarked.1, if_neg unmarked.2.1, if_neg unmarked.2.2]

/-- A minus or a digit makes a number. -/
theorem valueCreate_number {buf : List UInt8}
    (first : byteAt buf = 0x2d ∨ isDigit (byteAt buf)) : valueCreate buf = some .number := by
  have others : ∀ mark ∈ [quote, openBrace, openBracket], ¬ (mark = 0x2d ∨ isDigit mark) :=
    forall_bytes _ (by decide)
  rw [valueCreate_other fun member => others _ member first,
    if_neg (not_startsLiteral .false first), if_neg (not_startsLiteral .null first),
    if_neg (not_startsLiteral .true first), if_pos (by simpa using first)]

/-- The letters of a literal and a delimiter make that literal. -/
theorem valueCreate_literal (word : Literal) {rest : List UInt8}
    (delimiter : isTokenDelim (byteAt rest)) :
    valueCreate (word.bytes ++ rest) = some (literalType word) := by
  have letters : ∀ letter ∈ ([0x66, 0x6e, 0x74] : List UInt8),
      letter ∉ [quote, openBrace, openBracket] := forall_bytes _ (by decide)
  have starts : startsLiteral word (word.bytes ++ rest) :=
    startsLiteral_iff.mpr ⟨rest, rfl, delimiter⟩
  rw [valueCreate_other (letters _ (literal_start word rest))]
  cases word with
  | false => exact if_pos starts
  | null =>
    have notFalse : startsLiteral .false (Literal.null.bytes ++ rest) = Bool.false := rfl
    rw [notFalse]
    exact if_pos starts
  | true =>
    have notFalse : startsLiteral .false (Literal.true.bytes ++ rest) = Bool.false := rfl
    have notNull : startsLiteral .null (Literal.true.bytes ++ rest) = Bool.false := rfl
    rw [notFalse, notNull]
    exact if_pos starts

/-- What a text starts with, by the type created for it. -/
inductive Starts : ValueType → List UInt8 → Prop
  | string {rest : List UInt8} : Starts .string (quote :: rest)
  | object {rest : List UInt8} : Starts .object (openBrace :: rest)
  | array {rest : List UInt8} : Starts .array (openBracket :: rest)
  | literal {word : Literal} {rest : List UInt8} (delimiter : isTokenDelim (byteAt rest)) :
      Starts (literalType word) (word.bytes ++ rest)
  | number {buf : List UInt8} (first : byteAt buf = 0x2d ∨ isDigit (byteAt buf)) :
      Starts .number buf

/-- A value is created where its first bytes are. -/
theorem valueCreate_starts {buf : List UInt8} {type : ValueType}
    (created : valueCreate buf = some type) : Starts type buf := by
  have shape : ∀ mark : UInt8, mark ≠ 0 → byteAt buf = mark → buf = mark :: buf.tail :=
    fun mark present same => by
      have cons := eq_cons_of_byteAt (p := buf) (same ▸ present)
      rwa [same] at cons
  have word : ∀ word, startsLiteral word buf → Starts (literalType word) buf := by
    intro word starts
    obtain ⟨rest, rfl, delimiter⟩ := startsLiteral_iff.mp starts
    exact .literal delimiter
  unfold valueCreate at created
  split_ifs at created with quoted opened bracketed isFalse isNull isTrue number <;>
    obtain rfl := Option.some.inj created
  · exact shape _ (by decide) quoted ▸ .string
  · exact shape _ (by decide) opened ▸ .object
  · exact shape _ (by decide) bracketed ▸ .array
  · exact word .false isFalse
  · exact word .null isNull
  · exact word .true isTrue
  · exact .number (by simpa using number)

/-- No value starts with whitespace. -/
theorem Starts.not_space {type : ValueType} {buf : List UInt8} (starts : Starts type buf) :
    ¬ isSpace (byteAt buf) := by
  have letters : ∀ letter ∈ ([0x66, 0x6e, 0x74] : List UInt8), ¬ isSpace letter :=
    forall_bytes _ (by decide)
  have spaces : ∀ byte ∈ ([0x20, 0x09, 0x0a, 0x0d] : List UInt8),
      ¬ (byte = 0x2d ∨ isDigit byte) := forall_bytes _ (by decide)
  cases starts with
  | string => exact Bool.not_eq_true _ ▸ rfl
  | object => exact Bool.not_eq_true _ ▸ rfl
  | array => exact Bool.not_eq_true _ ▸ rfl
  | literal delimiter => exact letters _ (literal_start _ _)
  | number first =>
    intro space
    exact spaces _ (by simpa [isSpace, or_assoc] using space) first

/-- A derived value has its type created. -/
theorem valueCreate_of_derives {value : Value} {input rest : List UInt8}
    (derives : DerivesValue tokens value input rest) :
    valueCreate input = some (typeOf value) := by
  cases derives with
  | string => rfl
  | number token => exact valueCreate_number (number_start (number_of_tokens token) rest)
  | literal token => exact valueCreate_literal _ token
  | emptyObject => rfl
  | object => rfl
  | emptyArray => rfl
  | array => rfl

end Ezcfg.Json

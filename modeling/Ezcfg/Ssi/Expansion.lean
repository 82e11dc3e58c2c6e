import Ezcfg.Ssi.Reader
import Mathlib.Algebra.GroupWithZero.Nat
import Mathlib.Data.List.Infix

/-!
# The text of a page with its directives replaced

An include directive has the name of its file between quotes, with a backslash in front of the
quotes of the name, and ends on its line. The first directive of a page is replaced by the file
that it names, and the others in what is behind it. When a line is read for each directive, what is
left is what stands behind the directives.
-/

namespace Ezcfg.Ssi

open Foundation TextCuts
open Http (ascii)

/-- Each quote of a value is behind a backslash, and what ends the value is not. -/
def QuotesEscaped : UInt8 → Text → Prop
  | before, [] => before ≠ backslash
  | before, byte :: rest => (byte = quote → before = backslash) ∧ QuotesEscaped byte rest

/-- What stands between the sequences of an include directive, and the name of its file. -/
def IncludeDirective (body name : Text) : Prop :=
  lineFeed ∉ body ∧ ∃ spaces value tail,
    body = ascii "include " ++ (List.replicate spaces space ++
      (ascii "virtual=" ++ quote :: (value ++ quote :: tail))) ∧
    QuotesEscaped quote value ∧ name = removeEscapeBackslash value

/-- A directive that names a file which can be read and has no zero bytes. -/
def NamesFile (around : Surroundings) (documentRoot s : Text) : Prop :=
  ∃ body rest name content, cutText endingSequence s = some (body, rest) ∧
    IncludeDirective body name ∧ around.files (documentRoot ++ name) = some content ∧ 0 ∉ content

/-- Every starting sequence of a page starts such a directive. -/
def Directives (around : Surroundings) (documentRoot page : Text) : Prop :=
  ∀ s, startingSequence ++ s <:+ page → NamesFile around documentRoot s

/-- A text with each directive replaced by the file that it names. -/
inductive Expands (around : Surroundings) (documentRoot : Text) : Text → Text → Prop where
  | plain {text : Text} (absent : cutText startingSequence text = none) :
    Expands around documentRoot text text
  | directive {text front s body rest name content out : Text}
    (starts : cutText startingSequence text = some (front, s))
    (ends : cutText endingSequence s = some (body, rest))
    (wellFormed : IncludeDirective body name)
    (readable : around.files (documentRoot ++ name) = some content)
    (others : Expands around documentRoot rest out) :
    Expands around documentRoot text (front ++ (content ++ out))

/-- What is behind the first directive of a text. -/
def behindDirective (text : Text) : Option Text := do
  let (_, s) ← cutText startingSequence text
  let (_, rest) ← cutText endingSequence s
  return rest

/-- The number of directives in a text, with a bound. -/
def directivesLoop : Nat → Text → Nat
  | 0, _ => 0
  | turns + 1, text =>
    match behindDirective text with
    | none => 0
    | some rest => directivesLoop turns rest + 1

/-- The number of directives in a text. -/
def directives (text : Text) : Nat := directivesLoop text.length text

/-- What is left behind the directives when one line is read for each of them. -/
def leftOver : Text → List Text → Text
  | remaining, [] => remaining
  | remaining, line :: rest => leftOver ((behindDirective (remaining ++ line)).getD []) rest

/-- The lines up to the last one have no more directives than lines, from any of them on, and what
is behind the first directive of the last line is replaced by nothing. -/
def Drained (around : Surroundings) (documentRoot page : Text) : Prop :=
  (∀ run, run <:+ (lines page).dropLast → (run.map directives).sum ≤ run.length) ∧
    ∀ last ∈ (lines page).getLast?, ∀ rest, behindDirective last = some rest →
      Expands around documentRoot rest []

/-- The starting sequence has letters. -/
theorem startingSequence_ne_nil : startingSequence ≠ [] := by decide

/-- The ending sequence has letters. -/
theorem endingSequence_ne_nil : endingSequence ≠ [] := by decide

/-- There is no new line in the starting sequence. -/
theorem lineFeed_notMem_starting : lineFeed ∉ startingSequence := by decide

/-- There is no new line in the ending sequence. -/
theorem lineFeed_notMem_ending : lineFeed ∉ endingSequence := by decide

/-! ## Parsing -/

/-- What is behind a text. -/
theorem strip_append (wanted text : Text) : strip wanted (wanted ++ text) = some text := by
  rw [strip, if_pos (List.prefix_append wanted text), List.drop_left]

/-- The value goes up to its quote. -/
theorem scanValue_escaped {before : UInt8} {value : Text} (escaped : QuotesEscaped before value)
    (tail : Text) : scanValue before (value ++ quote :: tail) = some (value, tail) := by
  induction value generalizing before with
  | nil => rw [List.nil_append, scanValue, if_pos ⟨rfl, escaped⟩]
  | cons byte rest inductionHypothesis =>
    have inside : ¬(byte = quote ∧ before ≠ backslash) := by
      rintro ⟨here, other⟩
      exact other (escaped.1 here)
    rw [List.cons_append, scanValue, if_neg inside, inductionHypothesis escaped.2]
    rfl

/-- The value of the attribute is behind spaces and its name. -/
theorem parseAttrs_virtual {value : Text} (escaped : QuotesEscaped quote value) (spaces : Nat)
    (tail : Text) :
    parseAttrs [ascii "virtual"] (List.replicate spaces space ++
      (ascii "virtual=" ++ quote :: (value ++ quote :: tail))) =
        some [removeEscapeBackslash value] := by
  have letters : (ascii "virtual=" ++ quote :: (value ++ quote :: tail)).dropWhile
      (fun byte => decide (byte = space)) = ascii "virtual=" ++ quote :: (value ++ quote :: tail) :=
    List.dropWhile_cons_of_neg (by decide)
  have blanks : (List.replicate spaces space ++ (ascii "virtual=" ++
      quote :: (value ++ quote :: tail))).dropWhile (fun byte => decide (byte = space)) =
        ascii "virtual=" ++ quote :: (value ++ quote :: tail) := by
    rw [List.dropWhile_append_of_pos, letters]
    intro byte member
    rw [List.eq_of_mem_replicate member]
    rfl
  have named : strip (ascii "virtual" ++ [0x3d, quote])
      (ascii "virtual=" ++ quote :: (value ++ quote :: tail)) = some (value ++ quote :: tail) :=
    strip_append (ascii "virtual" ++ [0x3d, quote]) _
  rw [parseAttrs, blanks, bind_of_some named, bind_of_some (scanValue_escaped escaped tail)]
  rfl

/-- An include directive is parsed. -/
theorem IncludeDirective.parse {body name : Text} (directive : IncludeDirective body name) :
    ssiParseDirectiveEntry body = some (includeEntry, [name]) := by
  obtain ⟨-, spaces, value, tail, rfl, escaped, rfl⟩ := directive
  have element := strip_append (includeEntry.elem ++ [space]) (List.replicate spaces space ++
    (ascii "virtual=" ++ quote :: (value ++ quote :: tail)))
  have parsed : parseEntry (ascii "include " ++ (List.replicate spaces space ++
      (ascii "virtual=" ++ quote :: (value ++ quote :: tail)))) includeEntry =
        some (includeEntry, [removeEscapeBackslash value]) := by
    rw [parseEntry]
    refine (bind_of_some element).trans ?_
    exact bind_of_some (parseAttrs_virtual escaped spaces tail)
  rw [ssiParseDirectiveEntry, supportedDirectives, List.findSome?_cons, parsed]

/-! ## Replacing -/

variable {around : Surroundings} {documentRoot : Text}

/-- A directive names one file. -/
theorem IncludeDirective.unique {body first second : Text} (directive : IncludeDirective body first)
    (other : IncludeDirective body second) : first = second := by
  have parsed := directive.parse
  rw [other.parse] at parsed
  obtain ⟨-, same⟩ := Prod.mk.inj (Option.some.inj parsed)
  exact (List.cons.inj same).1.symm

/-- The directives of a text are replaced in one way. -/
theorem Expands.unique {text first second : Text} (expands : Expands around documentRoot text first)
    (other : Expands around documentRoot text second) : first = second := by
  induction expands generalizing second with
  | plain absent =>
    cases other with
    | plain absent => rfl
    | directive starts ends wellFormed readable others =>
      rw [absent] at starts
      cases starts
  | directive starts ends wellFormed readable others inductionHypothesis =>
    cases other with
    | plain absent =>
      rw [absent] at starts
      cases starts
    | directive startsToo endsToo wellFormedToo readableToo othersToo =>
      rw [starts] at startsToo
      obtain ⟨rfl, rfl⟩ := Prod.mk.inj (Option.some.inj startsToo)
      rw [ends] at endsToo
      obtain ⟨rfl, rfl⟩ := Prod.mk.inj (Option.some.inj endsToo)
      obtain rfl := wellFormed.unique wellFormedToo
      rw [readable] at readableToo
      obtain rfl := Option.some.inj readableToo
      rw [inductionHypothesis othersToo]

/-- Every starting sequence of the end of a page starts a directive. -/
theorem Directives.suffix {page text : Text} (all : Directives around documentRoot page)
    (suffix : text <:+ page) : Directives around documentRoot text :=
  fun s stands => all s (stands.trans suffix)

/-- The first directive of a text. -/
theorem Directives.first {text front s : Text} (all : Directives around documentRoot text)
    (starts : cutText startingSequence text = some (front, s)) :
    NamesFile around documentRoot s :=
  all s ⟨front, (cutText_parts starts).symm⟩

/-- The directives of a text can be replaced. -/
theorem Directives.expands {text : Text} (all : Directives around documentRoot text) :
    ∃ out, Expands around documentRoot text out := by
  induction length : text.length using Nat.strongRecOn generalizing text with
  | ind size inductionHypothesis =>
    subst length
    cases starts : cutText startingSequence text with
    | none => exact ⟨text, .plain starts⟩
    | some cut =>
      obtain ⟨front, s⟩ := cut
      obtain ⟨body, rest, name, content, ends, wellFormed, readable, -⟩ := all.first starts
      obtain ⟨suffix, shorter⟩ := cutText_suffix startingSequence_ne_nil starts
      obtain ⟨suffixToo, shorterToo⟩ := cutText_suffix endingSequence_ne_nil ends
      obtain ⟨out, others⟩ := inductionHypothesis _ (Nat.lt_trans shorterToo shorter)
        (all.suffix (suffixToo.trans suffix)) rfl
      exact ⟨_, .directive starts ends wellFormed readable others⟩

/-- A text ends with a line, when it is not empty. -/
def Ended (text : Text) : Prop := ∀ last ∈ text.getLast?, last = lineFeed

/-- In nothing there is nothing to replace. -/
theorem Expands.nil_eq {out : Text} (expands : Expands around documentRoot [] out) : out = [] := by
  cases expands with
  | plain absent => rfl
  | directive starts ends wellFormed readable others => cases starts

/-- Text without a directive stays in front of what is replaced, when it ends with a line or the
page does not go on. -/
theorem Expands.behind {text rest out : Text} (absent : cutText startingSequence text = none)
    (ended : rest = [] ∨ Ended text) (expands : Expands around documentRoot rest out) :
    Expands around documentRoot (text ++ rest) (text ++ out) := by
  obtain rfl | ended := ended
  · rw [expands.nil_eq, List.append_nil]
    exact .plain absent
  · have without : ∀ last ∈ text.getLast?, last ∉ startingSequence := by
      intro last member
      rw [ended last member]
      exact lineFeed_notMem_starting
    have cut := cutText_behind absent without rest
    cases expands with
    | plain none =>
      rw [none] at cut
      exact .plain cut
    | directive starts ends wellFormed readable others =>
      rw [starts] at cut
      rw [← List.append_assoc]
      exact .directive cut ends wellFormed readable others

/-- A new line is not in a directive, so it stays. -/
theorem Expands.lineFeed_mem {text out : Text} (expands : Expands around documentRoot text out)
    (present : lineFeed ∈ text) : lineFeed ∈ out := by
  induction expands with
  | plain absent => exact present
  | directive starts ends wellFormed readable others inductionHypothesis =>
    rw [cutText_parts starts, cutText_parts ends] at present
    simp only [List.mem_append] at present ⊢
    obtain inFront | absurd | absurd | absurd | inRest := present
    · exact .inl inFront
    · exact (lineFeed_notMem_starting absurd).elim
    · exact (wellFormed.1 absurd).elim
    · exact (lineFeed_notMem_ending absurd).elim
    · exact .inr (.inr (inductionHypothesis inRest))

/-! ## Counting -/

/-- What is behind a directive is a shorter end of the text. -/
theorem behindDirective_suffix {text rest : Text} (found : behindDirective text = some rest) :
    rest <:+ text ∧ rest.length < text.length := by
  obtain ⟨⟨front, s⟩, starts, found⟩ := Option.bind_eq_some_iff.mp found
  obtain ⟨⟨body, behind⟩, ends, found⟩ := Option.bind_eq_some_iff.mp found
  obtain rfl := Option.some.inj found
  obtain ⟨suffix, shorter⟩ := cutText_suffix startingSequence_ne_nil starts
  obtain ⟨suffixToo, shorterToo⟩ := cutText_suffix endingSequence_ne_nil ends
  exact ⟨suffixToo.trans suffix, Nat.lt_trans shorterToo shorter⟩

/-- Bounds that are not less than the length give the same number. -/
theorem directivesLoop_enough {first second : Nat} {text : Text} (enough : text.length ≤ first)
    (enoughToo : text.length ≤ second) :
    directivesLoop first text = directivesLoop second text := by
  induction first generalizing second text with
  | zero =>
    obtain rfl := List.eq_nil_of_length_eq_zero (Nat.le_zero.mp enough)
    cases second with
    | zero => rfl
    | succ second => rfl
  | succ first inductionHypothesis =>
    cases second with
    | zero =>
      obtain rfl := List.eq_nil_of_length_eq_zero (Nat.le_zero.mp enoughToo)
      rfl
    | succ second =>
      rw [directivesLoop, directivesLoop]
      cases found : behindDirective text with
      | none => rfl
      | some rest =>
        have shorter := (behindDirective_suffix found).2
        dsimp only
        rw [@inductionHypothesis second rest (by omega) (by omega)]

/-- A text without a directive has none. -/
theorem directives_none {text : Text} (absent : behindDirective text = none) :
    directives text = 0 := by
  rw [directives]
  cases text.length with
  | zero => rfl
  | succ size => rw [directivesLoop, absent]

/-- The first directive, and those behind it. -/
theorem directives_some {text rest : Text} (found : behindDirective text = some rest) :
    directives text = directives rest + 1 := by
  have shorter := (behindDirective_suffix found).2
  obtain ⟨size, length⟩ : ∃ size, text.length = size + 1 := ⟨text.length - 1, by omega⟩
  rw [directives, length, directivesLoop, found, directives]
  dsimp only
  rw [directivesLoop_enough (by omega) (Nat.le_refl rest.length)]

/-- A directive ends on its line, so that what follows a line does not matter. -/
theorem NamesFile.inside {s more : Text} (names : NamesFile around documentRoot (s ++ more))
    (last : s.getLast? = some lineFeed) : NamesFile around documentRoot s := by
  obtain ⟨body, rest, name, content, ends, wellFormed, readable, nonul⟩ := names
  obtain ⟨behind, inner, -⟩ := cutText_inside lineFeed_notMem_ending last ends wellFormed.1
  exact ⟨body, behind, name, content, inner, wellFormed, readable, nonul⟩

/-- Every starting sequence of the lines at the front of a page starts a directive. -/
theorem Directives.front {text more : Text}
    (all : Directives around documentRoot (text ++ more)) (ended : Ended text) :
    Directives around documentRoot text := by
  rintro s ⟨front, rfl⟩
  have names : NamesFile around documentRoot (s ++ more) := by
    apply all
    rw [List.append_assoc, List.append_assoc]
    exact List.suffix_append front _
  apply names.inside
  cases last : s.getLast? with
  | none =>
    obtain rfl := List.getLast?_eq_none_iff.mp last
    have absurd := ended 0x23 (by rw [List.append_nil, List.getLast?_append]; rfl)
    cases absurd
  | some byte =>
    have final : (front ++ (startingSequence ++ s)).getLast? = some byte := by
      rw [List.getLast?_append, List.getLast?_append, last]
      rfl
    rw [ended byte final]

/-- The cut at a directive. -/
theorem behindDirective_of {text front s body rest : Text}
    (starts : cutText startingSequence text = some (front, s))
    (ends : cutText endingSequence s = some (body, rest)) : behindDirective text = some rest := by
  rw [behindDirective, bind_of_some starts]
  exact bind_of_some ends

/-- What is behind a directive ends as the lines that it is in. -/
theorem Ended.behind {text front s body rest : Text} (ended : Ended text)
    (starts : cutText startingSequence text = some (front, s))
    (ends : cutText endingSequence s = some (body, rest)) : rest.getLast? = some lineFeed := by
  have present : text ≠ [] := by
    rintro rfl
    cases starts
  have last := List.getLast?_eq_some_getLast present
  rw [ended _ last] at last
  exact cutText_getLast endingSequence_ne_nil lineFeed_notMem_ending ends
    (cutText_getLast startingSequence_ne_nil lineFeed_notMem_starting starts last)

/-- What is behind the first directive of lines that go on. -/
theorem behindDirective_append {text : Text} (all : Directives around documentRoot text)
    (ended : Ended text) (more : Text) :
    (behindDirective text = none ∧ behindDirective (text ++ more) = behindDirective more) ∨
      ∃ rest, behindDirective text = some rest ∧ rest.getLast? = some lineFeed ∧
        behindDirective (text ++ more) = some (rest ++ more) := by
  cases starts : cutText startingSequence text with
  | none =>
    left
    have without : ∀ last ∈ text.getLast?, last ∉ startingSequence := by
      intro last member
      rw [ended last member]
      exact lineFeed_notMem_starting
    constructor
    · rw [behindDirective, starts]
      rfl
    · rw [behindDirective, cutText_behind starts without, behindDirective]
      cases cutText startingSequence more with
      | none => rfl
      | some cut => rfl
  | some cut =>
    right
    obtain ⟨front, s⟩ := cut
    obtain ⟨body, rest, name, content, ends, -⟩ := all.first starts
    exact ⟨rest, behindDirective_of starts ends, ended.behind starts ends,
      behindDirective_of (cutText_append starts more) (cutText_append ends more)⟩

/-- A text with a last byte that is a new line ends with a line. -/
theorem ended_of_last {text : Text} (last : text.getLast? = some lineFeed) : Ended text := by
  intro final member
  rw [last] at member
  exact (Option.some.inj member).symm

/-- The directives of lines that go on. -/
theorem directives_append {text : Text} (all : Directives around documentRoot text)
    (ended : Ended text) (more : Text) :
    directives (text ++ more) = directives text + directives more := by
  induction length : text.length using Nat.strongRecOn generalizing text with
  | ind size inductionHypothesis =>
    subst length
    obtain ⟨absent, same⟩ | ⟨rest, found, last, longer⟩ := behindDirective_append all ended more
    · rw [directives_none absent, Nat.zero_add]
      cases found : behindDirective more with
      | none => rw [directives_none found, directives_none (same.trans found)]
      | some rest => rw [directives_some found, directives_some (same.trans found)]
    · obtain ⟨suffix, shorter⟩ := behindDirective_suffix found
      rw [directives_some longer, directives_some found,
        inductionHypothesis _ shorter (all.suffix suffix) (ended_of_last last) rfl]
      omega

/-- Of a queue that serves one in each step so many are left. -/
def serve {α : Type} (coming : α → Nat) : Nat → List α → Nat
  | waiting, [] => waiting
  | waiting, step :: later => serve coming (waiting + coming step - 1) later

/-- Nobody is left if and only if in no run of steps up to the end more come than are served. -/
theorem serve_eq_zero {α : Type} {coming : α → Nat} {waiting : Nat} {steps : List α} :
    serve coming waiting steps = 0 ↔ waiting + (steps.map coming).sum ≤ steps.length ∧
      ∀ run, run <:+ steps → (run.map coming).sum ≤ run.length := by
  induction steps generalizing waiting with
  | nil =>
    rw [serve, List.map_nil, List.sum_nil, List.length_nil, Nat.add_zero, Nat.le_zero]
    constructor
    · intro none
      refine ⟨none, fun run suffix => ?_⟩
      rw [List.suffix_nil.mp suffix]
      exact Nat.le_refl 0
    · exact fun both => both.1
  | cons step later inductionHypothesis =>
    rw [serve, inductionHypothesis, List.map_cons, List.sum_cons, List.length_cons]
    constructor
    · rintro ⟨total, runs⟩
      refine ⟨by omega, fun run suffix => ?_⟩
      obtain rfl | shorter := List.suffix_cons_iff.mp suffix
      · rw [List.map_cons, List.sum_cons, List.length_cons]
        omega
      · exact runs run shorter
    · rintro ⟨total, runs⟩
      have served := runs later (List.suffix_cons step later)
      exact ⟨by omega, fun run suffix => runs run (suffix.trans (List.suffix_cons step later))⟩

/-- No text ends with a line. -/
theorem Ended.nil : Ended [] := by
  intro last absurd
  cases absurd

/-- Lines that are put behind lines. -/
theorem Ended.append {text more : Text} (ended : Ended text) (endedToo : Ended more) :
    Ended (text ++ more) := by
  intro last member
  rw [List.getLast?_append] at member
  cases final : more.getLast? with
  | none =>
    rw [final] at member
    exact ended last member
  | some byte =>
    rw [final] at member
    obtain rfl := Option.some.inj member
    exact endedToo byte final

/-- Lines that are put together. -/
theorem Ended.flatten {list : List Text} (ended : ∀ line ∈ list, Ended line) :
    Ended list.flatten := by
  induction list with
  | nil => exact .nil
  | cons line rest inductionHypothesis =>
    rw [List.forall_mem_cons] at ended
    exact ended.1.append (inductionHypothesis ended.2)

/-- Of the directives in lines so many are left as of a queue. -/
theorem leftOver_serve {remaining : Text} {front : List Text}
    (all : Directives around documentRoot (remaining ++ front.flatten)) (ended : Ended remaining)
    (endedToo : ∀ line ∈ front, Ended line) :
    directives (leftOver remaining front) = serve directives (directives remaining) front ∧
      Directives around documentRoot (leftOver remaining front) ∧
      Ended (leftOver remaining front) := by
  induction front generalizing remaining with
  | nil =>
    rw [List.flatten_nil, List.append_nil] at all
    exact ⟨rfl, all, ended⟩
  | cons line rest inductionHypothesis =>
    rw [List.forall_mem_cons] at endedToo
    rw [List.flatten_cons, ← List.append_assoc] at all
    have lineEnded := ended.append endedToo.1
    have here := all.front lineEnded
    have total := directives_append (here.front ended) ended line
    rw [leftOver, serve]
    cases found : behindDirective (remaining ++ line) with
    | none =>
      have none := directives_none found
      have others := inductionHypothesis (all.suffix (List.suffix_append _ _)) Ended.nil endedToo.2
      have same : directives [] = directives remaining + directives line - 1 := by
        rw [directives_none rfl]
        omega
      rw [← same]
      exact others
    | some behind =>
      have more := directives_some found
      obtain ⟨absent, -⟩ | ⟨other, foundToo, last, -⟩ := behindDirective_append here lineEnded []
      · rw [found] at absent
        cases absent
      · rw [found] at foundToo
        obtain rfl := Option.some.inj foundToo
        obtain ⟨inFront, cut⟩ := (behindDirective_suffix found).1
        have suffix : behind ++ rest.flatten <:+ remaining ++ line ++ rest.flatten := by
          rw [← cut, List.append_assoc]
          exact List.suffix_append _ _
        have others := inductionHypothesis (all.suffix suffix) (ended_of_last last) endedToo.2
        have same : directives behind = directives remaining + directives line - 1 := by omega
        rw [← same]
        exact others

/-- The last line comes to what is left of the others. -/
theorem leftOver_concat (remaining : Text) (front : List Text) (last : Text) :
    leftOver remaining (front ++ [last]) =
      (behindDirective (leftOver remaining front ++ last)).getD [] := by
  induction front generalizing remaining with
  | nil => rfl
  | cons line rest inductionHypothesis => exact inductionHypothesis _

/-- What is left when a page has been read is replaced by nothing if and only if the page is
drained. -/
theorem leftOver_expands_iff {page : Text} (all : Directives around documentRoot page) :
    Expands around documentRoot (leftOver [] (lines page)) [] ↔
      Drained around documentRoot page := by
  unfold Drained
  obtain empty | ⟨front, last, cut⟩ := List.eq_nil_or_concat (lines page)
  · rw [empty]
    apply iff_of_true
    · exact .plain rfl
    · constructor
      · intro run suffix
        rw [List.suffix_nil.mp suffix]
        exact Nat.le_refl 0
      · intro last absurd
        cases absurd
  · rw [List.concat_eq_append] at cut
    have ends := lines_ended page
    have whole := lines_flatten page
    rw [cut, List.dropLast_concat] at ends
    rw [cut, List.flatten_append, List.flatten_singleton] at whole
    have endedLines : ∀ line ∈ front, Ended line :=
      fun line member => ended_of_last (ends line member)
    rw [← whole] at all
    obtain ⟨count, allLeft, endedLeft⟩ :=
      leftOver_serve (all.front (Ended.flatten endedLines)) Ended.nil endedLines
    have zero : directives [] = 0 := directives_none rfl
    rw [zero] at count
    rw [cut, List.dropLast_concat, List.getLast?_concat, leftOver_concat]
    have runs := @serve_eq_zero _ directives 0 front
    obtain ⟨absent, same⟩ | ⟨rest, found, final, longer⟩ :=
      behindDirective_append allLeft endedLeft last
    · rw [directives_none absent] at count
      rw [and_iff_right (runs.mp count.symm).2, same]
      cases found : behindDirective last with
      | none =>
        apply iff_of_true
        · exact .plain rfl
        · intro other member rest absurd
          obtain rfl := Option.some.inj member
          rw [found] at absurd
          cases absurd
      | some rest =>
        constructor
        · intro expands other member behind foundToo
          obtain rfl := Option.some.inj member
          rw [found] at foundToo
          obtain rfl := Option.some.inj foundToo
          exact expands
        · exact fun all => all last rfl rest found
    · rw [directives_some found] at count
      apply iff_of_false
      · intro expands
        rw [longer] at expands
        have present : lineFeed ∈ rest ++ last :=
          List.mem_append_left last (List.mem_of_getLast? final)
        cases expands.lineFeed_mem present
      · rintro ⟨few, -⟩
        have none := runs.mpr ⟨by rw [Nat.zero_add]; exact few front (List.suffix_refl front), few⟩
        omega

end Ezcfg.Ssi

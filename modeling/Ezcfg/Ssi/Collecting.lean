import Ezcfg.Ssi.Expansion

/-!
# Collecting a page

What the calls return is the text of the page with its directives replaced, up to what is left when
the last line has been read. This is not returned, since the call that follows finds no line to
read behind it.
-/

namespace Ezcfg.Ssi

open Foundation TextCuts
open Http (ascii)

variable {around : Surroundings} {documentRoot : Text} {size : Nat}

/-- A reader that is not at a directive. -/
def between (documentRoot fp : Text) (remaining : Option Text) : Reader :=
  ⟨documentRoot, fp, remaining, none, [], none⟩

/-- A reader that is at an include directive. -/
def including (documentRoot fp remaining name : Text) (data : Option Text) : Reader :=
  ⟨documentRoot, fp, some remaining, some includeEntry, [name], data⟩

/-- The calls up to minus one return one text. -/
theorem Collects.unique {ssi : Reader} {first second : Text}
    (collects : Collects around size ssi first) (other : Collects around size ssi second) : first = second := by
  induction collects generalizing second with
  | done call =>
    cases other with
    | done callToo => rfl
    | next callToo more rest =>
      rw [call] at callToo
      obtain ⟨rfl, -⟩ := Prod.mk.inj (Option.some.inj callToo)
      exact absurd rfl more
  | next call more rest inductionHypothesis =>
    cases other with
    | done callToo =>
      rw [call] at callToo
      obtain ⟨rfl, -⟩ := Prod.mk.inj (Option.some.inj callToo)
      exact absurd rfl more
    | next callToo moreToo restToo =>
      rw [call] at callToo
      obtain ⟨rfl, same⟩ := Prod.mk.inj (Option.some.inj callToo)
      obtain ⟨rfl, rfl⟩ := Prod.mk.inj same
      rw [inductionHypothesis restToo]

/-- A text without zero bytes is a string. -/
theorem cstring_nonul {buf : Text} (nonul : 0 ∉ buf) : cstring buf = buf := by
  rw [cstring, List.takeWhile_eq_self_iff]
  intro byte member
  rw [decide_eq_true_iff]
  rintro rfl
  exact nonul member

/-- A call that returns the length of its string. -/
theorem Collects.string {ssi after : Reader} {buf out : Text}
    (call : ssiFileGetLine around size ssi = some ((buf.length : Int), buf, after))
    (rest : Collects around size after out) : Collects around size ssi (buf ++ out) := by
  have collects := Collects.next call (by omega) rest
  by_cases empty : buf = []
  · subst empty
    exact collects
  · have positive := List.length_pos_iff.mpr empty
    rw [if_pos (by omega)] at collects
    exact collects

/-- At the end of a file there is no line. -/
theorem fgets_end {room : Nat} (enough : 2 ≤ room) : fgets room [] = some none := by
  rw [fgets, bind_of_some (ensure_of enough)]
  rfl

/-- In a file that has not ended there is a line. -/
theorem fgets_line {room : Nat} {file : Text} (enough : 2 ≤ room) (present : file ≠ []) :
    fgets room file = some (some (readLine (room - 1) file)) := by
  rw [fgets, bind_of_some (ensure_of enough), if_neg present]
  rfl

/-- Readers with the same call collect the same text. -/
theorem Collects.of_call {ssi other : Reader} {out : Text}
    (same : ssiFileGetLine around size ssi = ssiFileGetLine around size other)
    (collects : Collects around size other out) : Collects around size ssi out := by
  cases collects with
  | done call => exact .done (same.trans call)
  | next call more rest => exact .next (same.trans call) more rest

/-- A line that there is room for is read. -/
theorem fgets_first {room : Nat} {file line : Text} {others : List Text}
    (cut : lines file = line :: others) (fits : line.length + 1 ≤ room) :
    ∃ rest, fgets room file = some (some (line, rest)) ∧ file = line ++ rest ∧
      lines rest = others ∧ (rest = [] ∨ line.getLast? = some lineFeed) := by
  have member : line ∈ lines file := by
    rw [cut]
    exact List.mem_cons_self
  have present : file ≠ [] := by
    rintro rfl
    cases cut
  have positive := List.length_pos_iff.mpr (lines_nonempty file line member)
  obtain ⟨first, later⟩ := readLine_first cut (by omega : line.length ≤ room - 1)
  refine ⟨(readLine (room - 1) file).2, ?_, ?_, later, ?_⟩
  · rw [fgets_line (by omega) present, ← first]
  · rw [← first]
    exact (readLine_append (room - 1) file).symm
  · cases others with
    | nil =>
      left
      by_contra more
      exact lines_ne_nil more later
    | cons other others =>
      right
      apply lines_ended file
      rw [cut]
      exact List.mem_cons_self

/-! ## The file of a directive -/

section

variable {fp remaining name : Text}

/-- The file of a directive is opened by the first call for it. -/
theorem getLine_open {content : Text}
    (readable : around.files (documentRoot ++ name) = some content) :
    ssiFileGetLine around size (including documentRoot fp remaining name none) =
      ssiFileGetLine around size (including documentRoot fp remaining name (some content)) := by
  have file : includeFile around documentRoot name = some content := readable
  simp only [ssiFileGetLine, including, includeEntry, Handler.call, fileHandler,
    List.getElem?_cons_zero, file, readData, Option.bind_eq_bind, Option.bind_some]

variable (enough : 2 ≤ size)

include enough

/-- At the end of the file the reader goes back to the page. -/
theorem getLine_dataEnd :
    ssiFileGetLine around size (including documentRoot fp remaining name (some [])) =
      some (0, [], between documentRoot fp (some remaining)) := by
  have reading : readData size (including documentRoot fp remaining name (some [])) [] =
      some (0, [], including documentRoot fp remaining name (some [])) := by
    rw [readData, bind_of_some (fgets_end enough)]
    rfl
  exact bind_of_some reading

/-- A line of the file is returned. -/
theorem getLine_data {data : Text} (nonul : 0 ∉ data) (present : data ≠ []) :
    ssiFileGetLine around size (including documentRoot fp remaining name (some data)) =
      some (((readLine (size - 1) data).1.length : Int), (readLine (size - 1) data).1,
        including documentRoot fp remaining name (some (readLine (size - 1) data).2)) := by
  have whole := readLine_append (size - 1) data
  have less := readLine_less (by omega : 0 < size - 1) present
  have nonulLine : 0 ∉ (readLine (size - 1) data).1 := by
    intro member
    apply nonul
    rw [← whole]
    exact List.mem_append_left _ member
  have letters : ((readLine (size - 1) data).1.length : Int) ≠ 0 := by
    have total := congrArg List.length whole
    rw [List.length_append] at total
    omega
  have reading : readData size (including documentRoot fp remaining name (some data)) data =
      some (((readLine (size - 1) data).1.length : Int), (readLine (size - 1) data).1,
        including documentRoot fp remaining name (some (readLine (size - 1) data).2)) := by
    rw [readData, bind_of_some (fgets_line enough present)]
    dsimp only
    rw [cstring_nonul nonulLine]
    rfl
  exact (bind_of_some reading).trans (if_neg letters)

/-- The file of a directive is returned line by line, and the reader goes back to the page. -/
theorem collects_data {data out : Text} (nonul : 0 ∉ data)
    (rest : Collects around size (between documentRoot fp (some remaining)) out) :
    Collects around size (including documentRoot fp remaining name (some data)) (data ++ out) := by
  induction length : data.length using Nat.strongRecOn generalizing data with
  | ind bound inductionHypothesis =>
    subst length
    by_cases empty : data = []
    · subst empty
      exact Collects.string (getLine_dataEnd enough) rest
    · have whole := readLine_append (size - 1) data
      have less := readLine_less (by omega : 0 < size - 1) empty
      have nonulRest : 0 ∉ (readLine (size - 1) data).2 := by
        intro member
        apply nonul
        rw [← whole]
        exact List.mem_append_right _ member
      have later := inductionHypothesis _ less nonulRest rfl
      have collects := Collects.string (getLine_data enough nonul empty) later
      rw [← List.append_assoc, whole] at collects
      exact collects

end

/-! ## The page -/

section

variable {fp : Text} {remaining : Option Text}

/-- A call that is not at a directive reads a line of the page behind what is left. -/
theorem getLine_between (room : (remaining.getD []).length < size) :
    ssiFileGetLine around size (between documentRoot fp remaining) =
      readPage size (remaining.getD []) (between documentRoot fp none) := by
  cases remaining with
  | none => rfl
  | some text => exact if_neg (Nat.not_le.mpr room)

/-- At the end of the page what is left is not returned. -/
theorem getLine_pageEnd (room : (remaining.getD []).length + 1 < size) :
    ssiFileGetLine around size (between documentRoot [] remaining) =
      some (-1, remaining.getD [], between documentRoot [] none) := by
  rw [getLine_between (by omega), readPage]
  refine (bind_of_some (fgets_end (by omega))).trans ?_
  rfl

/-- A line without a directive is returned. -/
theorem getLine_plain {line rest : Text} (room : (remaining.getD []).length < size)
    (reading : fgets (size - (remaining.getD []).length) fp = some (some (line, rest)))
    (nonul : 0 ∉ remaining.getD [] ++ line)
    (absent : cutText startingSequence (remaining.getD [] ++ line) = none) :
    ssiFileGetLine around size (between documentRoot fp remaining) =
      some (((remaining.getD [] ++ line).length : Int), remaining.getD [] ++ line,
        between documentRoot rest none) := by
  rw [getLine_between room, readPage]
  refine (bind_of_some reading).trans ?_
  dsimp only
  rw [cstring_nonul nonul, absent]
  rfl

/-- What is in front of a directive is returned, and what is behind it is left. -/
theorem getLine_directive {line rest front s body behind name : Text}
    (room : (remaining.getD []).length < size)
    (reading : fgets (size - (remaining.getD []).length) fp = some (some (line, rest)))
    (nonul : 0 ∉ remaining.getD [] ++ line)
    (starts : cutText startingSequence (remaining.getD [] ++ line) = some (front, s))
    (ends : cutText endingSequence s = some (body, behind))
    (wellFormed : IncludeDirective body name) :
    ssiFileGetLine around size (between documentRoot fp remaining) =
      some ((front.length : Int), front, including documentRoot rest behind name none) := by
  rw [getLine_between room, readPage]
  refine (bind_of_some reading).trans ?_
  dsimp only
  rw [cstring_nonul nonul, starts]
  dsimp only
  rw [ends]
  dsimp only
  rw [wellFormed.parse]
  rfl

end

/-- What the calls return, and what replaces the directives in what is left, are the text of the
page with its directives replaced. -/
theorem collects_page {fp : Text} {remaining : Option Text}
    (all : Directives around documentRoot (remaining.getD [] ++ fp))
    (nonul : 0 ∉ remaining.getD [] ++ fp) (room : (remaining.getD [] ++ fp).length + 1 < size)
    (ended : fp = [] ∨ Ended (remaining.getD [])) :
    ∃ out lost, Collects around size (between documentRoot fp remaining) out ∧
      Expands around documentRoot (leftOver (remaining.getD []) (lines fp)) lost ∧
      Expands around documentRoot (remaining.getD [] ++ fp) (out ++ lost) := by
  induction length : fp.length using Nat.strongRecOn generalizing fp remaining with
  | ind bound inductionHypothesis =>
    subst length
    rw [List.length_append] at room
    by_cases empty : fp = []
    · subst empty
      obtain ⟨lost, expands⟩ := all.expands
      refine ⟨[], lost, .done (getLine_pageEnd (by omega)), ?_, expands⟩
      rw [List.append_nil] at expands
      exact expands
    · obtain ⟨line, others, cut⟩ := List.exists_cons_of_ne_nil (lines_ne_nil empty)
      have endedLeft : Ended (remaining.getD []) := ended.resolve_left empty
      have fits : line.length + 1 ≤ size - (remaining.getD []).length := by
        have total := congrArg List.length (lines_flatten fp)
        rw [cut, List.flatten_cons, List.length_append] at total
        omega
      obtain ⟨rest, reading, rfl, later, lineEnded⟩ := fgets_first cut fits
      have positive := List.length_pos_iff.mpr (lines_nonempty _ line (by rw [cut]; simp))
      have endedText : rest = [] ∨ Ended (remaining.getD [] ++ line) :=
        lineEnded.imp_right fun last => endedLeft.append (ended_of_last last)
      rw [List.length_append] at room
      rw [← List.append_assoc] at all nonul ⊢
      rw [List.mem_append, not_or] at nonul
      rw [cut, leftOver, ← later]
      cases starts : cutText startingSequence (remaining.getD [] ++ line) with
      | none =>
        have nothing : behindDirective (remaining.getD [] ++ line) = none := by
          rw [behindDirective, starts]
          rfl
        obtain ⟨out, lost, collects, left, expands⟩ :=
          @inductionHypothesis rest.length (by rw [List.length_append]; omega) rest none
            (all.suffix (List.suffix_append _ rest)) nonul.2
            (by rw [Option.getD_none, List.nil_append]; omega) (.inr Ended.nil) rfl
        rw [nothing]
        refine ⟨_, lost, .string (getLine_plain (by omega) reading nonul.1 starts) collects,
          left, ?_⟩
        rw [List.append_assoc _ out lost]
        exact .behind starts endedText expands
      | some cutHere =>
        obtain ⟨front, s⟩ := cutHere
        have here : Directives around documentRoot (remaining.getD [] ++ line) := by
          obtain rfl | endedHere := endedText
          · rwa [List.append_nil] at all
          · exact all.front endedHere
        obtain ⟨body, behind, name, content, ends, wellFormed, readable, nonulContent⟩ :=
          here.first starts
        have found := behindDirective_of starts ends
        obtain ⟨⟨inFront, parts⟩, shorter⟩ := behindDirective_suffix found
        rw [List.length_append] at shorter
        have suffix : behind ++ rest <:+ remaining.getD [] ++ line ++ rest := by
          rw [← parts, List.append_assoc]
          exact List.suffix_append _ _
        have nonulBehind : 0 ∉ behind ++ rest := by
          rw [List.mem_append, not_or]
          refine ⟨fun member => nonul.1 ?_, nonul.2⟩
          rw [← parts]
          exact List.mem_append_right _ member
        obtain ⟨out, lost, collects, left, expands⟩ :=
          @inductionHypothesis rest.length (by rw [List.length_append]; omega) rest (some behind)
            (all.suffix suffix) nonulBehind
            (by rw [Option.getD_some, List.length_append]; omega)
            (endedText.imp_right fun endedHere => ended_of_last (endedHere.behind starts ends)) rfl
        rw [found]
        refine ⟨_, lost, .string
          (getLine_directive (by omega) reading nonul.1 starts ends wellFormed)
          (.of_call (getLine_open readable) (collects_data (by omega) nonulContent collects)),
          left, ?_⟩
        rw [List.append_assoc front, List.append_assoc content]
        exact .directive (cutText_append starts rest) (cutText_append ends rest) wellFormed
          readable expands

/-- The calls return the text of a page with each directive replaced by the file that it names if
and only if the page is drained: up to the last line there are, from any line on, no more directives
than lines, and what is behind the first directive of the last line is replaced by nothing. -/
theorem collects_iff {page expanded : Text} (all : Directives around documentRoot page)
    (nonul : 0 ∉ page) (room : page.length + 1 < size)
    (expands : Expands around documentRoot page expanded) :
    Collects around size (opened documentRoot page) expanded ↔
      Drained around documentRoot page := by
  obtain ⟨out, lost, collects, left, replaced⟩ :=
    @collects_page around documentRoot size page none all nonul room (.inr Ended.nil)
  rw [← leftOver_expands_iff all]
  have whole : expanded = out ++ lost := expands.unique replaced
  constructor
  · intro returned
    have same : out = out ++ lost := (collects.unique returned).trans whole
    obtain rfl := List.self_eq_append_right.mp same
    exact left
  · intro nothing
    obtain rfl := left.unique nothing
    rw [whole, List.append_nil]
    exact collects

/-- What stands between the sequences of a directive. -/
def body : Text := ascii "include virtual=" ++ [quote, 0x66, quote]

/-- A line with a directive. -/
def included : Text := startingSequence ++ (body ++ (endingSequence ++ [lineFeed]))

/-- One file can be read. -/
def oneFile : Surroundings where
  files path := if path = ascii "f" then some (ascii "A") else none
  nvram _ := none

/-- The directive of the line. -/
theorem body_includeDirective : IncludeDirective body (ascii "f") := by
  refine ⟨by decide, 0, ascii "f", [], by decide, ⟨by decide, ?_⟩, by decide⟩
  exact (by decide : (0x66 : UInt8) ≠ backslash)

/-- The end of the directive. -/
theorem body_ends (rest : Text) :
    cutText endingSequence (body ++ (endingSequence ++ [lineFeed]) ++ rest) =
      some (body, [lineFeed] ++ rest) := by
  have ends : cutText endingSequence (body ++ (endingSequence ++ [lineFeed])) =
      some (body, [lineFeed]) := by
    decide
  exact cutText_append ends rest

/-- The line starts with the directive. -/
theorem included_starts (rest : Text) :
    cutText startingSequence (included ++ rest) =
      some ([], body ++ (endingSequence ++ [lineFeed]) ++ rest) := by
  rw [included, List.append_assoc]
  exact cutText_here startingSequence_ne_nil _

/-- Only the directive starts with a starting sequence. -/
theorem included_directives {rest : Text} (only : ∀ text ∈ (included ++ rest).tails,
    startingSequence <+: text → text = included ++ rest) :
    Directives oneFile [] (included ++ rest) := by
  intro s stands
  have same := only _ ((List.mem_tails _ _).mpr stands) (List.prefix_append startingSequence s)
  rw [included, List.append_assoc] at same
  rw [List.append_cancel_left same]
  exact ⟨body, [lineFeed] ++ rest, ascii "f", ascii "A", body_ends rest, body_includeDirective, rfl,
    by decide⟩

/-- The directive is replaced. -/
theorem included_expands {rest : Text}
    (absent : cutText startingSequence ([lineFeed] ++ rest) = none) :
    Expands oneFile [] (included ++ rest) (ascii "A" ++ ([lineFeed] ++ rest)) := by
  have readable : oneFile.files ([] ++ ascii "f") = some (ascii "A") := rfl
  have expands := Expands.directive (included_starts rest) (body_ends rest)
    body_includeDirective readable (.plain absent)
  rw [List.nil_append] at expands
  exact expands

/-- A page with another line behind the directive is returned with the directive replaced. -/
theorem collects_iff_included :
    Collects oneFile 64 (opened [] (included ++ [0x62])) (ascii "A" ++ ([lineFeed] ++ [0x62])) := by
  apply (collects_iff (included_directives (by decide)) (by decide) (by decide)
    (included_expands (by decide))).mpr
  constructor
  · have few : ∀ run ∈ (lines (included ++ [0x62])).dropLast.tails,
        (run.map directives).sum ≤ run.length := by
      decide
    intro run suffix
    exact few run ((List.mem_tails _ _).mpr suffix)
  · intro last member rest found
    obtain rfl := Option.some.inj member
    cases found

/-- When the directive is in the last line, the new line behind it is not returned. -/
theorem not_collects_included :
    Directives oneFile [] included ∧ 0 ∉ included ∧ included.length + 1 < 64 ∧
      Expands oneFile [] included (ascii "A" ++ [lineFeed]) ∧
      ¬Collects oneFile 64 (opened [] included) (ascii "A" ++ [lineFeed]) := by
  have all : Directives oneFile [] (included ++ []) := included_directives (by decide)
  have expands : Expands oneFile [] (included ++ []) (ascii "A" ++ ([lineFeed] ++ [])) :=
    included_expands (by decide)
  rw [List.append_nil] at all expands
  rw [List.append_nil] at expands
  refine ⟨all, by decide, by decide, expands, ?_⟩
  intro collects
  have shorter : Collects oneFile 64 (opened [] included) ([] ++ (ascii "A" ++ [])) := by
    have reading : fgets (64 - 0) included = some (some (included, [])) := by decide
    have starts : cutText startingSequence included =
        some ([], body ++ (endingSequence ++ [lineFeed])) := by
      decide
    have ends : cutText endingSequence (body ++ (endingSequence ++ [lineFeed])) =
        some (body, [lineFeed]) := by
      decide
    have room : ((some [lineFeed]).getD []).length + 1 < 64 := by decide
    apply Collects.string
    · exact getLine_directive (by decide) reading (by decide) starts ends body_includeDirective
    · apply Collects.of_call (getLine_open rfl)
      apply collects_data (by decide) (by decide)
      exact .done (getLine_pageEnd room)
  have absurd := collects.unique shorter
  revert absurd
  decide

end Ezcfg.Ssi

import Ezcfg.Util.FileLines

/-!
# Reading a value from a configuration file

`ezcfg_util_get_conf_string` looks for a section of a file and in it for a keyword. It reads the
file through a buffer of 128 bytes, so that a longer line comes in pieces, and every piece is
taken for a line. The file is there as what the reads get of it.
-/

namespace Ezcfg.Util

open Foundation

/-- "[" -/
abbrev openBracket : UInt8 := 0x5b

/-- "]" -/
abbrev closeBracket : UInt8 := 0x5d

/-- "=" -/
abbrev equals : UInt8 := 0x3d

/-- `sizeof(line)` -/
abbrev lineSize : Nat := 128

/-- `EZCFG_EZCFG_TRAILING_CHARLIST` -/
def trailingCharlist : CString := ⟨[0x0d, 0x0a, 0x09, 0x20], by decide, by decide⟩

/-- The loop of `ezcfg_util_remove_trailing_charlist`: the value of `len` behind it. -/
def removeTrailing (l : CString) (s : List UInt8) : Nat → Nat
  | 0 => 0
  | len + 1 => if strchrFinds l (s.getD len 0) then removeTrailing l s len else len + 1

/-- `ezcfg_util_remove_trailing_charlist` -/
def removeTrailingCharlist (s : List UInt8) (l : CString) : List UInt8 :=
  s.take (removeTrailing l s s.length)

/-- Whether a line is the heading of the section. -/
def isSection (sectionName : CString) (line : List UInt8) : Bool :=
  line.headD 0 = openBracket ∧
    strncmp sectionName.length (bufferText (line.drop 1)) sectionName.bytes = .eq ∧
    line.getD (sectionName.length + 1) 0 = closeBracket

/-- Whether a line has the keyword and a value. -/
def isEntry (keyword : CString) (line : List UInt8) : Bool :=
  strncmp keyword.length (bufferText line) keyword.bytes = .eq ∧
    line.getD keyword.length 0 = equals

/-- The loop that looks for the section: the value of `i` behind it, and what is left. -/
def findSection (sectionName : CString) (idx : Int) :
    Int → List (List UInt8) → Int × List (List UInt8)
  | i, [] => (i, [])
  | i, line :: rest =>
    let i := if isSection sectionName line then i + 1 else i
    if i = idx then (i, rest) else findSection sectionName idx i rest

/-- The loop that looks for the keyword. -/
def findValue (keyword : CString) : List (List UInt8) → Option (List UInt8)
  | [] => none
  | line :: rest =>
    if line.headD 0 = openBracket then none
    else if isEntry keyword line then
      some (removeTrailingCharlist (bufferText (line.drop (keyword.length + 1))) trailingCharlist)
    else findValue keyword rest

/-- `ezcfg_util_get_conf_string` on a file that can be read; memory for the value is granted. -/
def getConfString (file : List UInt8) (sectionName : CString) (idx : Int) (keyword : CString) :
    Option (List UInt8) :=
  if idx < 0 ∨ sectionName.length < 1 ∨ keyword.length < 1 then none
  else if sectionName.length > lineSize - 3 ∨ keyword.length > lineSize - 2 then none
  else
    let (i, rest) := findSection sectionName idx (-1) (reads (lineSize - 1) file)
    if i = idx then findValue keyword rest else none

/-! ## What is to be returned -/

/-- The heading of a section. -/
def heading (sectionName : CString) : List UInt8 :=
  openBracket :: sectionName.bytes ++ [closeBracket]

/-- The keyword and what stands in front of its value. -/
def entryStart (keyword : CString) : List UInt8 := keyword.bytes ++ [equals]

/-- The lines behind a heading, and the heading. -/
def behindHeading (sectionName : CString) :
    Nat → List (List UInt8) → Option (List UInt8 × List (List UInt8))
  | _, [] => none
  | idx, line :: rest =>
    if heading sectionName <+: line then
      match idx with
      | 0 => some (line, rest)
      | idx + 1 => behindHeading sectionName idx rest
    else behindHeading sectionName idx rest

/-- The first line with the keyword in front of the next heading. -/
def entryLine (keyword : CString) : List (List UInt8) → Option (List UInt8)
  | [] => none
  | line :: rest =>
    if [openBracket] <+: line then none
    else if entryStart keyword <+: line then some line
    else entryLine keyword rest

/-- The line with the value. -/
def valueLine (file : List UInt8) (sectionName : CString) (idx : Nat) (keyword : CString) :
    Option (List UInt8) :=
  (behindHeading sectionName idx (lines file)).bind fun found => entryLine keyword found.2

/-- The value in a line. -/
def valueIn (keyword : CString) (line : List UInt8) : List UInt8 :=
  trimmed trailingCharlist (line.drop (keyword.length + 1))

/-- The value of the line is returned, or nothing where there is no such line. -/
def ReadsValue (file : List UInt8) (sectionName : CString) (idx : Nat) (keyword : CString) :
    Prop :=
  getConfString file sectionName idx keyword =
    (valueLine file sectionName idx keyword).map (valueIn keyword)

/-! ## What is behind the buffer -/

/-- The pieces of a line behind the first one. -/
def laterPieces (line : List UInt8) : List (List UInt8) := (reads (lineSize - 1) line).tail

/-- Before the heading is found, no later piece of a line is taken for one. -/
def QuietSearch (sectionName : CString) : Nat → List (List UInt8) → Prop
  | _, [] => True
  | idx, line :: rest =>
    if heading sectionName <+: line then
      match idx with
      | 0 => True
      | idx + 1 => (∀ piece ∈ laterPieces line, ¬ heading sectionName <+: piece) ∧
        QuietSearch sectionName idx rest
    else (∀ piece ∈ laterPieces line, ¬ heading sectionName <+: piece) ∧
      QuietSearch sectionName idx rest

/-- No later piece of a line is taken for a heading or for an entry. -/
def QuietPieces (keyword : CString) (line : List UInt8) : Prop :=
  ∀ piece ∈ laterPieces line, ¬ [openBracket] <+: piece ∧ ¬ entryStart keyword <+: piece

/-- Before the keyword is found, no later piece is taken for a heading or for an entry. -/
def QuietSection (keyword : CString) : List (List UInt8) → Prop
  | [] => True
  | line :: rest =>
    if [openBracket] <+: line then True
    else if entryStart keyword <+: line then True
    else QuietPieces keyword line ∧ QuietSection keyword rest

/-- No later piece of a line is taken for a heading or for an entry. -/
def Quiet (file : List UInt8) (sectionName : CString) (idx : Nat) (keyword : CString) : Prop :=
  QuietSearch sectionName idx (lines file) ∧
    ∀ line rest, behindHeading sectionName idx (lines file) = some (line, rest) →
      QuietPieces keyword line ∧ QuietSection keyword rest

/-- The value in a line has no zero byte, and behind the buffer only trailing characters. -/
def Whole (keyword : CString) (line : List UInt8) : Prop :=
  (0 : UInt8) ∉ line.drop (keyword.length + 1) ∧
    ∀ byte ∈ line.drop (lineSize - 1), byte ∈ trailingCharlist.bytes

/-! ## Pieces -/

/-- A string begins a text in the buffer when it begins the bytes that were read. -/
theorem prefix_bufferText {first line : List UInt8} (nonul : (0 : UInt8) ∉ first) :
    first <+: bufferText line ↔ first <+: line := by
  induction first generalizing line with
  | nil => exact iff_of_true (List.nil_prefix) (List.nil_prefix)
  | cons byte rest inductionHypothesis =>
    rw [List.mem_cons, not_or] at nonul
    cases line with
    | nil => rfl
    | cons other later =>
      by_cases zero : other = 0
      · subst zero
        apply iff_of_false
        · intro begins
          exact absurd (List.IsPrefix.length_le begins) (Nat.not_succ_le_zero _)
        · intro begins
          exact nonul.1 (List.cons_prefix_cons.mp begins).1.symm
      · have text : bufferText (other :: later) = other :: bufferText later := by
          rw [bufferText, List.takeWhile_cons, if_pos (decide_eq_true zero)]
          rfl
        rw [text, List.cons_prefix_cons, List.cons_prefix_cons, inductionHypothesis nonul.2]

/-- The comparison finds that a string begins a text. -/
theorem strncmp_prefix (name : CString) (text : List UInt8) :
    strncmp name.length text name.bytes = .eq ↔ name.bytes <+: text := by
  have length : name.length = name.bytes.length := rfl
  rw [strncmp_eq_take, strcmp_eq_iff, length, List.take_length, List.prefix_iff_eq_take]
  exact eq_comm

/-- A string with one byte more begins a text when the byte follows the string in it. -/
theorem append_prefix_iff {first line : List UInt8} {byte : UInt8} (proper : byte ≠ 0) :
    first ++ [byte] <+: line ↔ first <+: line ∧ line.getD first.length 0 = byte := by
  constructor
  · rintro ⟨rest, rfl⟩
    constructor
    · exact ⟨[byte] ++ rest, (List.append_assoc first [byte] rest).symm⟩
    · simp
  · rintro ⟨⟨rest, rfl⟩, here⟩
    cases rest with
    | nil =>
      have ends : (first ++ []).getD first.length 0 = 0 := by simp
      rw [ends] at here
      exact absurd here.symm proper
    | cons other rest =>
      have same : other = byte := by simpa using here
      subst same
      exact ⟨rest, List.append_assoc first [other] rest⟩

/-- The code recognises the heading. -/
theorem isSection_iff (sectionName : CString) (line : List UInt8) :
    isSection sectionName line = true ↔ heading sectionName <+: line := by
  rw [isSection, decide_eq_true_iff, strncmp_prefix, prefix_bufferText sectionName.nonul, heading,
    List.cons_append]
  cases line with
  | nil =>
    apply iff_of_false
    · rintro ⟨here, -⟩
      cases here
    · intro begins
      exact absurd begins.length_le (Nat.not_succ_le_zero _)
  | cons byte rest =>
    have length : sectionName.length = sectionName.bytes.length := rfl
    rw [List.headD_cons, List.drop_succ_cons, List.drop_zero, List.getD_cons_succ,
      List.cons_prefix_cons, append_prefix_iff (by decide), length, eq_comm]

/-- The code recognises the keyword. -/
theorem isEntry_iff (keyword : CString) (line : List UInt8) :
    isEntry keyword line = true ↔ entryStart keyword <+: line := by
  have length : keyword.length = keyword.bytes.length := rfl
  rw [isEntry, decide_eq_true_iff, strncmp_prefix, prefix_bufferText keyword.nonul, entryStart,
    append_prefix_iff (by decide), length]

/-- The code recognises any heading. -/
theorem headD_iff (line : List UInt8) : line.headD 0 = openBracket ↔ [openBracket] <+: line := by
  cases line with
  | nil =>
    apply iff_of_false
    · intro here
      cases here
    · intro begins
      exact absurd begins.length_le (Nat.not_succ_le_zero _)
  | cons byte rest =>
    rw [List.headD_cons, List.cons_prefix_cons, eq_comm]
    exact (and_iff_left List.nil_prefix).symm

/-- The trailing characters are removed. -/
theorem removeTrailingCharlist_eq (s : List UInt8) (l : CString) (nonul : (0 : UInt8) ∉ s) :
    removeTrailingCharlist s l = trimmed l s := by
  have loop (behind : List UInt8) :
      removeTrailing l (s ++ behind) s.length = (trimmed l s).length := by
    induction s using List.reverseRecOn generalizing behind with
    | nil => rfl
    | append_singleton rest last inductionHypothesis =>
      rw [List.mem_append, List.mem_singleton, not_or] at nonul
      have here : (rest ++ [last] ++ behind).getD rest.length 0 = last := by simp
      have found : strchrFinds l last = decide (last ∈ l.bytes) := by
        simp only [strchrFinds, Ne.symm nonul.2, false_or]
      rw [List.length_append, List.length_singleton, removeTrailing, here, found, trimmed,
        List.rdropWhile_concat]
      split
      · rw [List.append_assoc]
        exact inductionHypothesis nonul.1 ([last] ++ behind)
      · rw [List.length_append, List.length_singleton]
  have whole := loop []
  rw [List.append_nil] at whole
  rw [removeTrailingCharlist, whole]
  exact (List.prefix_iff_eq_take.mp (List.rdropWhile_prefix _ _)).symm

/-- The first piece of a line and the others. -/
theorem reads_line {line : List UInt8} (own : lines line = [line]) :
    reads (lineSize - 1) line = line.take (lineSize - 1) :: laterPieces line := by
  have present : line ≠ [] := by
    rintro rfl
    cases own
  rw [laterPieces, reads_cons (by decide) present, (readLine_cut own _).1]
  rfl

/-! ## The loops -/

section

variable {sectionName keyword : CString}

/-- The search for the keyword goes over later pieces that are nothing. -/
theorem findValue_quiet {pieces : List (List UInt8)} (others : List (List UInt8))
    (quiet : ∀ piece ∈ pieces, ¬ [openBracket] <+: piece ∧ ¬ entryStart keyword <+: piece) :
    findValue keyword (pieces ++ others) = findValue keyword others := by
  induction pieces with
  | nil => rfl
  | cons piece rest inductionHypothesis =>
    rw [List.forall_mem_cons] at quiet
    obtain ⟨⟨noHeading, noEntry⟩, later⟩ := quiet
    rw [List.cons_append, findValue, if_neg (mt (headD_iff piece).mp noHeading),
      if_neg (mt (isEntry_iff keyword piece).mp noEntry)]
    exact inductionHypothesis later

/-- The search for the section goes over pieces that are no heading. -/
theorem findSection_quiet {idx i : Int} (before : i ≠ idx) {pieces : List (List UInt8)}
    (others : List (List UInt8)) (quiet : ∀ piece ∈ pieces, ¬ heading sectionName <+: piece) :
    findSection sectionName idx i (pieces ++ others) = findSection sectionName idx i others := by
  induction pieces with
  | nil => rfl
  | cons piece rest inductionHypothesis =>
    rw [List.forall_mem_cons] at quiet
    rw [List.cons_append, findSection, if_neg (mt (isSection_iff sectionName piece).mp quiet.1),
      if_neg before]
    exact inductionHypothesis quiet.2

/-- In the first piece of a line is the value when the line is whole. -/
theorem value_iff (fits : keyword.length ≤ lineSize - 2) (line : List UInt8) :
    removeTrailingCharlist
        (bufferText ((line.take (lineSize - 1)).drop (keyword.length + 1))) trailingCharlist =
      valueIn keyword line ↔ Whole keyword line := by
  have parts : line.drop (keyword.length + 1) =
      (line.take (lineSize - 1)).drop (keyword.length + 1) ++ line.drop (lineSize - 1) := by
    have order : keyword.length + 1 ≤ lineSize - 1 := Nat.succ_le_succ fits
    have rejoined := List.take_append_drop (lineSize - 1 - (keyword.length + 1))
      (line.drop (keyword.length + 1))
    rw [List.drop_drop, Nat.add_sub_cancel' order] at rejoined
    rw [List.drop_take, rejoined]
  rw [Whole, valueIn]
  by_cases nonul : (0 : UInt8) ∈ line.drop (keyword.length + 1)
  · apply iff_of_false
    · intro same
      have zero := @zero_mem_trimmed trailingCharlist _ nonul
      rw [← same, removeTrailingCharlist] at zero
      have nonzero := List.mem_takeWhile_imp (List.mem_of_mem_take zero)
      rw [decide_eq_true_eq] at nonzero
      exact nonzero rfl
    · rintro ⟨without, -⟩
      exact without nonul
  · have front : (0 : UInt8) ∉ (line.take (lineSize - 1)).drop (keyword.length + 1) := by
      intro member
      rw [parts] at nonul
      exact nonul (List.mem_append_left _ member)
    have text : bufferText ((line.take (lineSize - 1)).drop (keyword.length + 1)) =
        (line.take (lineSize - 1)).drop (keyword.length + 1) := by
      rw [bufferText, List.takeWhile_eq_self_iff]
      intro byte member
      rw [decide_eq_true_eq]
      rintro rfl
      exact front member
    have split := rdropWhile_append_iff (fun byte => decide (byte ∈ trailingCharlist.bytes))
      ((line.take (lineSize - 1)).drop (keyword.length + 1)) (line.drop (lineSize - 1))
    simp only [decide_eq_true_eq] at split
    rw [and_iff_right nonul, ← split, text, removeTrailingCharlist_eq _ _ front, eq_comm, ← parts]
    rfl

/-- The value is found in the section when the line with it is whole. -/
theorem findValue_lines (fits : keyword.length ≤ lineSize - 2) (list : List (List UInt8))
    (own : ∀ line ∈ list, lines line = [line]) (quiet : QuietSection keyword list) :
    findValue keyword (list.flatMap (reads (lineSize - 1))) =
        (entryLine keyword list).map (valueIn keyword) ↔
      ∀ line, entryLine keyword list = some line → Whole keyword line := by
  induction list with
  | nil =>
    apply iff_of_true rfl
    intro line found
    cases found
  | cons line rest inductionHypothesis =>
    rw [List.forall_mem_cons] at own
    have room : (entryStart keyword).length ≤ lineSize - 1 := by
      rw [entryStart, List.length_append, List.length_singleton]
      exact Nat.succ_le_succ fits
    rw [QuietSection] at quiet
    have bracket : (line.take (lineSize - 1)).headD 0 = openBracket ↔ [openBracket] <+: line := by
      rw [headD_iff, List.prefix_take_iff]
      exact and_iff_left (by decide)
    have entered : isEntry keyword (line.take (lineSize - 1)) = true ↔
        entryStart keyword <+: line := by
      rw [isEntry_iff, List.prefix_take_iff]
      exact and_iff_left room
    rw [List.flatMap_cons, reads_line own.1, List.cons_append, findValue, entryLine]
    by_cases stops : [openBracket] <+: line
    · rw [if_pos (bracket.mpr stops), if_pos stops]
      apply iff_of_true rfl
      intro line found
      cases found
    rw [if_neg stops] at quiet
    rw [if_neg (mt bracket.mp stops), if_neg stops]
    by_cases entry : entryStart keyword <+: line
    · rw [if_pos (entered.mpr entry), if_pos entry, Option.map_some, Option.some_inj, value_iff fits]
      constructor
      · intro whole other same
        rwa [← Option.some.inj same]
      · intro every
        exact every line rfl
    · rw [if_neg entry] at quiet
      rw [if_neg (mt entered.mp entry), if_neg entry, findValue_quiet _ quiet.1]
      exact inductionHypothesis own.2 quiet.2

/-- The search for the section ends behind the first piece of the heading. -/
theorem findSection_lines (fits : sectionName.length ≤ lineSize - 3) (idx : Int)
    (list : List (List UInt8)) (own : ∀ line ∈ list, lines line = [line]) (skipped : Nat) (i : Int)
    (steps : i + 1 + skipped = idx) (quiet : QuietSearch sectionName skipped list) :
    (behindHeading sectionName skipped list = none →
      (findSection sectionName idx i (list.flatMap (reads (lineSize - 1)))).1 ≠ idx) ∧
    ∀ line rest, behindHeading sectionName skipped list = some (line, rest) →
      findSection sectionName idx i (list.flatMap (reads (lineSize - 1))) =
          (idx, laterPieces line ++ rest.flatMap (reads (lineSize - 1))) ∧
        ∀ other ∈ rest, other ∈ list := by
  induction list generalizing skipped i with
  | nil =>
    constructor
    · intro _
      rw [List.flatMap_nil, findSection]
      dsimp only
      omega
    · intro line rest found
      cases found
  | cons line rest inductionHypothesis =>
    rw [List.forall_mem_cons] at own
    have room : (heading sectionName).length ≤ lineSize - 1 := by
      rw [heading, List.length_append, List.length_cons, List.length_singleton]
      exact Nat.succ_le_succ (Nat.succ_le_succ fits)
    have recognised : isSection sectionName (line.take (lineSize - 1)) = true ↔
        heading sectionName <+: line := by
      rw [isSection_iff, List.prefix_take_iff]
      exact and_iff_left room
    rw [QuietSearch.eq_def] at quiet
    rw [List.flatMap_cons, reads_line own.1, List.cons_append, findSection, behindHeading.eq_def]
    dsimp only at quiet ⊢
    by_cases here : heading sectionName <+: line
    · rw [if_pos here] at quiet
      rw [if_pos (recognised.mpr here), if_pos here]
      cases skipped with
      | zero =>
        have reached : i + 1 = idx := by omega
        dsimp only
        rw [if_pos reached, reached]
        constructor
        · intro none
          cases none
        · intro other later same
          obtain ⟨rfl, rfl⟩ := Prod.mk.inj (Option.some.inj same)
          refine ⟨rfl, ?_⟩
          intro member inside
          exact List.mem_cons_of_mem _ inside
      | succ skipped =>
        have further : i + 1 ≠ idx := by omega
        dsimp only at quiet ⊢
        rw [if_neg further, findSection_quiet further _ quiet.1]
        obtain ⟨absent, present⟩ := inductionHypothesis own.2 skipped (i + 1) (by omega) quiet.2
        refine ⟨absent, ?_⟩
        intro other later found
        obtain ⟨ends, inside⟩ := present other later found
        refine ⟨ends, ?_⟩
        intro member kept
        exact List.mem_cons_of_mem _ (inside member kept)
    · rw [if_neg here] at quiet
      have further : i ≠ idx := by omega
      rw [if_neg (mt recognised.mp here), if_neg here, if_neg further,
        findSection_quiet further _ quiet.1]
      obtain ⟨absent, present⟩ := inductionHypothesis own.2 skipped i steps quiet.2
      refine ⟨absent, ?_⟩
      intro other later found
      obtain ⟨ends, inside⟩ := present other later found
      refine ⟨ends, ?_⟩
      intro member kept
      exact List.mem_cons_of_mem _ (inside member kept)

end

/-- Where no later piece of a line is taken for a heading or for an entry, the value is returned
just when its line is whole. -/
theorem readsValue_iff {sectionName keyword : CString} (sectionFits :
    1 ≤ sectionName.length ∧ sectionName.length ≤ lineSize - 3)
    (keywordFits : 1 ≤ keyword.length ∧ keyword.length ≤ lineSize - 2) {file : List UInt8}
    {idx : Nat} (quiet : Quiet file sectionName idx keyword) :
    ReadsValue file sectionName idx keyword ↔
      ∀ line, valueLine file sectionName idx keyword = some line → Whole keyword line := by
  have own := lines_line file
  obtain ⟨absent, present⟩ := findSection_lines sectionFits.2 (idx : Int) (lines file) own idx (-1)
    (by omega) quiet.1
  have checked : ¬ ((idx : Int) < 0 ∨ sectionName.length < 1 ∨ keyword.length < 1) := by omega
  have within : ¬ (sectionName.length > lineSize - 3 ∨ keyword.length > lineSize - 2) := by omega
  rw [ReadsValue, getConfString, if_neg checked, if_neg within, reads_lines (by decide), valueLine]
  dsimp only
  cases found : behindHeading sectionName idx (lines file) with
  | none =>
    rw [if_neg (absent found)]
    apply iff_of_true rfl
    intro line same
    cases same
  | some parts =>
    obtain ⟨line, rest⟩ := parts
    obtain ⟨ends, inside⟩ := present line rest found
    obtain ⟨pieces, later⟩ := quiet.2 line rest found
    rw [ends]
    dsimp only
    rw [if_pos rfl, findValue_quiet _ pieces, Option.bind_some]
    apply findValue_lines keywordFits.2 rest _ later
    intro other member
    exact own other (inside other member)

/-- The letter is no terminator. -/
theorem letterS_ne : (0x73 : UInt8) ≠ 0 := by decide

/-- The name of the section. -/
def sectionS : CString := CString.single 0x73 letterS_ne

/-- The keyword. -/
def keywordK : CString := CString.single 0x6b (by decide)

/-- A file with a short line. -/
def shortFile : List UInt8 := [0x5b, 0x73, 0x5d, 0x0a, 0x6b, 0x3d, 0x76, 0x0a]

/-- A file with a line that the buffer has no room for. -/
def longFile : List UInt8 :=
  [0x5b, 0x73, 0x5d, 0x0a, 0x6b, 0x3d] ++ List.replicate 130 0x76 ++ [0x0a]

/-- The value of a short line is returned. -/
theorem readsValue_short : ReadsValue shortFile sectionS 0 keywordK := by
  have cut : lines shortFile = [[0x5b, 0x73, 0x5d, 0x0a], [0x6b, 0x3d, 0x76, 0x0a]] := rfl
  have found : behindHeading sectionS 0 (lines shortFile) =
      some ([0x5b, 0x73, 0x5d, 0x0a], [[0x6b, 0x3d, 0x76, 0x0a]]) := by decide
  have quiet : Quiet shortFile sectionS 0 keywordK := by
    constructor
    · rw [cut, QuietSearch, if_pos (by decide)]
      trivial
    · intro line rest same
      rw [found] at same
      obtain ⟨rfl, rfl⟩ := Prod.mk.inj (Option.some.inj same)
      constructor
      · intro piece member
        cases member
      · rw [QuietSection, if_neg (by decide), if_pos (by decide)]
        trivial
  apply (readsValue_iff (by decide) (by decide) quiet).mpr
  intro line same
  have here : valueLine shortFile sectionS 0 keywordK = some [0x6b, 0x3d, 0x76, 0x0a] := by decide
  rw [here] at same
  rw [← Option.some.inj same]
  constructor
  · decide
  · intro byte member
    cases member

/-- The value of a long line is cut. -/
theorem not_readsValue : ¬ ReadsValue longFile sectionS 0 keywordK := by
  rw [ReadsValue]
  decide +kernel

end Ezcfg.Util

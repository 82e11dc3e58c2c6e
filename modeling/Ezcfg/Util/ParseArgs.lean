import Ezcfg.Foundation.ByteArea
import Ezcfg.Foundation.Terminated
import Ezcfg.Foundation.Words

/-!
# Splitting a command line

The line is cut in place: blanks become terminators when they are skipped. They are skipped
in front of an argument, so blanks behind the last argument that fits stay, and the line
counts as not parsed. Storing outside `argv` has no result.
-/

namespace Ezcfg.Util

open Foundation

/-- `EZCFG_CTRL_MAX_ARGS` -/
def ctrlMaxArgs : Nat := 8

/-- `IS_BLANK` -/
def isBlank (c : UInt8) : Bool := c = 0x20

/-- `argv[i] = p`; a pointer is a place in the line, and `NULL` is none. -/
def storeArg (argv : List (Option Nat)) (i : Nat) (p : Option Nat) : Option (List (Option Nat)) :=
  if i < argv.length then some (argv.set i p) else none

/-- Where the parser stands: the line up to `p` and from `p` on. -/
structure Parsing where
  front : List UInt8
  p : List UInt8
  argc : Nat
  argv : List (Option Nat)

/-- The loop that skips blanks. -/
def Parsing.skipBlanks (parsing : Parsing) : Option Parsing := do
  let p ← scan isBlank parsing.p
  let blanks := parsing.p.length - p.length
  return { parsing with front := parsing.front ++ List.replicate blanks 0, p := p }

/-- The step behind the first byte of an argument, and the loop to its end. -/
def Parsing.skipArgument (parsing : Parsing) : Option Parsing := do
  let p ← advance 1 parsing.p
  let p ← scan (fun c => !isBlank c && c ≠ 0) p
  let passed := parsing.p.length - p.length
  return { parsing with front := parsing.front ++ parsing.p.take passed, p := p }

/-- The outer loop of `ezcfg_util_parse_args`, while `argc` is so far from its limit. -/
def parseLoop : Nat → Parsing → Option Parsing
  | 0, parsing => some parsing
  | turns + 1, parsing => do
    if (← readByte parsing.p) ≠ 0 then
      let parsing ← parsing.skipBlanks
      if (← readByte parsing.p) = 0 then return parsing
      else
        let argv ← storeArg parsing.argv parsing.argc (some parsing.front.length)
        let parsing ← { parsing with argc := parsing.argc + 1, argv := argv }.skipArgument
        parseLoop turns parsing
    else return parsing

/-- `ezcfg_util_parse_args`: the result, the line and the arguments. -/
def parseArgs (buf : List UInt8) (argv : List (Option Nat)) :
    Option (Int × List UInt8 × List (Option Nat)) := do
  let parsing ← parseLoop (ctrlMaxArgs - 1) ⟨[], buf, 0, argv⟩
  if (← readByte parsing.p) ≠ 0 then return (-1, parsing.front ++ parsing.p, parsing.argv)
  else
    let argv ← storeArg parsing.argv parsing.argc none
    return (parsing.argc, parsing.front ++ parsing.p, argv)

/-- What the parser is to do: when the words of the line fit, it gives their number, and the
arguments are the words with `NULL` behind them; otherwise it fails. -/
def ParsesLine (line : CString) : Prop :=
  ∀ argv : List (Option Nat), argv.length = ctrlMaxArgs →
    ∃ code buf after, parseArgs (terminated line.bytes) argv = some (code, buf, after) ∧
      if (words isBlank line.bytes).length < ctrlMaxArgs then
        code = (words isBlank line.bytes).length ∧
          (after.take (words isBlank line.bytes).length).map (·.bind (ByteArea.stringAt buf)) =
            (words isBlank line.bytes).map some ∧
          after[(words isBlank line.bytes).length]? = some none
      else code = -1

/-! ## One turn -/

/-- The line with its blanks cut. -/
def cutBlanks (text : List UInt8) : List UInt8 := text.map fun c => if isBlank c then 0 else c

/-- Blanks are cut. -/
theorem cutBlanks_blanks {text : List UInt8} (blanks : ∀ c ∈ text, isBlank c) :
    cutBlanks text = List.replicate text.length 0 := by
  apply List.eq_replicate_iff.mpr
  constructor
  · exact List.length_map _
  · intro byte member
    obtain ⟨c, inside, rfl⟩ := List.mem_map.mp member
    exact if_pos (blanks c inside)

/-- A word is kept. -/
theorem cutBlanks_plain {text : List UInt8} (plain : ∀ c ∈ text, isBlank c = false) :
    cutBlanks text = text := by
  have same : ∀ c ∈ text, (if isBlank c then 0 else c) = c := by
    intro c member
    rw [plain c member]
    rfl
  exact (List.map_congr_left same).trans (List.map_id text)

/-- The blanks and the first word of a text, and what is behind them. -/
structure Parts (text blanks word rest : List UInt8) : Prop where
  parts : text = blanks ++ (word ++ rest)
  blank : ∀ c ∈ blanks, isBlank c
  present : word ≠ []
  plain : ∀ c ∈ word, isBlank c = false
  ends : ∀ c ∈ rest.head?, isBlank c

/-- A text is made of blanks or has a first word. -/
theorem blanks_or_parts (text : List UInt8) :
    (∀ c ∈ text, isBlank c) ∨ ∃ blanks word rest, Parts text blanks word rest := by
  by_cases blank : ∀ c ∈ text, isBlank c
  · exact .inl blank
  · right
    refine ⟨text.takeWhile isBlank, (text.dropWhile isBlank).takeWhile fun c => !isBlank c,
      (text.dropWhile isBlank).dropWhile fun c => !isBlank c, ?_, ?_, ?_, ?_, ?_⟩
    · rw [List.takeWhile_append_dropWhile, List.takeWhile_append_dropWhile]
    · intro c member
      exact List.mem_takeWhile_imp member
    · intro none
      have stopped := List.head?_dropWhile_not isBlank text
      obtain ⟨c, others, left⟩ := List.exists_cons_of_ne_nil
        (fun empty => blank (List.dropWhile_eq_nil_iff.mp empty))
      rw [left] at none stopped
      have other : isBlank c = false := stopped
      rw [List.takeWhile_cons_of_pos (by rw [other]; rfl)] at none
      exact List.cons_ne_nil _ _ none
    · intro c member
      have kept := List.mem_takeWhile_imp member
      rwa [Bool.not_eq_true'] at kept
    · intro c first
      have stopped := List.head?_dropWhile_not (fun c => !isBlank c) (text.dropWhile isBlank)
      rw [Option.mem_def.mp first] at stopped
      have other : (!isBlank c) = false := stopped
      rwa [Bool.not_eq_false'] at other

/-- The words of a text. -/
theorem Parts.words_eq {text blanks word rest : List UInt8} (parts : Parts text blanks word rest) :
    words isBlank text = word :: words isBlank rest := by
  rw [parts.parts, words_separators parts.blank, words_cons parts.present parts.plain parts.ends]

/-- Blanks are skipped in front of anything else. -/
theorem skipBlanks_eq {blanks rest : List UInt8} (blank : ∀ c ∈ blanks, isBlank c)
    (ends : rest.dropWhile isBlank = rest) (front : List UInt8) (argc : Nat)
    (argv : List (Option Nat)) :
    Parsing.skipBlanks ⟨front, terminated (blanks ++ rest), argc, argv⟩ =
      some ⟨front ++ List.replicate blanks.length 0, terminated rest, argc, argv⟩ := by
  have gone : (terminated (blanks ++ rest)).length - (terminated rest).length = blanks.length := by
    rw [length_terminated, length_terminated, List.length_append]
    omega
  rw [Parsing.skipBlanks, scan_terminated _ (by decide), List.dropWhile_append_of_pos blank, ends]
  show some (Parsing.mk (front ++ List.replicate (_ - _) 0) _ _ _) = _
  rw [gone]

/-- A word is skipped up to its end. -/
theorem skipArgument_eq {word rest : List UInt8} (present : word ≠ [])
    (plain : ∀ c ∈ word, isBlank c = false) (nonul : (0 : UInt8) ∉ word)
    (ends : ∀ c ∈ rest.head?, isBlank c) (front : List UInt8) (argc : Nat)
    (argv : List (Option Nat)) :
    Parsing.skipArgument ⟨front, terminated (word ++ rest), argc, argv⟩ =
      some ⟨front ++ word, terminated rest, argc, argv⟩ := by
  obtain ⟨first, others, rfl⟩ := List.exists_cons_of_ne_nil present
  have inside : ∀ c ∈ others, (!isBlank c && decide (c ≠ 0)) = true := by
    intro c member
    have nonzero : c ≠ 0 := by
      rintro rfl
      exact nonul (List.mem_cons_of_mem _ member)
    rw [plain c (List.mem_cons_of_mem _ member), decide_eq_true nonzero]
    rfl
  have stops : rest.dropWhile (fun c => !isBlank c && decide (c ≠ 0)) = rest := by
    cases rest with
    | nil => rfl
    | cons c rest =>
      apply List.dropWhile_cons_of_neg
      rw [ends c rfl]
      exact Bool.false_ne_true
  have passed : (terminated (first :: others ++ rest)).length - (terminated rest).length =
      (first :: others).length := by
    rw [length_terminated, length_terminated, List.length_append]
    omega
  have word : (terminated (first :: others ++ rest)).take (first :: others).length =
      first :: others := by
    rw [terminated, List.append_assoc, List.take_left]
  have moved : advance 1 (terminated (first :: others ++ rest)) =
      some (terminated (others ++ rest)) := advance_terminated (Nat.succ_le_succ (Nat.zero_le _))
  have scanned : scan (fun c => !isBlank c && decide (c ≠ 0)) (terminated (others ++ rest)) =
      some (terminated rest) := by
    rw [scan_terminated _ (by decide), List.dropWhile_append_of_pos inside, stops]
  rw [Parsing.skipArgument, moved]
  show (scan _ (terminated (others ++ rest))).bind _ = _
  rw [scanned]
  show some (Parsing.mk (front ++ (terminated (first :: others ++ rest)).take (_ - _)) _ _ _) = _
  rw [passed, word]

/-- A text of blanks ends the loop. -/
theorem parseLoop_blanks (turns : Nat) {text : List UInt8} (blank : ∀ c ∈ text, isBlank c)
    (front : List UInt8) (argc : Nat) (argv : List (Option Nat)) :
    parseLoop (turns + 1) ⟨front, terminated text, argc, argv⟩ =
      some ⟨front ++ cutBlanks text, terminated [], argc, argv⟩ := by
  cases text with
  | nil =>
    rw [cutBlanks, List.map_nil, List.append_nil]
    rfl
  | cons c rest =>
    have nonzero : c ≠ 0 := by
      rintro rfl
      exact absurd (blank 0 List.mem_cons_self) (by decide)
    have skipped := @skipBlanks_eq (c :: rest) [] blank rfl front argc argv
    rw [List.append_nil] at skipped
    rw [parseLoop]
    show (if c ≠ 0 then _ else _) = _
    rw [if_pos nonzero, skipped, cutBlanks_blanks blank]
    rfl

/-- A word is stored as the next argument. -/
theorem parseLoop_word (turns : Nat) {text blanks word rest : List UInt8}
    (parts : Parts text blanks word rest) (nonul : (0 : UInt8) ∉ text) (front : List UInt8)
    {argc : Nat} {argv : List (Option Nat)} (inside : argc < argv.length) :
    parseLoop (turns + 1) ⟨front, terminated text, argc, argv⟩ =
      parseLoop turns ⟨front ++ cutBlanks blanks ++ word, terminated rest, argc + 1,
        argv.set argc (some (front ++ cutBlanks blanks).length)⟩ := by
  obtain ⟨first, others, same⟩ := List.exists_cons_of_ne_nil parts.present
  have firstPlain : isBlank first = false := by
    apply parts.plain
    rw [same]
    exact List.mem_cons_self
  have wordNonul : (0 : UInt8) ∉ word := by
    intro member
    apply nonul
    rw [parts.parts]
    exact List.mem_append_right _ (List.mem_append_left _ member)
  have firstNonul : first ≠ 0 := by
    rintro rfl
    apply wordNonul
    rw [same]
    exact List.mem_cons_self
  have stops : (word ++ rest).dropWhile isBlank = word ++ rest := by
    rw [same]
    apply List.dropWhile_cons_of_neg
    rw [firstPlain]
    decide
  have begins : readByte (terminated (word ++ rest)) = some first := by
    rw [same]
    rfl
  have nonempty : ∃ byte, readByte (terminated text) = some byte ∧ byte ≠ 0 := by
    rw [parts.parts]
    cases blanks with
    | nil => exact ⟨first, begins, firstNonul⟩
    | cons c blanks =>
      refine ⟨c, rfl, ?_⟩
      rintro rfl
      exact absurd (parts.blank 0 List.mem_cons_self) (by decide)
  obtain ⟨byte, read, byteNonul⟩ := nonempty
  have skipped := @skipBlanks_eq blanks (word ++ rest) parts.blank stops front argc argv
  rw [← cutBlanks_blanks parts.blank, ← parts.parts] at skipped
  rw [parseLoop]
  show (readByte (terminated text)).bind _ = _
  rw [read]
  show (if byte ≠ 0 then _ else _) = _
  rw [if_pos byteNonul, skipped]
  show (readByte (terminated (word ++ rest))).bind _ = _
  rw [begins]
  show (if first = 0 then _ else _) = _
  rw [if_neg firstNonul, storeArg, if_pos inside]
  show (Parsing.skipArgument ⟨_, _, _, _⟩).bind _ = _
  rw [skipArgument_eq parts.present parts.plain wordNonul parts.ends]
  rfl

/-! ## The whole line -/

/-- The words fit into so many turns, and the last turn leaves no blank behind. -/
def FitsIn (turns : Nat) (text : List UInt8) : Prop :=
  (words isBlank text).length ≤ turns ∧
    ((words isBlank text).length = turns → text.getLast? ≠ some 0x20)

/-- A text of blanks has no words. -/
theorem words_blanks {text : List UInt8} (blank : ∀ c ∈ text, isBlank c) :
    words isBlank text = [] := by
  have front := words_separators blank []
  rwa [List.append_nil, words_nil] at front

/-- A text fits when what is behind its first word fits into the turns that are left. -/
theorem fitsIn_rest {turns : Nat} {text blanks word rest : List UInt8}
    (parts : Parts text blanks word rest) : FitsIn (turns + 1) text ↔ FitsIn turns rest := by
  have last : text.getLast? = some 0x20 ↔ rest.getLast? = some 0x20 := by
    rw [parts.parts, ← List.append_assoc, List.getLast?_append]
    cases ends : rest.getLast? with
    | none =>
      constructor
      · intro isLast
        rw [Option.none_or] at isLast
        have inWord : (0x20 : UInt8) ∈ word := by
          rw [List.getLast?_append_of_ne_nil _ parts.present] at isLast
          exact List.mem_of_getLast? isLast
        exact absurd (parts.plain 0x20 inWord) (by decide)
      · intro none
        cases none
    | some c => exact Iff.rfl
  rw [FitsIn, FitsIn, parts.words_eq, List.length_cons, Nat.add_le_add_iff_right,
    Nat.add_right_cancel_iff, Ne, Ne, last]

/-- What fits is parsed to its end, with a pointer to each word. The induction is on the
turns; each of them but the last finds a word. -/
theorem parseLoop_fits (turns : Nat) {text : List UInt8} (nonul : (0 : UInt8) ∉ text)
    (fits : FitsIn turns text) (front : List UInt8) {argc : Nat} {argv : List (Option Nat)}
    (inside : argc + turns < argv.length) :
    ∃ pointers : List (Option Nat),
      parseLoop turns ⟨front, terminated text, argc, argv⟩ =
        some ⟨front ++ cutBlanks text, terminated [], argc + (words isBlank text).length,
          argv.take argc ++ pointers ++ argv.drop (argc + (words isBlank text).length)⟩ ∧
      pointers.map (·.bind (ByteArea.stringAt (terminated (front ++ cutBlanks text)))) =
        (words isBlank text).map some := by
  induction turns generalizing text front argc argv with
  | zero =>
    rcases blanks_or_parts text with blank | ⟨blanks, word, rest, parts⟩
    · have empty : text = [] := by
        by_contra present
        have last := List.getLast?_eq_some_getLast present
        have isBlankLast := blank _ (List.getLast_mem present)
        rw [of_decide_eq_true isBlankLast] at last
        exact fits.2 (congrArg List.length (words_blanks blank)) last
      subst empty
      refine ⟨[], ?_, ?_⟩
      · rw [words_nil, List.append_nil, List.length_nil, Nat.add_zero, List.take_append_drop,
          cutBlanks, List.map_nil, List.append_nil]
        rfl
      · rw [words_nil]
        rfl
    · have oneMore := fits.1
      rw [parts.words_eq] at oneMore
      cases oneMore
  | succ turns inductionHypothesis =>
    rcases blanks_or_parts text with blank | ⟨blanks, word, rest, parts⟩
    · refine ⟨[], ?_, ?_⟩
      · rw [parseLoop_blanks turns blank, words_blanks blank, List.length_nil, Nat.add_zero,
          List.append_nil, List.take_append_drop]
      · rw [words_blanks blank]
        rfl
    · have restNonul : (0 : UInt8) ∉ rest := by
        intro member
        apply nonul
        rw [parts.parts]
        exact List.mem_append_right _ (List.mem_append_right _ member)
      have place : argc < argv.length := Nat.lt_of_le_of_lt (Nat.le_add_right _ _) inside
      obtain ⟨pointers, run, strings⟩ := @inductionHypothesis rest restNonul
        ((fitsIn_rest parts).mp fits) (front ++ cutBlanks blanks ++ word) (argc + 1)
        (argv.set argc (some (front ++ cutBlanks blanks).length))
        (by rw [List.length_set]; omega)
      have buffer : front ++ cutBlanks blanks ++ word ++ cutBlanks rest =
          front ++ cutBlanks text := by
        have kept := cutBlanks_plain parts.plain
        rw [cutBlanks] at kept
        rw [parts.parts, cutBlanks, cutBlanks, cutBlanks, List.map_append, List.map_append, kept,
          List.append_assoc, List.append_assoc]
      refine ⟨some (front ++ cutBlanks blanks).length :: pointers, ?_, ?_⟩
      · have earlier : (argv.set argc (some (front ++ cutBlanks blanks).length)).take (argc + 1) =
            argv.take argc ++ [some (front ++ cutBlanks blanks).length] := by
          rw [List.take_add_one, List.take_set_of_le (Nat.le_refl argc),
            List.getElem?_set_self place]
          rfl
        have count : argc + 1 + (words isBlank rest).length =
            argc + (words isBlank text).length := by
          rw [parts.words_eq, List.length_cons]
          omega
        have further : argc < argc + 1 + (words isBlank rest).length := by omega
        rw [parseLoop_word turns parts nonul front place, run, buffer, earlier,
          List.drop_set_of_lt further, count, List.append_assoc (argv.take argc)]
        rfl
      · have behind : ∃ after, terminated (front ++ cutBlanks text) =
            (front ++ cutBlanks blanks) ++ word ++ 0 :: after := by
          rw [← buffer, terminated, List.append_assoc]
          cases ends : rest with
          | nil => exact ⟨[], rfl⟩
          | cons c others =>
            have isBlankFirst : isBlank c := parts.ends c (by rw [ends]; rfl)
            have first : cutBlanks (c :: others) = 0 :: cutBlanks others :=
              congrArg (· :: cutBlanks others) (if_pos isBlankFirst)
            exact ⟨cutBlanks others ++ [0], by rw [first]; rfl⟩
        obtain ⟨after, area⟩ := behind
        have wordNonul : (0 : UInt8) ∉ word := by
          intro member
          apply nonul
          rw [parts.parts]
          exact List.mem_append_right _ (List.mem_append_left _ member)
        have first : ByteArea.stringAt (terminated (front ++ cutBlanks text))
            (front ++ cutBlanks blanks).length = some word := by
          rw [area]
          exact ByteArea.stringAt_between _ word after wordNonul
        rw [buffer] at strings
        rw [List.map_cons, strings, parts.words_eq, List.map_cons]
        exact congrArg (· :: _) first

/-- What does not fit leaves something behind. -/
theorem parseLoop_left (turns : Nat) {text : List UInt8} (nonul : (0 : UInt8) ∉ text)
    (unfit : ¬ FitsIn turns text) (front : List UInt8) {argc : Nat} {argv : List (Option Nat)}
    (inside : argc + turns < argv.length) :
    ∃ parsing byte, parseLoop turns ⟨front, terminated text, argc, argv⟩ = some parsing ∧
      readByte parsing.p = some byte ∧ byte ≠ 0 := by
  induction turns generalizing text front argc argv with
  | zero =>
    cases text with
    | nil => exact absurd ⟨Nat.le_of_eq (congrArg List.length words_nil), fun _ => by decide⟩ unfit
    | cons c rest =>
      refine ⟨_, c, rfl, rfl, ?_⟩
      rintro rfl
      exact nonul List.mem_cons_self
  | succ turns inductionHypothesis =>
    rcases blanks_or_parts text with blank | ⟨blanks, word, rest, parts⟩
    · rw [FitsIn, words_blanks blank] at unfit
      exact absurd ⟨Nat.zero_le _, fun none => absurd none (Nat.succ_ne_zero turns).symm⟩ unfit
    · have restNonul : (0 : UInt8) ∉ rest := by
        intro member
        apply nonul
        rw [parts.parts]
        exact List.mem_append_right _ (List.mem_append_right _ member)
      have place : argc < argv.length := Nat.lt_of_le_of_lt (Nat.le_add_right _ _) inside
      rw [parseLoop_word turns parts nonul front place]
      apply inductionHypothesis restNonul
      · intro fits
        exact unfit ((fitsIn_rest parts).mpr fits)
      · rw [List.length_set]
        omega

/-- A line whose words fit is parsed. -/
theorem parseArgs_fits {line : CString} (fits : FitsIn (ctrlMaxArgs - 1) line.bytes)
    {argv : List (Option Nat)} (size : argv.length = ctrlMaxArgs) :
    ∃ (buf : List UInt8) (after : List (Option Nat)), parseArgs (terminated line.bytes) argv =
        some (((words isBlank line.bytes).length : Int), buf, after) ∧
      (after.take (words isBlank line.bytes).length).map (·.bind (ByteArea.stringAt buf)) =
        (words isBlank line.bytes).map some ∧
      after[(words isBlank line.bytes).length]? = some none := by
  obtain ⟨pointers, run, strings⟩ := @parseLoop_fits (ctrlMaxArgs - 1) line.bytes line.nonul fits
    [] 0 argv (by rw [size]; decide)
  have count : pointers.length = (words isBlank line.bytes).length := by
    have lengths := congrArg List.length strings
    rwa [List.length_map, List.length_map] at lengths
  rw [List.take_zero, List.nil_append, List.nil_append, Nat.zero_add] at run
  rw [List.nil_append] at strings
  generalize number : (words isBlank line.bytes).length = k at *
  have room : k < argv.length := by
    have few := fits.1
    rw [size, ctrlMaxArgs]
    rw [number, ctrlMaxArgs] at few
    omega
  have place : k < (pointers ++ argv.drop k).length := by
    rw [List.length_append, List.length_drop]
    omega
  refine ⟨terminated (cutBlanks line.bytes), (pointers ++ argv.drop k).set k none, ?_, ?_, ?_⟩
  · rw [parseArgs, run]
    show (storeArg (pointers ++ argv.drop k) k none).bind _ = _
    rw [storeArg, if_pos place]
    rfl
  · rw [List.take_set_of_le (Nat.le_refl k), ← count, List.take_left, strings]
  · rw [List.getElem?_set_self place]

/-- A line whose words do not fit fails. -/
theorem parseArgs_unfit {line : CString} (unfit : ¬ FitsIn (ctrlMaxArgs - 1) line.bytes)
    {argv : List (Option Nat)} (size : argv.length = ctrlMaxArgs) :
    ∃ buf after, parseArgs (terminated line.bytes) argv = some (-1, buf, after) := by
  obtain ⟨parsing, byte, run, read, nonzero⟩ := @parseLoop_left (ctrlMaxArgs - 1) line.bytes
    line.nonul unfit [] 0 argv (by rw [size]; decide)
  refine ⟨parsing.front ++ parsing.p, parsing.argv, ?_⟩
  rw [parseArgs, run]
  show (readByte parsing.p).bind _ = _
  rw [read]
  exact if_pos nonzero

/-- A line is parsed as it is to be, unless its words just fit and a blank ends it. -/
theorem parsesLine_iff (line : CString) :
    ParsesLine line ↔ ¬ ((words isBlank line.bytes).length + 1 = ctrlMaxArgs ∧
      line.bytes.getLast? = some 0x20) := by
  constructor
  · rintro parses ⟨just, ends⟩
    have size : (List.replicate ctrlMaxArgs (none : Option Nat)).length = ctrlMaxArgs :=
      List.length_replicate
    have unfit : ¬ FitsIn (ctrlMaxArgs - 1) line.bytes := by
      intro fits
      exact fits.2 (Nat.eq_sub_of_add_eq just) ends
    obtain ⟨code, buf, after, run, result⟩ := parses _ size
    obtain ⟨buf', after', failed⟩ := parseArgs_unfit unfit size
    rw [if_pos (by omega)] at result
    rw [failed] at run
    injection run with run
    injection run with code' _
    rw [← code'] at result
    have negative := result.1
    omega
  · intro room argv size
    by_cases few : (words isBlank line.bytes).length < ctrlMaxArgs
    · have fits : FitsIn (ctrlMaxArgs - 1) line.bytes := by
        constructor
        · exact Nat.le_sub_one_of_lt few
        · intro just ends
          apply room
          exact ⟨by rw [just]; rfl, ends⟩
      obtain ⟨buf, after, run, strings, last⟩ := parseArgs_fits fits size
      refine ⟨_, buf, after, run, ?_⟩
      rw [if_pos few]
      exact ⟨rfl, strings, last⟩
    · have unfit : ¬ FitsIn (ctrlMaxArgs - 1) line.bytes := by
        intro fits
        apply few
        exact Nat.lt_of_le_of_lt fits.1 (by decide)
      obtain ⟨buf, after, run⟩ := parseArgs_unfit unfit size
      refine ⟨-1, buf, after, run, ?_⟩
      rw [if_neg few]

/-- Seven letters with a blank behind each of them are seven words, and the line fails. -/
theorem not_parsesLine : ¬ ∀ line, ParsesLine line := by
  intro parses
  have nonul : (0 : UInt8) ∉ (List.replicate 7 [(0x6b : UInt8), 0x20]).flatten := by decide
  obtain ⟨code, buf, after, run, result⟩ := parses
    ⟨(List.replicate 7 [0x6b, 0x20]).flatten, nonul, by decide⟩ (List.replicate 8 none) rfl
  have failed : (parseArgs (terminated (List.replicate 7 [0x6b, 0x20]).flatten)
      (List.replicate 8 none)).map (·.1) = some (-1) := by
    decide
  have seven : (words isBlank (List.replicate 7 [(0x6b : UInt8), 0x20]).flatten).length = 7 := by
    decide
  rw [run, Option.map_some] at failed
  injection failed with failed
  rw [if_pos (by rw [seven]; decide), seven] at result
  have code' : code = 7 := result.1
  have negative : code = -1 := failed
  rw [code'] at negative
  exact absurd negative (by decide)

end Ezcfg.Util

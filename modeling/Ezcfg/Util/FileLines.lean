import Ezcfg.Foundation.CString
import Ezcfg.Foundation.Lines

/-!
# Reading the lines of a file

`ezcfg_util_file_get_line` reads lines until there is one that starts with no comment character
and has a byte left when the unwanted ones are removed from its end. The loop that removes them
stops in front of the first byte, so it leaves a line of one byte no byte, whatever that is.

A line is read into the buffer with a terminator behind it, and taken up to its first zero byte.
-/

namespace Ezcfg.Util

open Foundation

/-- Whether `strchr` finds the byte; the terminator is found as well. -/
def strchrFinds (chars : CString) (byte : UInt8) : Bool := byte = 0 ∨ byte ∈ chars.bytes

/-- The text in the buffer behind a read. -/
def bufferText (line : List UInt8) : List UInt8 := line.takeWhile (· ≠ 0)

/-- The loop that removes bytes: the value of `len` behind it. -/
def removeTail (rm : CString) (text : List UInt8) : Nat → Nat
  | 0 => 0
  | len + 1 =>
    if strchrFinds rm (text.getD (len + 1) 0) then removeTail rm text len else len + 1

/-- The loop over the file, with a bound on its turns: the text that is handed out and what is
left of the file, or nothing. -/
def getLineLoop (size : Nat) (comment rm : CString) :
    Nat → List UInt8 → Option (Option (List UInt8 × List UInt8))
  | 0, _ => none
  | turns + 1, file =>
    if file = [] then some none
    else
      let (line, rest) := readLine (size - 1) file
      let text := bufferText line
      if strchrFinds comment (text.headD 0) then getLineLoop size comment rm turns rest
      else
        let len := removeTail rm text text.length
        if len > 0 then some (some (text.take (len + 1), rest))
        else getLineLoop size comment rm turns rest

/-- `ezcfg_util_file_get_line` on a file and a buffer; each turn reads a byte where there is room
for one. -/
def fileGetLine (size : Nat) (comment rm : CString) (file : List UInt8) :
    Option (Option (List UInt8 × List UInt8)) :=
  if size < 1 then some none else getLineLoop size comment rm (file.length + 1) file

/-- Calls until one fails, and the texts that they return. -/
inductive Returns (size : Nat) (comment rm : CString) : List UInt8 → List (List UInt8) → Prop
  | stop {file : List UInt8} (failed : fileGetLine size comment rm file = some none) :
    Returns size comment rm file []
  | next {file rest text : List UInt8} {texts : List (List UInt8)}
    (got : fileGetLine size comment rm file = some (some (text, rest)))
    (later : Returns size comment rm rest texts) : Returns size comment rm file (text :: texts)

/-! ## What is to be returned -/

/-- The unwanted bytes are removed from the end. -/
def trimmed (rm : CString) (line : List UInt8) : List UInt8 := line.rdropWhile (· ∈ rm.bytes)

/-- Whether a line starts with a comment character. -/
def isComment (comment : CString) (line : List UInt8) : Bool := line.headD 0 ∈ comment.bytes

/-- What is to be returned of a line. -/
def wanted (comment rm : CString) (line : List UInt8) : Option (List UInt8) :=
  if isComment comment line ∨ trimmed rm line = [] then none else some (trimmed rm line)

/-- The calls return the lines that are no comments and not empty. -/
def ReadsLines (size : Nat) (comment rm : CString) (file : List UInt8) : Prop :=
  Returns size comment rm file ((lines file).filterMap (wanted comment rm))

/-- A line that is no comment has no zero byte, and not one byte when it is trimmed. -/
def Readable (comment rm : CString) (line : List UInt8) : Prop :=
  isComment comment line ∨ (0 : UInt8) ∉ line ∧ (trimmed rm line).length ≠ 1

instance (comment rm : CString) (line : List UInt8) : Decidable (Readable comment rm line) :=
  inferInstanceAs (Decidable (_ ∨ _))

/-! ## What is returned of a line -/

/-- What is returned of a line. -/
def returned (comment rm : CString) (line : List UInt8) : Option (List UInt8) :=
  let text := bufferText line
  if strchrFinds comment (text.headD 0) then none
  else
    let len := removeTail rm text text.length
    if len > 0 then some (text.take (len + 1)) else none

/-- The loop goes back over the bytes behind the first one. -/
theorem removeTail_eq (rm : CString) (first : UInt8) (rest behind : List UInt8)
    (nonul : (0 : UInt8) ∉ rest) :
    removeTail rm (first :: (rest ++ behind)) rest.length = (trimmed rm rest).length := by
  induction rest using List.reverseRecOn generalizing behind with
  | nil => rfl
  | append_singleton rest last inductionHypothesis =>
    rw [List.mem_append, List.mem_singleton, not_or] at nonul
    have here : (first :: (rest ++ [last] ++ behind)).getD (rest.length + 1) 0 = last := by
      simp
    have found : strchrFinds rm last = decide (last ∈ rm.bytes) := by
      simp only [strchrFinds, Ne.symm nonul.2, false_or]
    rw [List.length_append, List.length_singleton, removeTail, here, found, trimmed,
      List.rdropWhile_concat]
    split
    · rw [List.append_assoc]
      exact inductionHypothesis ([last] ++ behind) nonul.1
    · rw [List.length_append, List.length_singleton]

/-- The text in the buffer is returned when a byte behind the first one is left. -/
theorem returned_eq (comment rm : CString) {first : UInt8} {rest : List UInt8}
    (proper : first ≠ 0) :
    returned comment rm (first :: rest) =
      if isComment comment (first :: rest) then none
      else if trimmed rm (bufferText rest) = [] then none
      else some (first :: trimmed rm (bufferText rest)) := by
  have text : bufferText (first :: rest) = first :: bufferText rest := by
    rw [bufferText, List.takeWhile_cons, if_pos (decide_eq_true proper)]
    rfl
  have nonul : (0 : UInt8) ∉ bufferText rest := by
    intro member
    have nonzero := List.mem_takeWhile_imp member
    rw [decide_eq_true_eq] at nonzero
    exact nonzero rfl
  have ends : removeTail rm (first :: bufferText rest) (bufferText rest).length =
      (trimmed rm (bufferText rest)).length := by
    have looped := removeTail_eq rm first (bufferText rest) [] nonul
    rwa [List.append_nil] at looped
  have start : removeTail rm (first :: bufferText rest) (first :: bufferText rest).length =
      (trimmed rm (bufferText rest)).length := by
    have behind : (first :: bufferText rest).getD (first :: bufferText rest).length 0 = 0 := by
      simp
    rw [List.length_cons] at behind ⊢
    rw [removeTail, behind]
    exact ends
  have found : strchrFinds comment ((first :: bufferText rest).headD 0) =
      isComment comment (first :: rest) := by
    rw [Bool.eq_iff_iff]
    simp [strchrFinds, isComment, proper]
  have whole : (bufferText rest).take (trimmed rm (bufferText rest)).length =
      trimmed rm (bufferText rest) := by
    exact (List.prefix_iff_eq_take.mp (List.rdropWhile_prefix _ _)).symm
  rw [returned, text]
  dsimp only
  rw [start]
  by_cases comments : isComment comment (first :: rest) = true
  · rw [if_pos (found.trans comments), if_pos comments]
  · rw [if_neg (found ▸ comments), if_neg comments]
    by_cases nothing : trimmed rm (bufferText rest) = []
    · rw [if_pos nothing, nothing]
      rfl
    · rw [if_neg nothing, if_pos (List.length_pos_of_ne_nil nothing), List.take_succ_cons, whole]

/-- A zero byte is not removed. -/
theorem zero_mem_trimmed {rm : CString} {line : List UInt8} (zero : (0 : UInt8) ∈ line) :
    (0 : UInt8) ∈ trimmed rm line := by
  have parts := List.rdropWhile_append_rtakeWhile (p := fun byte => byte ∈ rm.bytes) (l := line)
  rw [← parts, List.mem_append] at zero
  rcases zero with kept | removed
  · exact kept
  · have unwanted := List.mem_rtakeWhile_imp removed
    rw [decide_eq_true_eq] at unwanted
    exact absurd unwanted rm.nonul

/-- What is returned of a line has no zero byte. -/
theorem returned_nonul {comment rm : CString} {line text : List UInt8}
    (here : returned comment rm line = some text) : (0 : UInt8) ∉ text := by
  have nonul : (0 : UInt8) ∉ bufferText line := by
    intro member
    have nonzero := List.mem_takeWhile_imp member
    rw [decide_eq_true_eq] at nonzero
    exact nonzero rfl
  rw [returned] at here
  dsimp only at here
  split at here
  · cases here
  · split at here
    · obtain rfl := Option.some.inj here
      intro member
      exact nonul (List.mem_of_mem_take member)
    · cases here

/-- A line is returned as wanted just when it can be read. -/
theorem returned_iff (comment rm : CString) {line : List UInt8} (present : line ≠ []) :
    (returned comment rm line = wanted comment rm line ↔ Readable comment rm line) ∧
      (returned comment rm line ≠ none → wanted comment rm line ≠ none) := by
  rw [Readable, wanted]
  cases line with
  | nil => exact absurd rfl present
  | cons first rest =>
    by_cases proper : first = 0
    · subst proper
      have skipped : returned comment rm (0 :: rest) = none := rfl
      have other : ¬ isComment comment (0 :: rest) = true := by
        rw [isComment, List.headD_cons, decide_eq_true_eq]
        exact comment.nonul
      have zero : (0 : UInt8) ∈ trimmed rm (0 :: rest) := zero_mem_trimmed List.mem_cons_self
      rw [skipped, if_neg (not_or_intro other (List.ne_nil_of_mem zero))]
      constructor
      · apply iff_of_false
        · intro same
          cases same
        · rintro (comments | ⟨nonul, -⟩)
          · exact other comments
          · exact nonul List.mem_cons_self
      · intro returns
        exact absurd rfl returns
    rw [returned_eq comment rm proper]
    by_cases comments : isComment comment (first :: rest) = true
    · rw [if_pos comments, if_pos (Or.inl comments)]
      constructor
      · exact iff_of_true rfl (Or.inl comments)
      · exact id
    rw [if_neg comments]
    by_cases nonul : (0 : UInt8) ∈ rest
    · have zero : (0 : UInt8) ∈ trimmed rm (first :: rest) :=
        zero_mem_trimmed (List.mem_cons_of_mem first nonul)
      rw [if_neg (not_or_intro comments (List.ne_nil_of_mem zero))]
      constructor
      · apply iff_of_false
        · intro same
          have text : returned comment rm (first :: rest) = some (trimmed rm (first :: rest)) := by
            rw [returned_eq comment rm proper, if_neg comments]
            exact same
          exact returned_nonul text zero
        · rintro (comments' | ⟨without, -⟩)
          · exact comments comments'
          · exact without (List.mem_cons_of_mem first nonul)
      · intro _
        exact Option.some_ne_none _
    · have whole : bufferText rest = rest := by
        rw [bufferText, List.takeWhile_eq_self_iff]
        intro byte member
        rw [decide_eq_true_eq]
        rintro rfl
        exact nonul member
      have zeroless : (0 : UInt8) ∉ first :: rest := by
        rw [List.mem_cons, not_or]
        exact ⟨Ne.symm proper, nonul⟩
      rw [whole]
      have cons : trimmed rm (first :: rest) =
          if trimmed rm rest = [] then (if decide (first ∈ rm.bytes) = true then [] else [first])
          else first :: trimmed rm rest := rdropWhile_cons _ first rest
      by_cases nothing : trimmed rm rest = []
      · rw [if_pos nothing]
        have line : trimmed rm (first :: rest) =
            if decide (first ∈ rm.bytes) = true then [] else [first] := by
          rw [cons, if_pos nothing]
        by_cases removed : first ∈ rm.bytes
        · rw [line, if_pos (decide_eq_true removed), if_pos (Or.inr rfl)]
          constructor
          · apply iff_of_true rfl
            refine Or.inr ⟨zeroless, ?_⟩
            exact Nat.zero_ne_one
          · exact id
        · rw [line, if_neg (mt of_decide_eq_true removed), if_neg (not_or_intro comments
            (List.cons_ne_nil _ _))]
          constructor
          · apply iff_of_false
            · intro same
              cases same
            · rintro (comments' | ⟨-, several⟩)
              · exact comments comments'
              · exact several rfl
          · intro _
            exact Option.some_ne_none _
      · have line : trimmed rm (first :: rest) = first :: trimmed rm rest := by
          rw [cons, if_neg nothing]
        rw [if_neg nothing, line, if_neg (not_or_intro comments (List.cons_ne_nil _ _))]
        constructor
        · apply iff_of_true rfl
          refine Or.inr ⟨zeroless, ?_⟩
          have several := List.length_pos_of_ne_nil nothing
          rw [List.length_cons]
          omega
        · intro _
          exact Option.some_ne_none _

/-! ## What is returned of a file -/

section

variable {size : Nat} {comment rm : CString}

/-- The lines of a file have room in the buffer. -/
def Fits (size : Nat) (file : List UInt8) : Prop := ∀ line ∈ lines file, line.length < size

instance (size : Nat) (file : List UInt8) : Decidable (Fits size file) :=
  inferInstanceAs (Decidable (∀ line ∈ lines file, line.length < size))

/-- Behind a line that is read are the others. -/
theorem readLine_fits {file first : List UInt8} {others : List (List UInt8)}
    (fits : Fits size file) (cut : lines file = first :: others) :
    (readLine (size - 1) file).1 = first ∧ lines (readLine (size - 1) file).2 = others ∧
      (readLine (size - 1) file).2.length < file.length := by
  have member : first ∈ lines file := by
    rw [cut]
    exact List.mem_cons_self
  have room := fits first member
  obtain ⟨here, later⟩ := readLine_first cut (Nat.le_sub_one_of_lt room)
  refine ⟨here, later, ?_⟩
  have whole := congrArg List.length (readLine_append (size - 1) file)
  have positive := List.length_pos_of_ne_nil (lines_nonempty file first member)
  rw [List.length_append, here] at whole
  omega

/-- The loop hands out the first line of which something is returned. -/
theorem getLineLoop_first (turns : Nat) (file : List UInt8) (fits : Fits size file)
    (enough : file.length < turns) :
    (getLineLoop size comment rm turns file = some none ∧
      ∀ line ∈ lines file, returned comment rm line = none) ∨
    ∃ skipped line text rest, getLineLoop size comment rm turns file = some (some (text, rest)) ∧
      lines file = skipped ++ line :: lines rest ∧ returned comment rm line = some text ∧
      (∀ other ∈ skipped, returned comment rm other = none) ∧ rest.length < file.length := by
  induction turns generalizing file with
  | zero => exact absurd enough (Nat.not_lt_zero _)
  | succ turns inductionHypothesis =>
    rw [getLineLoop]
    by_cases empty : file = []
    · subst empty
      left
      rw [if_pos rfl]
      refine ⟨rfl, ?_⟩
      intro line member
      cases member
    rw [if_neg empty]
    obtain ⟨first, others, cut⟩ := List.exists_cons_of_ne_nil (lines_ne_nil empty)
    obtain ⟨here, later, shorter⟩ := readLine_fits fits cut
    have fitsLater : Fits size (readLine (size - 1) file).2 := by
      intro line member
      rw [later] at member
      apply fits
      rw [cut]
      exact List.mem_cons_of_mem first member
    have skipping (skip : returned comment rm first = none)
        (on : getLineLoop size comment rm (turns + 1) file =
          getLineLoop size comment rm turns (readLine (size - 1) file).2) :
        (getLineLoop size comment rm (turns + 1) file = some none ∧
          ∀ line ∈ lines file, returned comment rm line = none) ∨
        ∃ skipped line text rest,
          getLineLoop size comment rm (turns + 1) file = some (some (text, rest)) ∧
          lines file = skipped ++ line :: lines rest ∧ returned comment rm line = some text ∧
          (∀ other ∈ skipped, returned comment rm other = none) ∧ rest.length < file.length := by
      rw [on]
      rcases inductionHypothesis _ fitsLater (by omega) with
        ⟨failed, nothing⟩ | ⟨skipped, line, text, rest, got, parts, returns, skips, fewer⟩
      · left
        refine ⟨failed, ?_⟩
        rw [cut, List.forall_mem_cons, ← later]
        exact ⟨skip, nothing⟩
      · right
        refine ⟨first :: skipped, line, text, rest, got, ?_, returns, ?_, by omega⟩
        · rw [cut, ← later, parts]
          rfl
        · rw [List.forall_mem_cons]
          exact ⟨skip, skips⟩
    rw [getLineLoop, if_neg empty] at skipping
    dsimp only at skipping ⊢
    rw [here] at skipping ⊢
    by_cases comments : strchrFinds comment ((bufferText first).headD 0) = true
    · rw [if_pos comments] at skipping ⊢
      exact skipping (if_pos comments) rfl
    · rw [if_neg comments] at skipping ⊢
      by_cases left : removeTail rm (bufferText first) (bufferText first).length > 0
      · rw [if_pos left]
        right
        refine ⟨[], first, _, _, rfl, ?_, ?_, ?_, shorter⟩
        · rw [cut, later]
          rfl
        · rw [returned]
          dsimp only
          rw [if_neg comments, if_pos left]
        · intro other member
          cases member
      · rw [if_neg left] at skipping ⊢
        apply skipping _ rfl
        rw [returned]
        dsimp only
        rw [if_neg comments, if_neg left]

/-- A call hands out the first line of which something is returned. -/
theorem fileGetLine_first {file : List UInt8} (fits : Fits size file) :
    (fileGetLine size comment rm file = some none ∧
      ∀ line ∈ lines file, returned comment rm line = none) ∨
    ∃ skipped line text rest, fileGetLine size comment rm file = some (some (text, rest)) ∧
      lines file = skipped ++ line :: lines rest ∧ returned comment rm line = some text ∧
      (∀ other ∈ skipped, returned comment rm other = none) ∧ rest.length < file.length := by
  rw [fileGetLine]
  by_cases small : size < 1
  · left
    rw [if_pos small]
    refine ⟨rfl, ?_⟩
    intro line member
    have room := fits line member
    omega
  · rw [if_neg small]
    exact getLineLoop_first (file.length + 1) file fits (Nat.lt_succ_self _)

/-- The calls return what is returned of each line. -/
theorem returns_lines (file : List UInt8) (fits : Fits size file) :
    Returns size comment rm file ((lines file).filterMap (returned comment rm)) := by
  induction shorter : file.length using Nat.strongRecOn generalizing file with
  | ind length inductionHypothesis =>
    subst shorter
    rcases fileGetLine_first fits with
      ⟨failed, nothing⟩ | ⟨skipped, line, text, rest, got, parts, returns, skips, fewer⟩
    · rw [List.filterMap_eq_nil_iff.mpr nothing]
      exact .stop failed
    · have fitsLater : Fits size rest := by
        intro other member
        apply fits
        rw [parts]
        exact List.mem_append_right _ (List.mem_cons_of_mem line member)
      rw [parts, List.filterMap_append, List.filterMap_eq_nil_iff.mpr skips, List.nil_append,
        List.filterMap_cons_some returns]
      exact .next got (inductionHypothesis rest.length fewer rest fitsLater rfl)

/-- The calls return one list of texts. -/
theorem Returns.unique {file : List UInt8} {first second : List (List UInt8)}
    (returns : Returns size comment rm file first) (other : Returns size comment rm file second) :
    first = second := by
  induction returns generalizing second with
  | stop failed =>
    cases other with
    | stop => rfl
    | next got => cases failed.symm.trans got
  | next got later inductionHypothesis =>
    cases other with
    | stop failed => cases got.symm.trans failed
    | next gotToo laterToo =>
      obtain ⟨rfl, rfl⟩ := Prod.mk.inj (Option.some.inj (Option.some.inj (got.symm.trans gotToo)))
      rw [inductionHypothesis laterToo]

end

/-- The lines that are wanted are returned just when each line can be read. -/
theorem readsLines_iff {size : Nat} (comment rm : CString) {file : List UInt8}
    (fits : Fits size file) :
    ReadsLines size comment rm file ↔ ∀ line ∈ lines file, Readable comment rm line := by
  have runs := @returns_lines size comment rm file fits
  have same : ReadsLines size comment rm file ↔ (lines file).filterMap (returned comment rm) =
      (lines file).filterMap (wanted comment rm) := by
    constructor
    · intro reads
      exact runs.unique reads
    · intro equal
      rw [ReadsLines, ← equal]
      exact runs
  rw [same, filterMap_eq_iff]
  · constructor
    · intro each line member
      exact (returned_iff comment rm (lines_nonempty file line member)).1.mp (each line member)
    · intro each line member
      exact (returned_iff comment rm (lines_nonempty file line member)).1.mpr (each line member)
  · intro line member
    exact (returned_iff comment rm (lines_nonempty file line member)).2

/-- The new line is removed. -/
def newLineOnly : CString := CString.single lineFeed (by decide)

/-- The lines of this file have two letters, or are comments. -/
theorem readsLines_letters : ReadsLines 8 (CString.single 0x23 (by decide)) newLineOnly
    [0x61, 0x62, 0x0a, 0x23, 0x0a, 0x63, 0x64] := by
  apply (readsLines_iff _ _ _).mpr
  · decide
  · decide

/-- A line of one letter is not returned. -/
theorem not_readsLines : Fits 8 [0x61, 0x0a] ∧
    ¬ ReadsLines 8 (CString.single 0x23 (by decide)) newLineOnly [0x61, 0x0a] := by
  constructor
  · decide
  · intro reads
    cases reads with
    | next got => cases got

end Ezcfg.Util

import Ezcfg.Foundation.Terminated

/-!
# Texts that end with the terminator

What can be read from a pointer ends with the first terminator. Reading, scanning and searching
from such a pointer have results, which are such pointers further on.
-/

namespace Foundation

/-- `strstr`: reads up to the end of the wanted letters or the terminator. -/
def strstr (wanted : List UInt8) : List UInt8 → Option (Option (List UInt8))
  | [] => none
  | byte :: rest =>
    match startsWith wanted (byte :: rest) with
    | none => none
    | some true => some (some (byte :: rest))
    | some false => if byte = 0 then some none else strstr wanted rest

/-- What is read is a text up to its terminator, and nothing behind it. -/
inductive NulEnded : List UInt8 → Prop where
  | terminator : NulEnded [0]
  | letter {byte : UInt8} {p : List UInt8} (nonzero : byte ≠ 0) (rest : NulEnded p) :
    NulEnded (byte :: p)

variable {p q : List UInt8} {byte : UInt8}

/-- A text with its terminator can be read. -/
theorem nulEnded_terminated {text : List UInt8} (nonul : (0 : UInt8) ∉ text) : NulEnded (terminated text) := by
  induction text with
  | nil => exact .terminator
  | cons byte rest inductionHypothesis =>
    rw [List.mem_cons, not_or] at nonul
    exact .letter (Ne.symm nonul.1) (inductionHypothesis nonul.2)

/-- What can be read is a text with its terminator. -/
theorem NulEnded.exists_text (ended : NulEnded p) :
    ∃ text, (0 : UInt8) ∉ text ∧ p = terminated text := by
  induction ended with
  | terminator => exact ⟨[], List.not_mem_nil, rfl⟩
  | @letter byte p nonzero rest inductionHypothesis =>
    obtain ⟨text, nonul, rfl⟩ := inductionHypothesis
    refine ⟨byte :: text, ?_, rfl⟩
    rw [List.mem_cons, not_or]
    exact ⟨Ne.symm nonzero, nonul⟩

/-- There is a byte to read. -/
theorem NulEnded.cons (ended : NulEnded p) : ∃ byte rest, p = byte :: rest := by
  cases ended with
  | terminator => exact ⟨0, [], rfl⟩
  | letter nonzero rest => exact ⟨_, _, rfl⟩

/-- Behind a letter there is more. -/
theorem NulEnded.tail (ended : NulEnded (byte :: q)) (nonzero : byte ≠ 0) : NulEnded q := by
  cases ended with
  | terminator => exact absurd rfl nonzero
  | letter _ rest => exact rest

/-- Behind letters there is more. -/
theorem NulEnded.behind {front : List UInt8} (ended : NulEnded (front ++ q))
    (nonul : (0 : UInt8) ∉ front) : NulEnded q := by
  induction front with
  | nil => exact ended
  | cons byte rest inductionHypothesis =>
    rw [List.mem_cons, not_or] at nonul
    exact inductionHypothesis (ended.tail (Ne.symm nonul.1)) nonul.2

/-- Where there is something behind bytes, they are letters. -/
theorem NulEnded.letters {front : List UInt8} (ended : NulEnded (front ++ q)) (more : q ≠ []) :
    (0 : UInt8) ∉ front := by
  induction front with
  | nil => exact List.not_mem_nil
  | cons byte rest inductionHypothesis =>
    rw [List.cons_append] at ended
    generalize same : byte :: (rest ++ q) = p at ended
    cases ended with
    | terminator =>
      obtain ⟨-, none⟩ := List.cons.inj same
      exact absurd (List.append_eq_nil_iff.mp none).2 more
    | letter nonzero later =>
      obtain ⟨rfl, rfl⟩ := List.cons.inj same
      rw [List.mem_cons, not_or]
      exact ⟨Ne.symm nonzero, inductionHypothesis later⟩

/-- Moving over a byte. -/
theorem advance_one (byte : UInt8) (more : q ≠ []) : advance 1 (byte :: q) = some q := by
  have positive := List.length_pos_iff.mpr more
  rw [advance, List.length_cons, if_pos (by omega)]
  rfl

/-- Moving over bytes. -/
theorem advance_append (front : List UInt8) (more : q ≠ []) :
    advance front.length (front ++ q) = some q := by
  have positive := List.length_pos_iff.mpr more
  rw [advance, List.length_append, if_pos (by omega), List.drop_left]

/-- Letters that are in front are read. -/
theorem startsWith_append (letters rest : List UInt8) :
    startsWith letters (letters ++ rest) = some true := by
  induction letters with
  | nil => rfl
  | cons letter letters inductionHypothesis =>
    rw [List.cons_append, startsWith, if_pos rfl]
    exact inductionHypothesis

/-- Moving over letters. -/
theorem NulEnded.advance {front : List UInt8} (ended : NulEnded (front ++ q))
    (nonul : (0 : UInt8) ∉ front) : Foundation.advance front.length (front ++ q) = some q := by
  obtain ⟨byte, rest, rfl⟩ := (ended.behind nonul).cons
  exact advance_append front (List.cons_ne_nil byte rest)

/-- A scan that stops at the terminator goes over bytes that pass the test, and stops in front of
one that does not. -/
theorem NulEnded.scan (ended : NulEnded p) (test : UInt8 → Bool) (stops : test 0 = false) :
    ∃ passed byte rest, p = passed ++ byte :: rest ∧ (∀ other ∈ passed, test other = true) ∧
      test byte = false ∧ Foundation.scan test p = some (byte :: rest) ∧ NulEnded (byte :: rest) := by
  induction ended with
  | terminator =>
    refine ⟨[], 0, [], rfl, fun _ member => absurd member List.not_mem_nil, stops, ?_, .terminator⟩
    rw [Foundation.scan, stops]
    rfl
  | @letter byte p nonzero rest inductionHypothesis =>
    cases passes : test byte with
    | false =>
      refine ⟨[], byte, p, rfl, fun _ member => absurd member List.not_mem_nil, passes, ?_,
        .letter nonzero rest⟩
      rw [Foundation.scan, passes]
      rfl
    | true =>
      obtain ⟨passed, last, behind, rfl, all, fails, found, ended⟩ := inductionHypothesis
      refine ⟨byte :: passed, last, behind, rfl, ?_, fails, ?_, ended⟩
      · rw [List.forall_mem_cons]
        exact ⟨passes, all⟩
      · rw [Foundation.scan, if_pos passes]
        exact found

/-- A scan goes over bytes that pass the test and stops in front of one that does not. -/
theorem scan_cut {test : UInt8 → Bool} {passed : List UInt8} (rest : List UInt8)
    (all : ∀ other ∈ passed, test other = true) (fails : test byte = false) :
    scan test (passed ++ byte :: rest) = some (byte :: rest) := by
  induction passed with
  | nil =>
    rw [List.nil_append, scan, fails]
    rfl
  | cons first passed inductionHypothesis =>
    rw [List.forall_mem_cons] at all
    rw [List.cons_append, scan, if_pos all.1]
    exact inductionHypothesis all.2

/-- A byte is found where it is for the first time. -/
theorem strchr_cut {wanted : UInt8} {front : List UInt8} (rest : List UInt8)
    (absent : wanted ∉ front) (nonul : (0 : UInt8) ∉ front) :
    strchr wanted (front ++ wanted :: rest) = some (some (wanted :: rest)) := by
  induction front with
  | nil => rw [List.nil_append, strchr, if_pos rfl]
  | cons first front inductionHypothesis =>
    rw [List.mem_cons, not_or] at absent nonul
    rw [List.cons_append, strchr, if_neg (Ne.symm absent.1), if_neg (Ne.symm nonul.1)]
    exact inductionHypothesis absent.2 nonul.2

/-- A letter is found at its first place, or the search ends at the terminator. -/
theorem NulEnded.strchr {wanted : UInt8} (ended : NulEnded p) (nonzero : wanted ≠ 0) :
    Foundation.strchr wanted p = some none ∨ ∃ front rest, p = front ++ wanted :: rest ∧
      wanted ∉ front ∧ Foundation.strchr wanted p = some (some (wanted :: rest)) := by
  induction ended with
  | terminator =>
    rw [Foundation.strchr, if_neg (Ne.symm nonzero), if_pos rfl]
    exact .inl rfl
  | @letter byte p letter rest inductionHypothesis =>
    rw [Foundation.strchr]
    by_cases here : byte = wanted
    · rw [if_pos here]
      subst here
      exact .inr ⟨[], p, rfl, List.not_mem_nil, rfl⟩
    · rw [if_neg here, if_neg letter]
      obtain missing | ⟨front, behind, rfl, absent, found⟩ := inductionHypothesis
      · exact .inl missing
      · refine .inr ⟨byte :: front, behind, rfl, ?_, found⟩
        rw [List.mem_cons, not_or]
        exact ⟨Ne.symm here, absent⟩

/-- Whether letters are in front can be read. -/
theorem NulEnded.startsWith {letters : List UInt8} (ended : NulEnded p)
    (nonul : (0 : UInt8) ∉ letters) :
    Foundation.startsWith letters p = some (decide (letters <+: p)) := by
  induction letters generalizing p with
  | nil => rw [Foundation.startsWith, decide_eq_true List.nil_prefix]
  | cons letter letters inductionHypothesis =>
    rw [List.mem_cons, not_or] at nonul
    obtain ⟨byte, rest, rfl⟩ := ended.cons
    rw [Foundation.startsWith]
    by_cases same : byte = letter
    · subst same
      rw [if_pos rfl, inductionHypothesis (ended.tail (Ne.symm nonul.1)) nonul.2]
      simp
    · rw [if_neg same, decide_eq_false]
      rintro ⟨behind, cut⟩
      exact same (List.cons.inj cut).1.symm

/-- The first place where letters stand. -/
def suffixFrom (wanted : List UInt8) : List UInt8 → Option (List UInt8)
  | [] => none
  | byte :: rest => if wanted <+: byte :: rest then some (byte :: rest) else suffixFrom wanted rest

/-- Searching for letters finds the first place where they stand. -/
theorem NulEnded.strstr {wanted : List UInt8} (ended : NulEnded p) (nonul : (0 : UInt8) ∉ wanted)
    (letters : wanted ≠ []) : Foundation.strstr wanted p = some (suffixFrom wanted p) := by
  induction ended with
  | terminator =>
    have absent : ¬ wanted <+: [0] := by
      rintro ⟨behind, cut⟩
      obtain ⟨letter, rest, rfl⟩ := List.exists_cons_of_ne_nil letters
      obtain ⟨rfl, -⟩ := List.cons.inj cut
      exact nonul List.mem_cons_self
    rw [Foundation.strstr, NulEnded.terminator.startsWith nonul, decide_eq_false absent, suffixFrom,
      if_neg absent]
    rfl
  | @letter byte p nonzero rest inductionHypothesis =>
    rw [Foundation.strstr, (NulEnded.letter nonzero rest).startsWith nonul, suffixFrom]
    by_cases here : wanted <+: byte :: p
    · rw [decide_eq_true here, if_pos here]
    · rw [decide_eq_false here, if_neg here]
      dsimp only
      rw [if_neg nonzero]
      exact inductionHypothesis

/-- What is found is behind bytes of the text, and the letters are in front of it. -/
theorem suffixFrom_parts {wanted : List UInt8} (found : suffixFrom wanted p = some q) :
    (∃ front, p = front ++ q) ∧ ∃ behind, q = wanted ++ behind := by
  induction p with
  | nil => cases found
  | cons byte rest inductionHypothesis =>
    rw [suffixFrom] at found
    split at found
    · rename_i here
      obtain ⟨behind, cut⟩ := here
      obtain rfl := Option.some.inj found
      exact ⟨⟨[], rfl⟩, behind, cut.symm⟩
    · obtain ⟨⟨front, rfl⟩, known⟩ := inductionHypothesis found
      exact ⟨⟨byte :: front, rfl⟩, known⟩

/-- Letters are found where the last of them is for the first time. -/
theorem suffixFrom_last {mark : UInt8} {lead front : List UInt8} (behind : List UInt8)
    (notFront : mark ∉ front) (notLead : mark ∉ lead) :
    suffixFrom (lead ++ [mark]) (front ++ (lead ++ mark :: behind)) =
      some (lead ++ mark :: behind) := by
  induction front with
  | nil =>
    obtain ⟨byte, rest, cut⟩ : ∃ byte rest, lead ++ mark :: behind = byte :: rest := by
      cases lead with
      | nil => exact ⟨_, _, rfl⟩
      | cons byte lead => exact ⟨_, _, rfl⟩
    have here : lead ++ [mark] <+: byte :: rest := ⟨behind, by rw [← cut]; simp⟩
    rw [List.nil_append, cut, suffixFrom, if_pos here]
  | cons byte rest inductionHypothesis =>
    rw [List.mem_cons, not_or] at notFront
    -- the mark would stand in front of its first place
    have elsewhere : ¬ lead ++ [mark] <+: byte :: (rest ++ (lead ++ mark :: behind)) := by
      rintro ⟨more, cut⟩
      have inside : lead.length < (byte :: (rest ++ lead)).length := by
        simp only [List.length_cons, List.length_append]
        omega
      have here : (lead ++ [mark] ++ more)[lead.length]? = some mark := by simp
      have regroup : byte :: (rest ++ (lead ++ mark :: behind)) =
          (byte :: (rest ++ lead)) ++ mark :: behind := by simp
      rw [cut, regroup, List.getElem?_append_left inside] at here
      have member := List.mem_of_getElem? here
      rw [List.mem_cons, List.mem_append] at member
      obtain first | later | inLead := member
      · exact notFront.1 first
      · exact notFront.2 later
      · exact notLead inLead
    rw [List.cons_append, suffixFrom, if_neg elsewhere]
    exact inductionHypothesis notFront.2

/-- Whether letters are in front can be read where there are as many bytes. -/
theorem startsWith_of_length {letters : List UInt8} (long : letters.length ≤ p.length) :
    startsWith letters p = some (decide (letters <+: p)) := by
  induction letters generalizing p with
  | nil => rw [startsWith, decide_eq_true List.nil_prefix]
  | cons letter letters inductionHypothesis =>
    cases p with
    | nil => cases long
    | cons byte rest =>
      rw [List.length_cons, List.length_cons] at long
      rw [startsWith]
      by_cases same : byte = letter
      · subst same
        rw [if_pos rfl, inductionHypothesis (Nat.le_of_succ_le_succ long)]
        simp
      · rw [if_neg same, decide_eq_false]
        rintro ⟨behind, cut⟩
        exact same (List.cons.inj cut).1.symm

/-- Searching finds the first place where letters stand, when there is no terminator in front of
it, whatever is behind it. -/
theorem strstr_of_suffixFrom {wanted front : List UInt8} (found : suffixFrom wanted (front ++ q) = some q)
    (nonul : (0 : UInt8) ∉ front) : strstr wanted (front ++ q) = some (some q) := by
  obtain ⟨-, behind, cut⟩ := suffixFrom_parts found
  have long : wanted.length ≤ q.length := by
    rw [cut, List.length_append]
    omega
  induction front with
  | nil =>
    rw [List.nil_append] at found ⊢
    cases q with
    | nil => cases found
    | cons byte rest =>
      have here : wanted <+: byte :: rest := ⟨behind, cut.symm⟩
      rw [strstr, startsWith_of_length long, decide_eq_true here]
  | cons byte rest inductionHypothesis =>
    rw [List.mem_cons, not_or] at nonul
    rw [List.cons_append, suffixFrom] at found
    split at found
    · -- the letters would stand where more is left
      have same := congrArg List.length (Option.some.inj found)
      rw [List.length_cons, List.length_append] at same
      omega
    · rename_i elsewhere
      have longer : wanted.length ≤ (byte :: (rest ++ q)).length := by
        rw [List.length_cons, List.length_append]
        omega
      rw [List.cons_append, strstr, startsWith_of_length longer, decide_eq_false elsewhere]
      dsimp only
      rw [if_neg (Ne.symm nonul.1)]
      exact inductionHypothesis found nonul.2

/-- Letters are found where the last of them is for the first time. -/
theorem strstr_last {mark : UInt8} {lead front : List UInt8} (behind : List UInt8)
    (notFront : mark ∉ front) (notLead : mark ∉ lead) (nonul : (0 : UInt8) ∉ front) :
    strstr (lead ++ [mark]) (front ++ (lead ++ mark :: behind)) =
      some (some (lead ++ mark :: behind)) :=
  strstr_of_suffixFrom (suffixFrom_last behind notFront notLead) nonul

end Foundation

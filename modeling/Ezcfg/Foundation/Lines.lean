import Mathlib.Data.List.DropRight

/-!
# The lines of a file

A line goes up to the next new line, and has it; the last line may have none. A read gets the
bytes of a line, but not more than there is room for. Bytes are removed from the end of a line
as long as they are unwanted.
-/

namespace Foundation

/-- "\n" -/
abbrev lineFeed : UInt8 := 0x0a

/-- The lines of a file. -/
def lines : List UInt8 → List (List UInt8)
  | [] => []
  | byte :: rest =>
    if byte = lineFeed then [byte] :: lines rest
    else match lines rest with
      | [] => [[byte]]
      | line :: others => (byte :: line) :: others

/-- The bytes of the first line that there is room for, and what is left of the file. -/
def readLine : Nat → List UInt8 → List UInt8 × List UInt8
  | 0, file => ([], file)
  | _ + 1, [] => ([], [])
  | room + 1, byte :: rest =>
    if byte = lineFeed then ([byte], rest)
    else
      let (line, others) := readLine room rest
      (byte :: line, others)

/-- What is read and what is left are the file. -/
theorem readLine_append (room : Nat) (file : List UInt8) :
    (readLine room file).1 ++ (readLine room file).2 = file := by
  induction room generalizing file with
  | zero => rfl
  | succ room inductionHypothesis =>
    cases file with
    | nil => rfl
    | cons byte rest =>
      rw [readLine]
      split
      · rfl
      · exact congrArg (byte :: ·) (inductionHypothesis rest)

/-- A file that is not empty has a line. -/
theorem lines_ne_nil {file : List UInt8} (present : file ≠ []) : lines file ≠ [] := by
  cases file with
  | nil => exact absurd rfl present
  | cons byte rest =>
    rw [lines]
    split
    · exact List.cons_ne_nil _ _
    · split
      · exact List.cons_ne_nil _ _
      · exact List.cons_ne_nil _ _

/-- Of the first line so much is read as there is room for. -/
theorem readLine_cut {file first : List UInt8} {others : List (List UInt8)}
    (cut : lines file = first :: others) (room : Nat) :
    (readLine room file).1 = first.take room ∧ lines (readLine room file).2 =
      if first.drop room = [] then others else first.drop room :: others := by
  induction file generalizing first room with
  | nil => cases cut
  | cons byte rest inductionHypothesis =>
    cases room with
    | zero =>
      have kept : first ≠ [] := by
        rintro rfl
        rw [lines] at cut
        split at cut
        · cases cut
        · split at cut
          · cases cut
          · cases cut
      rw [List.drop_zero, if_neg kept, ← cut]
      exact ⟨rfl, rfl⟩
    | succ room =>
      rw [lines] at cut
      by_cases ends : byte = lineFeed
      · rw [if_pos ends] at cut
        obtain ⟨rfl, rfl⟩ := List.cons.inj cut
        rw [readLine, if_pos ends, List.drop_succ_cons, List.drop_nil, if_pos rfl,
          List.take_succ_cons, List.take_nil]
        exact ⟨rfl, rfl⟩
      · rw [if_neg ends] at cut
        rw [readLine, if_neg ends]
        cases behind : lines rest with
        | nil =>
          have empty : rest = [] := by
            by_contra present
            exact lines_ne_nil present behind
          subst empty
          rw [behind] at cut
          obtain ⟨rfl, rfl⟩ := List.cons.inj cut
          rw [List.drop_succ_cons, List.drop_nil, if_pos rfl, List.take_succ_cons, List.take_nil]
          cases room with
          | zero => exact ⟨rfl, rfl⟩
          | succ room => exact ⟨rfl, rfl⟩
        | cons line later =>
          rw [behind] at cut
          obtain ⟨rfl, rfl⟩ := List.cons.inj cut
          obtain ⟨here, beyond⟩ := inductionHypothesis behind room
          rw [List.drop_succ_cons, List.take_succ_cons]
          exact ⟨congrArg (byte :: ·) here, beyond⟩

/-- Where there is room for the first line, it is read. -/
theorem readLine_first {file first : List UInt8} {others : List (List UInt8)}
    (cut : lines file = first :: others) {room : Nat} (fits : first.length ≤ room) :
    (readLine room file).1 = first ∧ lines (readLine room file).2 = others := by
  have parts := readLine_cut cut room
  rwa [List.take_of_length_le fits, List.drop_eq_nil_of_le fits, if_pos rfl] at parts

/-- No line is empty. -/
theorem lines_nonempty (file : List UInt8) : ∀ line ∈ lines file, line ≠ [] := by
  induction file with
  | nil =>
    intro line member
    cases member
  | cons byte rest inductionHypothesis =>
    rw [lines]
    split
    · rw [List.forall_mem_cons]
      exact ⟨List.cons_ne_nil _ _, inductionHypothesis⟩
    · split
      · rw [List.forall_mem_singleton]
        exact List.cons_ne_nil _ _
      · next line others behind =>
        rw [behind, List.forall_mem_cons] at inductionHypothesis
        rw [List.forall_mem_cons]
        exact ⟨List.cons_ne_nil _ _, inductionHypothesis.2⟩

/-- A file starts with its first line. -/
theorem lines_first {front : List UInt8} (absent : lineFeed ∉ front) (rest : List UInt8) :
    lines (front ++ lineFeed :: rest) = (front ++ [lineFeed]) :: lines rest := by
  induction front with
  | nil =>
    rw [List.nil_append, lines, if_pos rfl]
    rfl
  | cons byte more inductionHypothesis =>
    rw [List.mem_cons, not_or] at absent
    rw [List.cons_append, lines, if_neg (Ne.symm absent.1), inductionHypothesis absent.2]
    rfl

/-- The lines of a file put together are the file. -/
theorem lines_flatten (file : List UInt8) : (lines file).flatten = file := by
  induction file with
  | nil => rfl
  | cons byte rest inductionHypothesis =>
    rw [lines]
    split
    · rw [List.flatten_cons, inductionHypothesis]
      rfl
    · cases behind : lines rest with
      | nil =>
        rw [behind] at inductionHypothesis
        rw [← inductionHypothesis]
        rfl
      | cons line others =>
        rw [behind] at inductionHypothesis
        rw [← inductionHypothesis]
        rfl

/-- Each line in front of another one ends with a new line. -/
theorem lines_ended (file : List UInt8) :
    ∀ line ∈ (lines file).dropLast, line.getLast? = some lineFeed := by
  induction file with
  | nil =>
    intro line member
    cases member
  | cons byte rest inductionHypothesis =>
    rw [lines]
    by_cases ends : byte = lineFeed
    · rw [if_pos ends, ends]
      cases behind : lines rest with
      | nil =>
        intro line member
        cases member
      | cons line others =>
        rw [behind] at inductionHypothesis
        rw [List.dropLast_cons_cons, List.forall_mem_cons]
        exact ⟨rfl, inductionHypothesis⟩
    · rw [if_neg ends]
      cases behind : lines rest with
      | nil =>
        intro line member
        cases member
      | cons line others =>
        rw [behind] at inductionHypothesis
        cases others with
        | nil =>
          intro line member
          cases member
        | cons other others =>
          rw [List.dropLast_cons_cons, List.forall_mem_cons] at inductionHypothesis
          dsimp only
          rw [List.dropLast_cons_cons, List.forall_mem_cons]
          refine ⟨?_, inductionHypothesis.2⟩
          rw [List.getLast?_cons, inductionHypothesis.1]
          rfl

/-- There are no more lines than bytes. -/
theorem lines_length_le (file : List UInt8) : (lines file).length ≤ file.length := by
  induction file with
  | nil => exact Nat.le_refl 0
  | cons byte rest inductionHypothesis =>
    rw [lines, List.length_cons]
    split
    · rw [List.length_cons]
      exact Nat.succ_le_succ inductionHypothesis
    · split
      · exact Nat.succ_le_succ (Nat.zero_le _)
      · next behind =>
        rw [behind, List.length_cons] at inductionHypothesis
        rw [List.length_cons]
        exact Nat.le_succ_of_le inductionHypothesis

/-- A line of a file is its own only line. -/
theorem lines_line (file : List UInt8) : ∀ line ∈ lines file, lines line = [line] := by
  induction file with
  | nil =>
    intro line member
    cases member
  | cons byte rest inductionHypothesis =>
    rw [lines]
    by_cases ends : byte = lineFeed
    · rw [if_pos ends, List.forall_mem_cons]
      refine ⟨?_, inductionHypothesis⟩
      rw [lines, if_pos ends]
      rfl
    · rw [if_neg ends]
      cases behind : lines rest with
      | nil =>
        dsimp only
        rw [List.forall_mem_singleton, lines, if_neg ends]
        rfl
      | cons line others =>
        rw [behind, List.forall_mem_cons] at inductionHypothesis
        dsimp only
        rw [List.forall_mem_cons]
        refine ⟨?_, inductionHypothesis.2⟩
        rw [lines, if_neg ends, inductionHypothesis.1]

/-! ## Reads of a file -/

/-- What reads get of a file, with a bound on their number. -/
def readsLoop (room : Nat) : Nat → List UInt8 → List (List UInt8)
  | 0, _ => []
  | turns + 1, file =>
    if file = [] then []
    else
      let (piece, rest) := readLine room file
      piece :: readsLoop room turns rest

/-- What reads get of a file; each gets a byte where there is room for one. -/
def reads (room : Nat) (file : List UInt8) : List (List UInt8) := readsLoop room file.length file

section

variable {room : Nat} (positive : 0 < room)

include positive

/-- A read leaves less of a file. -/
theorem readLine_less {file : List UInt8} (present : file ≠ []) :
    (readLine room file).2.length < file.length := by
  obtain ⟨more, rfl⟩ : ∃ more, room = more + 1 := ⟨room - 1, by omega⟩
  obtain ⟨byte, rest, rfl⟩ := List.exists_cons_of_ne_nil present
  have whole := congrArg List.length (readLine_append (more + 1) (byte :: rest))
  have read : 0 < (readLine (more + 1) (byte :: rest)).1.length := by
    rw [readLine]
    split
    · exact Nat.succ_pos _
    · exact Nat.succ_pos _
  rw [List.length_append] at whole
  omega

/-- More turns than bytes change nothing. -/
theorem readsLoop_eq (turns : Nat) (file : List UInt8) (enough : file.length ≤ turns) :
    readsLoop room turns file = reads room file := by
  rw [reads]
  induction length : file.length using Nat.strongRecOn generalizing file turns with
  | ind size inductionHypothesis =>
    subst length
    by_cases empty : file = []
    · subst empty
      cases turns with
      | zero => rfl
      | succ turns => rfl
    · have less := readLine_less positive empty
      obtain ⟨byte, rest, rfl⟩ := List.exists_cons_of_ne_nil empty
      obtain ⟨fewer, rfl⟩ : ∃ fewer, turns = fewer + 1 := ⟨turns - 1, by
        rw [List.length_cons] at enough
        omega⟩
      rw [List.length_cons, readsLoop, readsLoop, if_neg empty]
      dsimp only
      rw [List.length_cons] at less enough
      rw [if_neg empty, inductionHypothesis _ less fewer _ (by omega) rfl,
        inductionHypothesis _ less rest.length _ (by omega) rfl]

/-- The first read, and those of what is left. -/
theorem reads_cons {file : List UInt8} (present : file ≠ []) :
    reads room file = (readLine room file).1 :: reads room (readLine room file).2 := by
  have less := readLine_less positive present
  obtain ⟨byte, rest, rfl⟩ := List.exists_cons_of_ne_nil present
  rw [List.length_cons] at less
  rw [reads, List.length_cons, readsLoop, if_neg present]
  dsimp only
  rw [readsLoop_eq positive rest.length _ (Nat.le_of_lt_succ less)]

/-- The reads of a file are those of its lines. -/
theorem reads_lines (file : List UInt8) : reads room file = (lines file).flatMap (reads room) := by
  induction length : file.length using Nat.strongRecOn generalizing file with
  | ind size inductionHypothesis =>
    subst length
    by_cases empty : file = []
    · subst empty
      rfl
    · obtain ⟨first, others, cut⟩ := List.exists_cons_of_ne_nil (lines_ne_nil empty)
      have member : first ∈ lines file := by
        rw [cut]
        exact List.mem_cons_self
      obtain ⟨piece, later⟩ := readLine_cut cut room
      obtain ⟨pieceAlone, -⟩ := readLine_cut (lines_line file first member) room
      have left : (readLine room first).2 = first.drop room := by
        rw [← List.append_right_inj (first.take room), List.take_append_drop, ← pieceAlone]
        exact readLine_append room first
      rw [reads_cons positive empty, inductionHypothesis _ (readLine_less positive empty) _ rfl,
        cut, List.flatMap_cons, reads_cons positive (lines_nonempty file first member), piece,
        pieceAlone, later, left]
      by_cases whole : first.drop room = []
      · rw [if_pos whole, whole]
        rfl
      · rw [if_neg whole]
        rfl

end

/-- Bytes are removed behind the first byte, and this last. -/
theorem rdropWhile_cons {α : Type} (unwanted : α → Bool) (first : α) (rest : List α) :
    (first :: rest).rdropWhile unwanted =
      if rest.rdropWhile unwanted = [] then (if unwanted first then [] else [first])
      else first :: rest.rdropWhile unwanted := by
  induction rest using List.reverseRecOn with
  | nil => rw [List.rdropWhile_nil, if_pos rfl, List.rdropWhile_singleton]
  | append_singleton rest last inductionHypothesis =>
    rw [← List.cons_append, List.rdropWhile_concat, List.rdropWhile_concat, inductionHypothesis]
    split
    · rfl
    · rw [if_neg (List.append_ne_nil_of_right_ne_nil rest (List.cons_ne_nil last []))]
      rfl

/-- What stands behind a list is removed with its end when all of it is unwanted. -/
theorem rdropWhile_append_iff {α : Type} (unwanted : α → Bool) (first second : List α) :
    (first ++ second).rdropWhile unwanted = first.rdropWhile unwanted ↔
      ∀ a ∈ second, unwanted a = true := by
  induction second using List.reverseRecOn with
  | nil =>
    rw [List.append_nil]
    apply iff_of_true rfl
    intro a member
    cases member
  | append_singleton rest last inductionHypothesis =>
    rw [← List.append_assoc, List.rdropWhile_concat, List.forall_mem_append,
      List.forall_mem_singleton]
    by_cases removed : unwanted last = true
    · rw [if_pos removed, inductionHypothesis]
      exact (and_iff_left removed).symm
    · rw [if_neg removed]
      apply iff_of_false
      · intro same
        have longer := congrArg List.length same
        have shorter := (List.rdropWhile_prefix unwanted first).length_le
        rw [List.length_append, List.length_append, List.length_singleton] at longer
        omega
      · rintro ⟨-, here⟩
        exact removed here

/-- Where fewer elements have a value, as many values come out only when the values are the
same. -/
theorem filterMap_eq_iff {α β : Type} {first second : α → Option β} {list : List α}
    (fewer : ∀ a ∈ list, first a ≠ none → second a ≠ none) :
    list.filterMap first = list.filterMap second ↔ ∀ a ∈ list, first a = second a := by
  have shorter (list : List α) (fewer : ∀ a ∈ list, first a ≠ none → second a ≠ none) :
      (list.filterMap first).length ≤ (list.filterMap second).length := by
    rw [List.length_filterMap_eq_countP, List.length_filterMap_eq_countP]
    apply List.countP_mono_left
    intro a member
    rw [Option.isSome_iff_ne_none, Option.isSome_iff_ne_none]
    exact fewer a member
  induction list with
  | nil =>
    apply iff_of_true rfl
    intro a member
    cases member
  | cons a rest inductionHypothesis =>
    rw [List.forall_mem_cons] at fewer
    have later := inductionHypothesis fewer.2
    rw [List.forall_mem_cons, List.filterMap_cons, List.filterMap_cons]
    cases here : first a with
    | none =>
      cases there : second a with
      | none => simpa using later
      | some value =>
        have lengths := shorter rest fewer.2
        apply iff_of_false
        · intro same
          have sizes : (rest.filterMap first).length = (value :: rest.filterMap second).length :=
            congrArg List.length same
          rw [List.length_cons] at sizes
          omega
        · rintro ⟨same, -⟩
          cases same
    | some value =>
      cases there : second a with
      | none => exact absurd there (fewer.1 (by rw [here]; exact Option.some_ne_none value))
      | some other => simpa using and_congr_right fun _ => later

end Foundation

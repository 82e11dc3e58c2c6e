import Mathlib.Data.List.TakeWhile

/-!
# Cutting a text

A text is cut at the first place where a byte, a pair of bytes, or a text stands. The cut
gives what is in front of the place and what is behind it. A text that is split at every place
of a mark falls into pieces without it.
-/

namespace Foundation.TextCuts

/-- Cut at the first place of a byte. -/
def cutAt (mark : UInt8) : List UInt8 → Option (List UInt8 × List UInt8)
  | [] => none
  | byte :: rest =>
    if byte = mark then some ([], rest)
    else (cutAt mark rest).map fun (front, behind) => (byte :: front, behind)

/-- Cut at the first place of two bytes. -/
def cutPair (first second : UInt8) : List UInt8 → Option (List UInt8 × List UInt8)
  | [] => none
  | byte :: rest =>
    if byte = first ∧ rest.head? = some second then some ([], rest.tail)
    else (cutPair first second rest).map fun (front, behind) => (byte :: front, behind)

/-- Cut at the first place of a text. -/
def cutText (mark : List UInt8) : List UInt8 → Option (List UInt8 × List UInt8)
  | [] => none
  | byte :: rest =>
    if mark <+: byte :: rest then some ([], (byte :: rest).drop mark.length)
    else (cutText mark rest).map fun (front, behind) => (byte :: front, behind)

/-- A byte is not in a text that is put together without it. -/
theorem notMem_around {byte mark : UInt8} {front behind : List UInt8} (notFront : byte ∉ front)
    (other : byte ≠ mark) (notBehind : byte ∉ behind) : byte ∉ front ++ mark :: behind := by
  rw [List.mem_append, List.mem_cons, not_or, not_or]
  exact ⟨notFront, other, notBehind⟩

/-- The cut is at the mark, when the mark is not in front of it. -/
theorem cutAt_mark (mark : UInt8) (front behind : List UInt8) (absent : mark ∉ front) :
    cutAt mark (front ++ mark :: behind) = some (front, behind) := by
  induction front with
  | nil => rw [List.nil_append, cutAt, if_pos rfl]
  | cons byte rest inductionHypothesis =>
    rw [List.mem_cons, not_or] at absent
    rw [List.cons_append, cutAt, if_neg (Ne.symm absent.1), inductionHypothesis absent.2]
    rfl

/-- A text has one first mark. -/
theorem mark_unique {mark : UInt8} {front frontToo behind behindToo : List UInt8}
    (same : front ++ mark :: behind = frontToo ++ mark :: behindToo) (absent : mark ∉ front)
    (absentToo : mark ∉ frontToo) : front = frontToo ∧ behind = behindToo := by
  have cut := cutAt_mark mark front behind absent
  rw [same, cutAt_mark mark frontToo behindToo absentToo] at cut
  obtain ⟨sameFront, sameBehind⟩ := Prod.mk.inj (Option.some.inj cut)
  exact ⟨sameFront.symm, sameBehind.symm⟩

/-- There is no cut without the mark. -/
theorem cutAt_absent {mark : UInt8} {text : List UInt8} (absent : mark ∉ text) :
    cutAt mark text = none := by
  induction text with
  | nil => rfl
  | cons byte rest inductionHypothesis =>
    rw [List.mem_cons, not_or] at absent
    rw [cutAt, if_neg (Ne.symm absent.1), inductionHypothesis absent.2]
    rfl

/-- A text with the mark is cut at the first one. -/
theorem cutAt_mem {mark : UInt8} {text : List UInt8} (present : mark ∈ text) :
    ∃ front behind, text = front ++ mark :: behind ∧ cutAt mark text = some (front, behind) := by
  obtain ⟨front, behind, rfl, absent⟩ := List.eq_append_cons_of_mem present
  exact ⟨front, behind, rfl, cutAt_mark mark front behind absent⟩

/-- The cut is at the pair, when its first byte is not in front of it. -/
theorem cutPair_mark (first second : UInt8) (front behind : List UInt8) (absent : first ∉ front) :
    cutPair first second (front ++ first :: second :: behind) = some (front, behind) := by
  induction front with
  | nil =>
    rw [List.nil_append, cutPair, if_pos ⟨rfl, rfl⟩]
    rfl
  | cons byte rest inductionHypothesis =>
    rw [List.mem_cons, not_or] at absent
    rw [List.cons_append, cutPair, if_neg (fun here => absent.1 here.1.symm),
      inductionHypothesis absent.2]
    rfl

/-- The text is what is in front of the cut, the pair, and what is behind it. -/
theorem cutPair_parts {first second : UInt8} {text front behind : List UInt8}
    (found : cutPair first second text = some (front, behind)) :
    text = front ++ first :: second :: behind := by
  induction text generalizing front with
  | nil => cases found
  | cons byte rest inductionHypothesis =>
    rw [cutPair] at found
    split at found
    · rename_i here
      obtain ⟨rfl, next⟩ := here
      obtain ⟨tail, rfl⟩ := List.head?_eq_some_iff.mp next
      injection found with pair
      injection pair with frontEq behindEq
      rw [← frontEq, ← behindEq]
      rfl
    · obtain ⟨⟨others, tail⟩, inner, same⟩ := Option.map_eq_some_iff.mp found
      injection same with frontEq behindEq
      subst behindEq
      rw [← frontEq, List.cons_append, ← inductionHypothesis inner]

/-- What is behind a pair is shorter than the text. -/
theorem cutPair_shorter {first second : UInt8} {text front behind : List UInt8}
    (found : cutPair first second text = some (front, behind)) : behind.length < text.length := by
  rw [cutPair_parts found]
  simp only [List.length_append, List.length_cons]
  omega

/-! ## Cuts at a text -/

section

variable {mark text front behind : List UInt8}

/-- The text is what is in front of the cut, the mark, and what is behind it. -/
theorem cutText_parts (found : cutText mark text = some (front, behind)) :
    text = front ++ (mark ++ behind) := by
  induction text generalizing front with
  | nil => cases found
  | cons byte rest inductionHypothesis =>
    rw [cutText] at found
    split at found
    · rename_i here
      obtain ⟨rfl, rfl⟩ := Prod.mk.inj (Option.some.inj found)
      exact (List.prefix_iff_eq_append.mp here).symm
    · obtain ⟨⟨others, tail⟩, inner, same⟩ := Option.map_eq_some_iff.mp found
      obtain ⟨rfl, rfl⟩ := Prod.mk.inj same
      rw [List.cons_append, ← inductionHypothesis inner]

/-- A text that starts with the mark is cut there. -/
theorem cutText_here (letters : mark ≠ []) (behind : List UInt8) :
    cutText mark (mark ++ behind) = some ([], behind) := by
  obtain ⟨byte, rest, rfl⟩ := List.exists_cons_of_ne_nil letters
  have here : byte :: rest <+: byte :: (rest ++ behind) := List.prefix_append (byte :: rest) behind
  rw [List.cons_append, cutText, if_pos here, List.length_cons, List.drop_succ_cons,
    List.drop_left]

/-- The cut is at the first place when the text goes on. -/
theorem cutText_append (found : cutText mark text = some (front, behind)) (more : List UInt8) :
    cutText mark (text ++ more) = some (front, behind ++ more) := by
  induction text generalizing front with
  | nil => cases found
  | cons byte rest inductionHypothesis =>
    rw [List.cons_append, cutText]
    by_cases here : mark <+: byte :: rest
    · have stays : mark <+: byte :: (rest ++ more) :=
        here.trans (List.prefix_append (byte :: rest) more)
      rw [cutText, if_pos here] at found
      obtain ⟨rfl, rfl⟩ := Prod.mk.inj (Option.some.inj found)
      rw [if_pos stays, ← List.drop_append_of_le_length here.length_le]
      rfl
    · rw [cutText, if_neg here] at found
      obtain ⟨⟨others, tail⟩, inner, same⟩ := Option.map_eq_some_iff.mp found
      obtain ⟨rfl, rfl⟩ := Prod.mk.inj same
      have away : ¬mark <+: byte :: (rest ++ more) := by
        intro stands
        have room : mark.length ≤ (byte :: rest).length := by
          have size := congrArg List.length (cutText_parts inner)
          rw [List.length_append, List.length_append] at size
          rw [List.length_cons]
          omega
        exact here (List.prefix_of_prefix_length_le stands
          (List.prefix_append (byte :: rest) more) room)
      rw [if_neg away, inductionHypothesis inner]
      rfl

/-- A text without the mark, which ends with a byte that is not in it, comes in front of the
cut. -/
theorem cutText_behind (absent : cutText mark text = none)
    (ended : ∀ last ∈ text.getLast?, last ∉ mark) (more : List UInt8) :
    cutText mark (text ++ more) =
      (cutText mark more).map fun (front, behind) => (text ++ front, behind) := by
  induction text with
  | nil =>
    rw [List.nil_append]
    cases cutText mark more with
    | none => rfl
    | some cut => rfl
  | cons byte rest inductionHypothesis =>
    rw [cutText] at absent
    split at absent
    · cases absent
    · rename_i away
      have awayToo : ¬mark <+: byte :: (rest ++ more) := by
        intro stands
        obtain short | long := Nat.le_total mark.length (byte :: rest).length
        · exact away (List.prefix_of_prefix_length_le stands
            (List.prefix_append (byte :: rest) more) short)
        · have inside : byte :: rest <+: mark := List.prefix_of_prefix_length_le
            (List.prefix_append (byte :: rest) more) stands long
          have last := List.getLast?_eq_some_getLast (List.cons_ne_nil byte rest)
          exact ended _ last (inside.mem (List.getLast_mem _))
      have endedToo : ∀ last ∈ rest.getLast?, last ∉ mark := by
        intro last member
        apply ended last
        rw [List.getLast?_cons, member]
        rfl
      rw [List.cons_append, cutText, if_neg awayToo,
        inductionHypothesis (Option.map_eq_none_iff.mp absent) endedToo, Option.map_map]
      rfl

/-- A cut whose front lacks the last byte of a text is a cut in this text. -/
theorem cutText_inside {last : UInt8} {rest more : List UInt8} (other : last ∉ mark)
    (ended : text.getLast? = some last)
    (found : cutText mark (text ++ more) = some (front, rest)) (absent : last ∉ front) :
    ∃ behind, cutText mark text = some (front, behind) ∧ rest = behind ++ more := by
  cases inner : cutText mark text with
  | none =>
    have endedToo : ∀ final ∈ text.getLast?, final ∉ mark := by
      intro final member
      rw [ended] at member
      obtain rfl := Option.some.inj member
      exact other
    rw [cutText_behind inner endedToo] at found
    obtain ⟨⟨others, tail⟩, -, same⟩ := Option.map_eq_some_iff.mp found
    obtain ⟨rfl, -⟩ := Prod.mk.inj same
    exact absurd (List.mem_append_left others (List.mem_of_getLast? ended)) absent
  | some cut =>
    obtain ⟨others, behind⟩ := cut
    rw [cutText_append inner] at found
    obtain ⟨rfl, rfl⟩ := Prod.mk.inj (Option.some.inj found)
    exact ⟨behind, rfl, rfl⟩

/-- What is behind a cut ends as the text, when the last byte is not in the mark. -/
theorem cutText_getLast {last : UInt8} (letters : mark ≠ []) (other : last ∉ mark)
    (found : cutText mark text = some (front, behind)) (ended : text.getLast? = some last) :
    behind.getLast? = some last := by
  rw [cutText_parts found, List.getLast?_append, List.getLast?_append] at ended
  cases final : behind.getLast? with
  | none =>
    have inMark := List.getLast?_eq_some_getLast letters
    rw [final, inMark] at ended
    obtain rfl := Option.some.inj ended
    exact absurd (List.getLast_mem letters) other
  | some byte =>
    rw [final] at ended
    exact ended

/-- What is behind a cut is a shorter end of the text. -/
theorem cutText_suffix (letters : mark ≠ []) (found : cutText mark text = some (front, behind)) :
    behind <:+ text ∧ behind.length < text.length := by
  have positive := List.length_pos_iff.mpr letters
  rw [cutText_parts found, ← List.append_assoc]
  constructor
  · exact List.suffix_append _ behind
  · rw [List.length_append, List.length_append]
    omega

end

/-- A piece of a split text is without the mark; it stands at the front, or behind a mark. -/
theorem mem_splitOn {α : Type} [DecidableEq α] {mark : α} {text piece : List α}
    (member : piece ∈ text.splitOn mark) :
    mark ∉ piece ∧ (piece <+: text ∨ ∃ front, front ++ mark :: piece <+: text) := by
  induction length : text.length using Nat.strong_induction_on generalizing text with
  | _ size inductionHypothesis =>
  by_cases present : mark ∈ text
  · obtain ⟨front, behind, rfl, absent⟩ := List.eq_append_cons_of_mem present
    rw [List.splitOn_append_cons_self_of_not_mem absent, List.mem_cons] at member
    obtain rfl | later := member
    · constructor
      · exact absent
      · left
        exact List.prefix_append piece _
    · have shorter : behind.length < size := by
        rw [← length, List.length_append, List.length_cons]
        omega
      obtain ⟨without, place⟩ := inductionHypothesis _ shorter later rfl
      constructor
      · exact without
      · right
        obtain starts | ⟨inner, starts⟩ := place
        · refine ⟨front, ?_⟩
          rw [List.prefix_append_right_inj, List.cons_prefix_cons]
          exact ⟨rfl, starts⟩
        · refine ⟨front ++ mark :: inner, ?_⟩
          rw [List.append_assoc, List.prefix_append_right_inj, List.cons_append,
            List.cons_prefix_cons]
          exact ⟨rfl, starts⟩
  · rw [List.splitOn_eq_singleton present, List.mem_singleton] at member
    rw [member]
    exact ⟨present, .inl (List.prefix_refl text)⟩

end Foundation.TextCuts

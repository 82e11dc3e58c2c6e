import Mathlib.Data.List.TakeWhile

/-!
# The words of a text

Separators cut a text into words; several of them together count as one, and those at the
ends do not count. A text has no words when it is made of separators; otherwise its first
word stands behind the separators in front, and a separator or the end of the text is
behind it.
-/

namespace Foundation

variable {α : Type*}

/-- The parts between separators that are not empty. -/
def words (separator : α → Bool) (text : List α) : List (List α) :=
  (text.splitOnP separator).filter fun part => !part.isEmpty

section Words

variable {separator : α → Bool}

/-- A separator ends a word. -/
theorem words_append_cons {byte : α} (separates : separator byte) (text rest : List α) :
    words separator (text ++ byte :: rest) = words separator text ++ words separator rest := by
  rw [words, List.splitOnP_append_cons text rest separates, List.filter_append]
  rfl

/-- A text without separators is one word. -/
theorem words_plain {text : List α} (present : text ≠ [])
    (plain : ∀ byte ∈ text, separator byte = false) : words separator text = [text] := by
  rw [words, List.splitOnP_eq_singleton plain]
  obtain ⟨byte, rest, rfl⟩ := List.exists_cons_of_ne_nil present
  rfl

/-- The empty text has no words. -/
theorem words_nil : words separator [] = [] := by
  rw [words, List.splitOnP_nil]
  rfl

/-- Separators in front belong to no word. -/
theorem words_separators {front : List α} (separates : ∀ byte ∈ front, separator byte)
    (rest : List α) : words separator (front ++ rest) = words separator rest := by
  induction front with
  | nil => rfl
  | cons byte front inductionHypothesis =>
    have first := separates byte List.mem_cons_self
    have others := inductionHypothesis fun other member =>
      separates other (List.mem_cons_of_mem _ member)
    have empty := @words_append_cons α separator byte first [] (front ++ rest)
    rw [words_nil, List.nil_append, List.nil_append] at empty
    rw [List.cons_append, empty, others]

/-- The first word of a text that begins with it. -/
theorem words_cons {word rest : List α} (present : word ≠ [])
    (plain : ∀ byte ∈ word, separator byte = false)
    (ends : ∀ byte ∈ rest.head?, separator byte) :
    words separator (word ++ rest) = word :: words separator rest := by
  cases rest with
  | nil => rw [List.append_nil, words_plain present plain, words_nil]
  | cons byte rest =>
    have separates := ends byte rfl
    have empty := @words_append_cons α separator byte separates [] rest
    rw [words_nil, List.nil_append, List.nil_append] at empty
    rw [words_append_cons separates, words_plain present plain, empty]
    rfl

end Words

end Foundation

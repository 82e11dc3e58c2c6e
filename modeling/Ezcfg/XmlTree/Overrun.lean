import Ezcfg.Http.Truncation
import Ezcfg.XmlTree.Lengths

/-!
# Arrays that are longer than the buffer

The texts are printed one behind the other, and the room that is left becomes negative behind one
that was cut off. Only the end of the loop compares what has been printed with the buffer, and it
looks for one length only. The buffer is an area of its own: a write behind its end has no result.
-/

namespace Ezcfg.XmlTree

open Foundation

/-- A document with a predicted length is written inside the buffer, with a negative result when
the buffer is not larger than predicted. -/
def Respects (predicted : Option Int) (written : Option (Int × List UInt8)) (len : Nat) : Prop :=
  ∃ length n after, predicted = some length ∧ written = some (n, after) ∧ after.length = len ∧
    (len ≤ length → n < 0)

/-- Texts of a length are printed behind a position, or there is no room for them. -/
def Advances (printed : Option (List UInt8 × Nat × Int)) (size p : Nat) (l : Int) (total : Nat) :
    Prop :=
  (printed = none ∧ l < total) ∨
    ∃ after, printed = some (after, p + total, l - total) ∧ after.length = size

variable {xml : Xml}

/-- One text is printed, or there is less than no room. -/
theorem snprintf_advances {area : List UInt8} {p : Nat} {l : Int} {text : Text}
    (ends : p + l = area.length) (short : text.length < 2 ^ 31) :
    (Http.snprintf area p l text = none ∧ l < 0) ∨
      ∃ after, Http.snprintf area p l text = some ((text.length : Int), after) ∧
        after.length = area.length := by
  by_cases left : l < 0
  · exact .inl ⟨Http.snprintf_outside area p text left ends, left⟩
  · right
    obtain ⟨after, printed, same⟩ :=
      Http.snprintf_inside area p text (Int.not_lt.mp left) (Int.le_of_eq ends)
    rw [Http.printedLength, if_pos short] at printed
    exact ⟨after, printed, same⟩

/-- Texts one behind the other are printed, or there is no room for them. -/
theorem printAll_advances {area : List UInt8} {p : Nat} {l : Int} (pieces : List Text)
    (ends : p + l = area.length) (short : pieces.flatten.length < 2 ^ 31) :
    Advances (printAll area p l pieces) area.length p l pieces.flatten.length := by
  induction pieces generalizing area p l with
  | nil =>
    refine .inr ⟨area, ?_, rfl⟩
    rw [printAll, List.flatten_nil, List.length_nil, Nat.add_zero, Int.natCast_zero, Int.sub_zero]
  | cons piece rest inductionHypothesis =>
    rw [List.flatten_cons, List.length_append] at short ⊢
    rw [printAll]
    obtain ⟨fails, left⟩ | ⟨middle, printed, same⟩ := @snprintf_advances area p l piece ends (by omega)
    · rw [fails]
      exact .inl ⟨rfl, by omega⟩
    · have place : ((p : Int) + piece.length).toNat = p + piece.length := by omega
      rw [bind_of_some printed]
      dsimp only
      rw [bind_of_some (ensure_of (by omega)), place]
      have behind := @inductionHypothesis middle (p + piece.length) (l - piece.length)
        (by omega) (by omega)
      obtain ⟨fails, less⟩ | ⟨after, later, sameToo⟩ := behind
      · exact .inl ⟨fails, by omega⟩
      · refine .inr ⟨after, ?_, sameToo.trans same⟩
        have left : l - piece.length - rest.flatten.length =
            l - ((piece.length + rest.flatten.length : Nat) : Int) := by omega
        rw [later, Nat.add_assoc, left]

/-- The slots are printed, or there is no room for them. -/
theorem writeLoop_advances {area : List UInt8} {p : Nat} {l : Int} (turns i : Nat)
    (slots : ∀ j, i ≤ j → j < i + turns → ∃ pieces, slotPieces xml j = some pieces)
    (ends : p + l = area.length) (short : (textFrom xml turns i).length < 2 ^ 31) :
    (writeLoop xml turns i area p l = none ∧ l < (textFrom xml turns i).length) ∨
      ∃ after, writeLoop xml turns i area p l = some (after, p + (textFrom xml turns i).length) ∧
        after.length = area.length := by
  induction turns generalizing i area p l with
  | zero => exact .inr ⟨area, rfl, rfl⟩
  | succ turns inductionHypothesis =>
    obtain ⟨pieces, here⟩ := slots i (Nat.le_refl i) (by omega)
    have text : textFrom xml (turns + 1) i = pieces.flatten ++ textFrom xml turns (i + 1) := by
      rw [textFrom, here]
      rfl
    rw [text, List.length_append] at short ⊢
    rw [writeLoop, bind_of_some here]
    obtain ⟨fails, less⟩ | ⟨middle, printed, same⟩ :=
      @printAll_advances area p l pieces ends (by omega)
    · rw [fails]
      exact .inl ⟨rfl, by omega⟩
    · rw [bind_of_some printed]
      have behind := @inductionHypothesis middle (p + pieces.flatten.length)
        (l - pieces.flatten.length) (i + 1) (fun j low high => slots j (by omega) (by omega))
        (by omega) (by omega)
      obtain ⟨fails, less⟩ | ⟨after, later, sameToo⟩ := behind
      · exact .inl ⟨fails, by omega⟩
      · refine .inr ⟨after, ?_, sameToo.trans same⟩
        dsimp only
        rw [later, Nat.add_assoc]

/-- Numbers that have been added up are the sum. -/
theorem addAll_sum {parts : List Nat} {count : Nat} {total : Int} (small : count < 2 ^ 31)
    (added : Http.addAll count parts = some total) :
    total = ((count + parts.sum : Nat) : Int) ∧ count + parts.sum < 2 ^ 31 := by
  induction parts generalizing count with
  | nil =>
    obtain rfl := Option.some.inj added
    exact ⟨rfl, small⟩
  | cons n rest inductionHypothesis =>
    rw [Http.addAll] at added
    obtain ⟨next, sum, added⟩ := Option.bind_eq_some_iff.mp added
    rw [checkedInt] at sum
    split at sum
    · next range =>
      obtain rfl := Option.some.inj sum
      have later := @inductionHypothesis (count + n) (by omega)
        (by rw [Int.natCast_add]; exact added)
      rw [List.sum_cons, ← Nat.add_assoc]
      exact later
    · cases sum

/-- The numbers of slots that have been added up are the length of their texts. -/
theorem lengthLoop_text (turns i : Nat) {count : Nat} {total : Int} (small : count < 2 ^ 31)
    (added : lengthLoop xml turns i count = some total) :
    (∀ j, i ≤ j → j < i + turns → ∃ pieces, slotPieces xml j = some pieces) ∧
      total = ((count + (textFrom xml turns i).length : Nat) : Int) ∧
      count + (textFrom xml turns i).length < 2 ^ 31 := by
  induction turns generalizing i count with
  | zero =>
    obtain rfl := Option.some.inj added
    refine ⟨?_, rfl, small⟩
    intro j low high
    omega
  | succ turns inductionHypothesis =>
    rw [lengthLoop] at added
    obtain ⟨parts, known, added⟩ := Option.bind_eq_some_iff.mp added
    obtain ⟨next, sum, added⟩ := Option.bind_eq_some_iff.mp added
    obtain ⟨rfl, stillSmall⟩ := addAll_sum small sum
    have lengths := slotParts_sum xml i
    rw [known, Option.map_some] at lengths
    obtain ⟨pieces, here, length⟩ := Option.map_eq_some_iff.mp lengths.symm
    obtain ⟨slots, rfl, bounded⟩ := inductionHypothesis (i + 1) stillSmall added
    have text : textFrom xml (turns + 1) i = pieces.flatten ++ textFrom xml turns (i + 1) := by
      rw [textFrom, here]
      rfl
    rw [text, List.length_append, length]
    refine ⟨?_, ?_, by omega⟩
    · intro j low high
      by_cases first : j = i
      · exact ⟨pieces, first ▸ here⟩
      · exact slots j (by omega) (by omega)
    · rw [Nat.add_assoc]

/-- An array whose length is predicted has a text of this length. -/
theorem messageLength_text {length : Int} (predicted : messageLength xml = some length) :
    (∀ j, 0 ≤ j → j < 0 + xml.numElements → ∃ pieces, slotPieces xml j = some pieces) ∧
      length = (messageText xml).length ∧ (messageText xml).length < 2 ^ 31 := by
  obtain ⟨slots, same, bounded⟩ := @lengthLoop_text xml _ 0 0 _ (by decide) predicted
  rw [Nat.zero_add] at same bounded
  exact ⟨slots, same, bounded⟩

/-- An array is written into a buffer, or there is no room for it; only an array of the length of
the buffer is refused. -/
theorem writeMessage_advances {length : Int} (predicted : messageLength xml = some length)
    {area : List UInt8} (nonempty : area ≠ []) :
    (writeMessage xml area area.length = none ∧ area.length < length) ∨
      ∃ after, writeMessage xml area area.length =
          some (if length = area.length then -1 else length, after) ∧
        after.length = area.length := by
  obtain ⟨slots, rfl, short⟩ := messageLength_text predicted
  have positive := List.length_pos_iff.mpr nonempty
  obtain ⟨cleared, write, same⟩ := @Http.write_inside area [0] 0 (by
    rw [List.length_singleton]
    omega)
  rw [writeMessage, bind_of_some (ensure_of (Int.natCast_pos.mpr positive)), bind_of_some write]
  have loop := @writeLoop_advances xml cleared 0 area.length xml.numElements 0 slots
    (by omega) short
  rw [Nat.zero_add] at loop
  obtain ⟨fails, less⟩ | ⟨after, written, sameToo⟩ := loop
  · rw [fails]
    exact .inl ⟨rfl, less⟩
  · refine .inr ⟨after, ?_, sameToo.trans same⟩
    rw [bind_of_some written]
    dsimp only
    rw [messageText]
    split
    · rfl
    · rfl

/-- An array is written as it should be exactly when it is predicted not to be longer than the
buffer. -/
theorem xmlRespects_iff (xml : Xml) {area : List UInt8} (nonempty : area ≠ []) :
    Respects (messageLength xml) (writeMessage xml area area.length) area.length ↔
      ∃ length, messageLength xml = some length ∧ length ≤ area.length := by
  constructor
  · rintro ⟨length, n, after, predicted, written, -, negative⟩
    refine ⟨length, predicted, ?_⟩
    by_contra longer
    have low : 0 ≤ length := by
      obtain ⟨-, rfl, -⟩ := messageLength_text predicted
      exact Int.natCast_nonneg _
    obtain ⟨fails, -⟩ | ⟨other, writes, -⟩ := writeMessage_advances predicted nonempty
    · cases fails.symm.trans written
    · rw [if_neg (by omega)] at writes
      cases writes.symm.trans written
      have below := negative (by omega)
      omega
  · rintro ⟨length, predicted, fits⟩
    obtain ⟨-, less⟩ | ⟨after, writes, same⟩ := writeMessage_advances predicted nonempty
    · omega
    · refine ⟨length, _, after, predicted, writes, same, ?_⟩
      intro full
      rw [if_pos (Int.le_antisymm fits full)]
      decide

end Ezcfg.XmlTree

import Ezcfg.Html.Document
import Ezcfg.XmlTree.Overrun

/-!
# Writing an HTML document

In front of the array stands the document type. It is printed without a look at how much of it was
written, and the array is written behind what is there.
-/

namespace Ezcfg.Html

open Foundation XmlTree

/-- A number with at least two digits. -/
def twoDigits (n : Nat) : Text :=
  List.replicate (2 - (Decimal.decimal n).length) 0x30 ++ Decimal.decimal n

/-- The line with the document type. -/
def docType (html : Document) : Text :=
  Http.ascii "<!DOCTYPE HTML PUBLIC \"-//W3C//DTD HTML " ++
    Decimal.decimal html.versionMajor.toNat ++ Http.ascii "." ++
    twoDigits html.versionMinor.toNat ++
    Http.ascii "//EN\" \"http://www.w3.org/TR/html4/strict.dtd\">\n"

/-- The size of the buffer in which the line is measured. -/
def docTypeBufSize : Nat := 256

/-- `ezcfg_html_get_message_length` -/
def htmlGetMessageLength (html : Document) : Option Int := do
  let buf := (docType html).take (docTypeBufSize - 1)
  let ret ← messageLength html.xml
  if ret < 0 then return ret
  checkedInt (ret + buf.length)

/-- `ezcfg_html_write_message`: the result, and the buffer. -/
def htmlWriteMessage (html : Document) (area : List UInt8) (len : Int) :
    Option (Int × List UInt8) := do
  ensure (0 < len)
  let (_, area) ← Http.snprintf area 0 len (docType html)
  let shown ← ByteArea.stringAt area 0
  let dtdLen := shown.length
  let (ret, rest) ← writeMessage html.xml (area.drop dtdLen) (len - dtdLen)
  let area := area.take dtdLen ++ rest
  if ret < 0 then return (ret, area)
  return (ret + dtdLen, area)

/-- The document is not longer than the buffer, and the buffer is longer than its first line. In
another buffer only an array of one byte is refused. -/
def DocumentFits (html : Document) (len : Nat) : Prop :=
  ∃ length, htmlGetMessageLength html = some length ∧
    if (docType html).length < len then length ≤ len else length = (docType html).length + 1

variable {html : Document}

/-- The line is a string, and shorter than the buffer in which it is measured. -/
theorem docType_short (html : Document) :
    (0 : UInt8) ∉ docType html ∧ (docType html).length < docTypeBufSize := by
  have digits : ∀ n : UInt16, (0 : UInt8) ∉ Decimal.decimal n.toNat ∧
      (Decimal.decimal n.toNat).length ≤ 5 := by
    intro n
    constructor
    · intro member
      have digit := Decimal.decimal_isDigit _ _ member
      cases digit
    · have bounded := n.toNat_lt
      exact Decimal.decimal_length_le (by omega)
  obtain ⟨major, majorShort⟩ := digits html.versionMajor
  obtain ⟨minor, minorShort⟩ := digits html.versionMinor
  have front : (0 : UInt8) ∉ Http.ascii "<!DOCTYPE HTML PUBLIC \"-//W3C//DTD HTML " ∧
      (Http.ascii "<!DOCTYPE HTML PUBLIC \"-//W3C//DTD HTML ").length = 40 := by decide
  have dot : (0 : UInt8) ∉ Http.ascii "." ∧ (Http.ascii ".").length = 1 := by decide
  have back : (0 : UInt8) ∉ Http.ascii "//EN\" \"http://www.w3.org/TR/html4/strict.dtd\">\n" ∧
      (Http.ascii "//EN\" \"http://www.w3.org/TR/html4/strict.dtd\">\n").length = 47 := by decide
  constructor
  · simp only [docType, twoDigits, List.mem_append, not_or]
    refine ⟨⟨⟨⟨front.1, major⟩, dot.1⟩, ?_, minor⟩, back.1⟩
    intro member
    cases (List.mem_replicate.mp member).2
  · have size : docTypeBufSize = 256 := rfl
    simp only [docType, twoDigits, List.length_append, List.length_replicate, front.2, dot.2,
      back.2]
    omega

/-- A document whose length is predicted has an array of which the length is predicted. -/
theorem predicted_parts {total : Int} (predicted : htmlGetMessageLength html = some total) :
    ∃ length : Nat, messageLength html.xml = some (length : Int) ∧
      total = ((length + (docType html).length : Nat) : Int) := by
  obtain ⟨-, short⟩ := docType_short html
  have whole : (docType html).take (docTypeBufSize - 1) = docType html :=
    List.take_of_length_le (Nat.le_sub_one_of_lt short)
  rw [htmlGetMessageLength] at predicted
  obtain ⟨length, known, predicted⟩ := Option.bind_eq_some_iff.mp predicted
  obtain ⟨-, rfl, -⟩ := messageLength_text known
  rw [if_neg (by omega), whole, checkedInt] at predicted
  split at predicted
  · obtain rfl := Option.some.inj predicted
    exact ⟨_, known, rfl⟩
  · cases predicted

/-- Behind the part of the line that fits the array is written, or there is no room for it. -/
theorem htmlWriteMessage_advances {length : Nat}
    (predicted : messageLength html.xml = some (length : Int)) {area : List UInt8} {dtdLen : Nat}
    (shown : dtdLen = min (area.length - 1) (docType html).length) (nonempty : area ≠ []) :
    (htmlWriteMessage html area area.length = none ∧ area.length < dtdLen + length) ∨
      ∃ after, htmlWriteMessage html area area.length =
          some (if dtdLen + length = area.length then -1 else ((length + dtdLen : Nat) : Int),
            after) ∧
        after.length = area.length := by
  have positive := List.length_pos_iff.mpr nonempty
  obtain ⟨nonul, -⟩ := docType_short html
  obtain ⟨line, printed, same, front⟩ := Http.snprintf_front (docType html)
    (Int.natCast_pos.mpr positive) (Int.le_refl _)
  rw [Int.toNat_natCast] at front
  have read := ByteArea.stringAt_front (fun member => nonul (List.mem_of_mem_take member)) front
  have taken : ((docType html).take (area.length - 1)).length = dtdLen := by
    rw [List.length_take, shown]
  have room : ((line.drop dtdLen).length : Int) = area.length - dtdLen := by
    rw [List.length_drop]
    omega
  have rest : line.drop dtdLen ≠ [] := by
    rw [← List.length_pos_iff]
    omega
  rw [htmlWriteMessage, bind_of_some (ensure_of (Int.natCast_pos.mpr positive)),
    bind_of_some printed]
  dsimp only
  rw [bind_of_some read, taken, ← room]
  obtain ⟨fails, less⟩ | ⟨after, written, sameToo⟩ := writeMessage_advances predicted rest
  · rw [fails]
    exact .inl ⟨rfl, by omega⟩
  · rw [bind_of_some written]
    have count : (line.take dtdLen ++ after).length = area.length := by
      rw [List.length_append, List.length_take, sameToo]
      omega
    refine .inr ⟨line.take dtdLen ++ after, ?_, count⟩
    dsimp only
    by_cases full : dtdLen + length = area.length
    · have exact : (length : Int) = (line.drop dtdLen).length := by omega
      rw [if_pos full, if_pos exact, if_pos (by decide)]
      rfl
    · have other : ¬ (length : Int) = (line.drop dtdLen).length := by omega
      rw [if_neg full, if_neg other, if_neg (by omega)]
      rfl

/-- A document is written as it should be exactly when it fits. -/
theorem htmlRespects_iff (html : Document) {area : List UInt8} (nonempty : area ≠ []) :
    Respects (htmlGetMessageLength html) (htmlWriteMessage html area area.length) area.length ↔
      DocumentFits html area.length := by
  have positive := List.length_pos_iff.mpr nonempty
  constructor
  · rintro ⟨total, n, after, predicted, written, -, negative⟩
    obtain ⟨length, known, rfl⟩ := predicted_parts predicted
    refine ⟨_, predicted, ?_⟩
    obtain ⟨fails, -⟩ | ⟨other, writes, -⟩ := htmlWriteMessage_advances known rfl nonempty
    · cases fails.symm.trans written
    · rw [writes] at written
      obtain ⟨rfl, rfl⟩ := Prod.mk.inj (Option.some.inj written)
      split at negative
      · split
        · omega
        · omega
      · split
        · by_contra longer
          have below := negative (by omega)
          omega
        · have below := negative (by omega)
          omega
  · rintro ⟨total, predicted, fits⟩
    obtain ⟨length, known, rfl⟩ := predicted_parts predicted
    obtain ⟨-, less⟩ | ⟨after, writes, same⟩ := htmlWriteMessage_advances known rfl nonempty
    · split at fits
      · omega
      · omega
    · refine ⟨_, _, after, predicted, writes, same, ?_⟩
      intro full
      split
      · decide
      · split at fits
        · omega
        · omega

end Ezcfg.Html

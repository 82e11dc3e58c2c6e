import Ezcfg.Css.Rules
import Ezcfg.Html.Writing

/-!
# The writers of pages

Arrays, HTML documents and style sheets are written by functions of the same form: what is printed
is taken for what was written. Each of them respects a buffer that is large enough, and hardly any
other one.
-/

namespace Ezcfg.Html

open XmlTree Css

/-- An array respects a buffer exactly when it is not predicted to be longer, a document exactly
when it fits, and a style sheet exactly when it is predicted to be shorter. -/
theorem pageWriters_respect_iff (area : List UInt8) (nonempty : area ≠ []) :
    (∀ xml : Xml,
      Respects (messageLength xml) (writeMessage xml area area.length) area.length ↔
        ∃ length, messageLength xml = some length ∧ length ≤ area.length) ∧
    (∀ html : Document,
      Respects (htmlGetMessageLength html) (htmlWriteMessage html area area.length) area.length ↔
        DocumentFits html area.length) ∧
    ∀ rules : List CssRule,
      Respects (cssGetMessageLength rules) (cssWriteMessage rules area area.length) area.length ↔
        ∃ length, cssGetMessageLength rules = some length ∧ length < area.length := by
  refine ⟨?_, ?_, ?_⟩
  · exact fun xml => xmlRespects_iff xml nonempty
  · exact fun html => htmlRespects_iff html nonempty
  · exact fun rules => cssRespects_iff rules nonempty

/-- In a buffer of five bytes `<a/>` is refused, as it should be. -/
theorem pageWriters_respect_iff_single :
    Respects (messageLength single) (writeMessage single [0, 0, 0, 0, 0] 5) 5 :=
  ((pageWriters_respect_iff [0, 0, 0, 0, 0] (List.cons_ne_nil _ _)).1 single).mpr
    ⟨5, by decide +kernel, by decide⟩

/-- In a buffer of one byte the writer of `<a/>` leaves the buffer. -/
theorem not_pageWriters_respect : ¬ ∀ (xml : Xml) (area : List UInt8), Built xml → area ≠ [] →
    Respects (messageLength xml) (writeMessage xml area area.length) area.length := by
  intro respects
  obtain ⟨length, n, after, -, written, -⟩ :=
    respects single [0] single_built (List.cons_ne_nil _ _)
  have leaves : writeMessage single [0] 1 = none := by decide +kernel
  cases leaves.symm.trans written

end Ezcfg.Html

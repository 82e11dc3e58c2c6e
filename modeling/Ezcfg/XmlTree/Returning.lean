import Ezcfg.XmlTree.Termination

/-!
# Which documents the parser returns for

A parser with more turns for its loops makes the same calls and perhaps others, and it has the same
result, where it has one. So the parser returns for a document exactly when, with any number of
turns, each call of a scanner that it makes meets its condition.
-/

namespace Ezcfg.XmlTree

open Foundation

variable {turns more : Nat} {cur : Cursor} {state : State} {pi si : Int}

/-- More turns of the loop over what stands around the element give the same. -/
theorem miscLoop_kept (le : turns ≤ more) : Logged.Kept (miscLoop turns cur) (miscLoop more cur) := by
  induction turns generalizing cur more with
  | zero => exact Logged.kept_none _
  | succ turns inductionHypothesis =>
    obtain ⟨more, rfl⟩ : ∃ later, more = later + 1 := ⟨more - 1, by omega⟩
    rw [miscLoop, miscLoop]
    apply Logged.Kept.bind (Logged.kept_refl _)
    intro answer
    split
    · apply Logged.Kept.bind (Logged.kept_refl _)
      intro found
      cases found with
      | none => exact Logged.kept_refl _
      | some after => exact inductionHypothesis (Nat.le_of_succ_le_succ le)
    · exact Logged.kept_refl _

/-- More turns for the digits give the same. -/
theorem versionDigits_kept {p : List UInt8} {minor : Nat} (le : turns ≤ more) :
    Logged.Kept (versionDigits turns p minor) (versionDigits more p minor) := by
  induction turns generalizing minor more with
  | zero => exact Logged.kept_none _
  | succ turns inductionHypothesis =>
    obtain ⟨more, rfl⟩ : ∃ later, more = later + 1 := ⟨more - 1, by omega⟩
    rw [versionDigits, versionDigits]
    apply Logged.Kept.bind (Logged.kept_refl _)
    intro c
    split
    · exact inductionHypothesis (Nat.le_of_succ_le_succ le)
    · exact Logged.kept_refl _

/-- Reading a value that is kept. -/
theorem parseInfo_kept {keyword : List UInt8}
    {value valueToo : Prolog → List UInt8 → Option (Prolog × List UInt8)}
    (kept : ∀ prolog p, Logged.Kept (value prolog p) (valueToo prolog p)) (prolog : Prolog)
    (p : List UInt8) :
    Logged.Kept (parseInfo keyword value prolog p) (parseInfo keyword valueToo prolog p) := by
  rw [parseInfo, parseInfo]
  apply Logged.Kept.bind (Logged.kept_refl _)
  intro answer
  split
  · apply Logged.Kept.bind (Logged.kept_refl _)
    intro q
    apply Logged.Kept.bind (Logged.kept_refl _)
    intro behind
    apply Logged.Kept.bind (Logged.kept_refl _)
    intro c
    split
    · apply Logged.Kept.bind (Logged.kept_refl _)
      intro start
      apply Logged.Kept.bind (Logged.kept_refl _)
      intro first
      apply (kept prolog first).bind
      intro found
      exact Logged.kept_refl _
    · exact Logged.kept_refl _
  · exact Logged.kept_refl _

/-- More turns for the version give the same. -/
theorem versionInfo_kept (le : turns ≤ more) (prolog : Prolog) (p : List UInt8) :
    Logged.Kept (versionInfo turns prolog p) (versionInfo more prolog p) := by
  rw [versionInfo, versionInfo]
  apply Logged.Kept.bind (Logged.kept_refl _)
  intro answer
  split
  · apply Logged.Kept.bind (Logged.kept_refl _)
    intro q
    apply (versionDigits_kept le).bind
    intro minor
    exact Logged.kept_refl _
  · exact Logged.kept_refl _

/-- More turns for the declaration give the same. -/
theorem parseXmlPrologXmldecl_kept (le : turns ≤ more) (prolog : Prolog) :
    Logged.Kept (parseXmlPrologXmldecl turns prolog cur)
      (parseXmlPrologXmldecl more prolog cur) := by
  rw [parseXmlPrologXmldecl, parseXmlPrologXmldecl]
  apply Logged.Kept.bind (Logged.kept_refl _)
  intro behind
  apply Logged.Kept.bind (Logged.kept_refl _)
  intro p
  apply (parseInfo_kept (versionInfo_kept le) prolog p).bind
  intro found
  exact Logged.kept_refl _

/-- More turns for the attributes give the same. -/
theorem attributeLoop_kept (skips : Bool) {stop p : List UInt8} {elem : Element}
    (le : turns ≤ more) :
    Logged.Kept (attributeLoop skips turns stop elem p) (attributeLoop skips more stop elem p) := by
  induction turns generalizing elem p more with
  | zero => exact Logged.kept_none _
  | succ turns inductionHypothesis =>
    obtain ⟨more, rfl⟩ : ∃ later, more = later + 1 := ⟨more - 1, by omega⟩
    have goesOn := fun elem p => @inductionHypothesis more p elem (Nat.le_of_succ_le_succ le)
    rw [attributeLoop, attributeLoop]
    split
    · apply Logged.Kept.bind (Logged.kept_refl _)
      intro q
      apply Logged.Kept.bind (Logged.kept_refl _)
      intro c
      split
      · apply Logged.Kept.bind (Logged.kept_refl _)
        intro found
        cases found with
        | none => exact Logged.kept_refl _
        | some after => exact goesOn after.1 after.2
      · split
        · exact goesOn elem q
        · exact Logged.kept_refl _
    · exact Logged.kept_refl _

/-- More turns for a tag give the same. -/
theorem parseTag_kept (skips : Bool) (final : List UInt8) (le : turns ≤ more) :
    Logged.Kept (parseTag (attributeLoop skips turns) final state pi si)
      (parseTag (attributeLoop skips more) final state pi si) := by
  rw [parseTag, parseTag]
  apply Logged.Kept.bind (Logged.kept_refl _)
  intro name
  apply Logged.Kept.bind (Logged.kept_refl _)
  intro found
  cases found with
  | none => exact Logged.kept_refl _
  | some stop =>
    apply Logged.Kept.bind (Logged.kept_refl _)
    intro first
    apply Logged.Kept.bind (Logged.kept_refl _)
    intro p
    apply (attributeLoop_kept skips le).bind
    intro read
    exact Logged.kept_refl _

/-- A program that does not look at the turns. -/
theorem below_same {α β : Type} {first : Logged Call α} {next nextToo : α → Logged Call β}
    (later : ∀ a, Logged.Below (next a) (nextToo a)) :
    Logged.Below (first >>= next) (first >>= nextToo) :=
  (Logged.Below.refl first).bind later

section Content

variable {parseElement parseElementToo : State → Int → Int → Logged Call (Int × State)}
  (below : ∀ state pi si, Logged.Below (parseElement state pi si) (parseElementToo state pi si))
include below

/-- A part of the content is read as far. -/
theorem parsePart_below (parent : Nat) (ci : Int) :
    Logged.Below (parsePart parseElement state parent ci)
      (parsePart parseElementToo state parent ci) := by
  rw [parsePart, parsePart]
  apply below_same
  intro isElement
  split
  · apply (below state parent ci).bind
    intro found
    exact .refl _
  · exact .refl _

/-- The content is read as far, or further. -/
theorem contentLoop_below (parent : Nat) {ci : Int} (le : turns ≤ more) :
    Logged.Below (contentLoop parseElement turns state parent ci)
      (contentLoop parseElementToo more state parent ci) := by
  induction turns generalizing state ci more with
  | zero => exact Logged.below_of_stuck _
  | succ turns inductionHypothesis =>
    obtain ⟨more, rfl⟩ : ∃ later, more = later + 1 := ⟨more - 1, by omega⟩
    rw [contentLoop, contentLoop]
    apply below_same
    intro isMarkup
    split
    · apply (parsePart_below below parent ci).bind
      rintro ⟨index, after⟩
      cases index with
      | none => exact .refl _
      | some last =>
        apply below_same
        intro found
        exact inductionHypothesis (Nat.le_of_succ_le_succ le)
    · exact .refl _

/-- The content of an element is read as far, or further. -/
theorem parseElementContent_below (parent : Nat) (ci : Int) (le : turns ≤ more) :
    Logged.Below (parseElementContent parseElement turns state parent ci)
      (parseElementContent parseElementToo more state parent ci) := by
  rw [parseElementContent, parseElementContent]
  apply below_same
  rintro ⟨done, after⟩
  dsimp only
  split
  · exact contentLoop_below below parent le
  · exact .refl _

/-- An element with content is read as far, or further. -/
theorem parseElementStagContentEtag_below (le : turns ≤ more) :
    Logged.Below (parseElementStagContentEtag parseElement turns state pi si)
      (parseElementStagContentEtag parseElementToo more state pi si) := by
  rw [parseElementStagContentEtag, parseElementStagContentEtag]
  apply (Logged.below_call _ (parseTag_kept false [greater] le)).bind
  rintro ⟨stag, after⟩
  dsimp only
  split
  · exact .refl _
  · apply (parseElementContent_below below stag.toNat (-1) le).bind
    rintro ⟨content, later⟩
    exact .refl _

end Content

/-- An element is read as far, or further. -/
theorem parseXmlDocumentElement_below (le : turns ≤ more) :
    Logged.Below (parseXmlDocumentElement turns state pi si)
      (parseXmlDocumentElement more state pi si) := by
  induction turns generalizing state pi si more with
  | zero => exact Logged.below_of_stuck _
  | succ turns inductionHypothesis =>
    obtain ⟨more, rfl⟩ : ∃ later, more = later + 1 := ⟨more - 1, by omega⟩
    have leToo := Nat.le_of_succ_le_succ le
    rw [parseXmlDocumentElement, parseXmlDocumentElement]
    apply below_same
    intro asserted
    apply below_same
    intro isTag
    split
    · apply below_same
      intro isEmpty
      split
      · exact Logged.below_call _ (parseTag_kept true [slash, greater] leToo)
      · exact parseElementStagContentEtag_below (fun _ _ _ => inductionHypothesis leToo) leToo
    · exact .refl _

/-- The prolog is read as far, or further. -/
theorem parseXmlDocumentProlog_below (le : turns ≤ more) (prolog : Prolog) :
    Logged.Below (parseXmlDocumentProlog turns prolog cur)
      (parseXmlDocumentProlog more prolog cur) := by
  have declaration : Logged.Below (declarationOr turns prolog cur)
      (declarationOr more prolog cur) := by
    rw [declarationOr, declarationOr]
    apply below_same
    intro isDeclaration
    split
    · exact Logged.below_call _ (parseXmlPrologXmldecl_kept le prolog)
    · exact .refl _
  have doctype : ∀ cur, Logged.Kept (doctypeOr turns cur) (doctypeOr more cur) := by
    intro cur
    rw [doctypeOr, doctypeOr]
    apply Logged.Kept.bind (Logged.kept_refl _)
    intro isDoctype
    split
    · apply Logged.Kept.bind (Logged.kept_refl _)
      intro found
      cases found with
      | none => exact Logged.kept_refl _
      | some after => exact miscLoop_kept le
    · exact Logged.kept_refl _
  rw [parseXmlDocumentProlog, parseXmlDocumentProlog]
  apply below_same
  intro asserted
  apply declaration.bind
  rintro ⟨info, declared⟩
  cases declared with
  | none => exact .refl _
  | some after =>
    apply (Logged.below_lift (miscLoop_kept le)).bind
    intro found
    cases found with
    | none => exact .refl _
    | some later =>
      apply (Logged.below_lift (doctype later)).bind
      intro last
      exact .refl _

/-- A document is read as far, or further. -/
theorem xmlParse_below (le : turns ≤ more) (xml : Xml) (prolog : Prolog) (text behind : List UInt8)
    (len : Int) : Logged.Below (xmlParse turns xml prolog text behind len)
      (xmlParse more xml prolog text behind len) := by
  rw [xmlParse, xmlParse]
  apply below_same
  intro asserted
  apply below_same
  rintro ⟨cleared, deleted⟩
  dsimp only
  split
  · exact .refl _
  · apply (parseXmlDocumentProlog_below le prolog).bind
    rintro ⟨info, found⟩
    cases found with
    | none => exact .refl _
    | some cur =>
      apply (parseXmlDocumentElement_below le).bind
      rintro ⟨ei, state⟩
      dsimp only
      split
      · exact .refl _
      · apply (Logged.below_lift (miscLoop_kept le)).bind
        intro misc
        exact .refl _

/-- No terminator comes into a document. -/
theorem normalizeDocument_nonul {text : List UInt8} (nonul : (0 : UInt8) ∉ text) :
    (0 : UInt8) ∉ normalizeDocument text := by
  have notNewLine : (0 : UInt8) ≠ newLine := by decide
  induction text using normalizeDocument.induct with
  | case1 => exact List.not_mem_nil
  | case2 => decide
  | case3 c other =>
    rw [normalizeDocument, if_neg other]
    exact nonul
  | case4 rest inductionHypothesis =>
    rw [List.mem_cons, List.mem_cons, not_or, not_or] at nonul
    rw [normalizeDocument, if_pos rfl, if_pos rfl, List.mem_cons, not_or]
    exact ⟨notNewLine, inductionHypothesis nonul.2.2⟩
  | case5 next rest other inductionHypothesis =>
    rw [List.mem_cons, not_or] at nonul
    rw [normalizeDocument, if_pos rfl, if_neg other, List.mem_cons, not_or]
    exact ⟨notNewLine, inductionHypothesis nonul.2⟩
  | case6 c next rest other inductionHypothesis =>
    rw [List.mem_cons, not_or] at nonul
    rw [normalizeDocument, if_neg other, List.mem_cons, not_or]
    exact ⟨nonul.1, inductionHypothesis nonul.2⟩

/-- With enough turns the parser is sound for a document: it returns exactly when all calls of its
scanners meet their conditions. -/
theorem xmlParse_sound {xml : Xml} (tree : HoldsTree xml) (prolog : Prolog) {text : List UInt8}
    {len : Int} (nonul : (0 : UInt8) ∉ text) (positive : 0 < len)
    (enough : (normalizeDocument text).length + 1 ≤ turns) :
    Logged.Sound Call.Meets (xmlParse turns xml prolog text [] len) := by
  obtain ⟨turns, rfl⟩ : ∃ fewer, turns = fewer + 1 := ⟨turns - 1, by omega⟩
  obtain ⟨forest, tree⟩ := tree
  obtain ⟨cleared, deleted, treeCleared⟩ := tree.deleteElements
  have holds : HoldsTree cleared := ⟨_, treeCleared⟩
  have valid : ValidCall cleared (-1) (-1) := .first treeCleared.holds.count
  have nonulToo := normalizeDocument_nonul nonul
  rw [xmlParse, Logged.lift_bind _ (ensure_of positive), Logged.lift_bind _ deleted]
  dsimp only
  generalize normalizeDocument text = buf at *
  rw [List.append_nil]
  split
  · exact Logged.sound_lift rfl
  have ended := nulEnded_terminated nonulToo
  have size := length_terminated buf
  have exact : (buf.length : Int) + 1 ≤ (terminated buf).length := by omega
  have left : (0 : Int) < buf.length := by omega
  have gives := @parseXmlDocumentProlog_gives ⟨terminated buf, buf.length⟩ turns prolog ended
    exact left (by dsimp only; omega)
  apply gives.sound.bind
  rintro ⟨info, found⟩ done
  cases found with
  | none => exact Logged.sound_lift rfl
  | some cur =>
    have onward := gives.post _ done cur rfl
    have le := onward.le
    have reads := parseXmlDocumentElement_reads (turns + 1) ⟨cleared, cur⟩ (-1) (-1) holds valid
      (onward.ended ended) (by dsimp only at le ⊢; omega)
    apply reads.sound.bind
    rintro ⟨ei, state⟩ element
    dsimp only
    split
    · exact Logged.sound_lift rfl
    · rename_i accepted
      have ahead := (reads.post _ element).resolve_left accepted
      have less := ahead.less
      obtain ⟨last, misc, -⟩ := @miscLoop_returns state.cur (turns + 1) ahead.ended
        (by dsimp only at le less; omega)
      rw [Logged.lift_bind _ misc]
      exact Logged.sound_lift rfl

/-- "<a></a>" -/
def shortDocument : CString :=
  ⟨[0x3c, 0x61, 0x3e, 0x3c, 0x2f, 0x61, 0x3e], by decide, by decide⟩

/-- Where the version in the declaration of a document is "1." and a digit, the parser does not
return. -/
theorem xmlParse_counts (xml : Xml) (prolog : Prolog) {text : List UInt8} (len : Int)
    (declares : isXmlDeclaration (terminated (normalizeDocument text)) = some true)
    (counts : CountsVersion (normalizeDocument text)) (turns : Nat) :
    (xmlParse turns xml prolog text [] len).result = none := by
  rw [Option.eq_none_iff_forall_ne_some]
  intro after parsed
  rw [xmlParse] at parsed
  obtain ⟨_, -, parsed⟩ := Logged.result_bind parsed
  obtain ⟨cleared, -, parsed⟩ := Logged.result_bind parsed
  dsimp only at parsed
  rw [List.append_nil] at parsed
  split at parsed
  · rename_i empty
    obtain ⟨_, _, _, _, _, -, -, -, -, cut⟩ := counts
    rw [cut] at empty
    simp [xmlDeclStart] at empty
  · obtain ⟨info, read, -⟩ := Logged.result_bind parsed
    rw [parseXmlDocumentProlog] at read
    obtain ⟨_, -, read⟩ := Logged.result_bind read
    obtain ⟨declared, scanned, -⟩ := Logged.result_bind read
    rw [declarationOr, Logged.lift_bind _ declares, if_pos rfl] at scanned
    have none := @parseXmlPrologXmldecl_counts
      ⟨terminated (normalizeDocument text), (normalizeDocument text).length⟩ turns prolog _ rfl
      counts
    rw [none] at scanned
    cases scanned

/-- "<?xml version=1.0?>" -/
def countingDocument : CString :=
  ⟨[0x3c, 0x3f, 0x78, 0x6d, 0x6c, 0x20, 0x76, 0x65, 0x72, 0x73, 0x69, 0x6f, 0x6e, 0x3d, 0x31, 0x2e,
    0x30, 0x3f, 0x3e], by decide, by decide⟩

end Ezcfg.XmlTree

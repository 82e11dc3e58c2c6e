import Ezcfg.XmlTree.TagEnds

/-!
# Reading the other parts of a document

Comments, processing instructions, sections and references are skipped up to their ends, and each
time the pointer is moved on. The declaration of the document is read to its end unless a digit
is behind the "1." of its version: the loop over the digits does not move. Character data is read
up to markup; where none follows, it is read behind the terminator.
-/

namespace Ezcfg.XmlTree

open Foundation

variable {cur next : Cursor} {p q : List UInt8} {prolog : Prolog}

/-- Skipping white space. -/
theorem skipWhiteSpace_skips (ended : NulEnded p) :
    ∃ spaces q, p = spaces ++ q ∧ (∀ c ∈ spaces, isWhiteSpace c = true) ∧
      (∀ c ∈ q.head?, isWhiteSpace c = false) ∧ skipWhiteSpace p = some q ∧ NulEnded q := by
  obtain ⟨spaces, byte, rest, cut, blank, notBlank, skipped, later⟩ :=
    ended.scan isWhiteSpace (by decide)
  refine ⟨spaces, byte :: rest, cut, blank, ?_, skipped, later⟩
  rintro c ⟨⟩
  exact notBlank

/-- Skipping up to an end finds it, and moves the pointer on, or there is none. -/
theorem skipBehind_cases {bytes : Nat} (final : List UInt8) (skips : Skips bytes p)
    (nonul : (0 : UInt8) ∉ final) (letters : final ≠ []) :
    ∃ found, skipBehind bytes final p = some found ∧
      ∀ q, found = some q → NulEnded q ∧ q.length < p.length := by
  obtain ⟨start, moved, ended, size⟩ := skips
  rw [skipBehind, bind_of_some moved, bind_of_some (ended.strstr nonul letters)]
  cases found : suffixFrom final start with
  | none => exact ⟨none, rfl, fun q absurd => by cases absurd⟩
  | some here =>
    obtain ⟨⟨front, cut⟩, behind, rfl⟩ := suffixFrom_parts found
    rw [cut] at ended
    have later := ended.behind (ended.letters (by simp [letters]))
    obtain ⟨spaces, q, same, -, -, skipped, endedToo⟩ := skipWhiteSpace_skips (later.behind nonul)
    dsimp only
    rw [bind_of_some (later.advance nonul), bind_of_some skipped]
    refine ⟨some q, rfl, ?_⟩
    intro last equal
    obtain rfl := Option.some.inj equal
    refine ⟨endedToo, ?_⟩
    have positive := List.length_pos_iff.mpr letters
    have sizes := congrArg List.length cut
    have sizesToo := congrArg List.length same
    simp only [List.length_append] at sizes sizesToo
    omega

/-- A pointer may be moved by nothing. -/
theorem skips_nothing (ended : NulEnded p) : Skips 0 p :=
  skips_letters [] ended List.not_mem_nil p rfl ended

/-- A part of the document is refused or skipped. -/
def Passable (part : Cursor → Option (Option Cursor)) (cur : Cursor) : Prop :=
  ∃ found, part cur = some found ∧ ∀ next, found = some next → Ahead cur next

/-- A part that is skipped up to an end is passable, however the length is changed. -/
theorem passable_of_skipBehind {part : Cursor → Option (Option Cursor)} {bytes : Nat}
    (final : List UInt8) (move : List UInt8 → Cursor) (skips : Skips bytes cur.p)
    (nonul : (0 : UInt8) ∉ final) (letters : final ≠ [])
    (reads : part cur = (skipBehind bytes final cur.p).map (·.map move))
    (moves : ∀ q, (move q).p = q) : Passable part cur := by
  obtain ⟨found, done, ahead⟩ := skipBehind_cases final skips nonul letters
  rw [done] at reads
  refine ⟨found.map move, reads, ?_⟩
  intro next same
  obtain ⟨q, rfl, rfl⟩ := Option.map_eq_some_iff.mp same
  rw [← moves q] at ahead
  obtain ⟨ended, less⟩ := ahead _ rfl
  exact ⟨ended, less⟩

/-- A comment is skipped. -/
theorem parseXmlComment_passable (skips : Skips 4 cur.p) : Passable parseXmlComment cur := by
  apply passable_of_skipBehind commentEnd cur.grown skips (by decide) (by decide)
  · rw [parseXmlComment]
    cases skipBehind 4 commentEnd cur.p with
    | none => rfl
    | some found => rfl
  · exact fun q => rfl

/-- A processing instruction is skipped. -/
theorem parseXmlProcessingInstruction_passable (skips : Skips 2 cur.p) :
    Passable parseXmlProcessingInstruction cur := by
  apply passable_of_skipBehind questionEnd cur.grown skips (by decide) (by decide)
  · rw [parseXmlProcessingInstruction]
    cases skipBehind 2 questionEnd cur.p with
    | none => rfl
    | some found => rfl
  · exact fun q => rfl

/-- A reference is skipped. -/
theorem parseXmlReference_passable (ended : NulEnded cur.p) : Passable parseXmlReference cur := by
  apply passable_of_skipBehind [semicolon] cur.passed (skips_nothing ended) (by decide) (by decide)
  · rw [parseXmlReference]
    cases skipBehind 0 [semicolon] cur.p with
    | none => rfl
    | some found => rfl
  · exact fun q => rfl

/-- A section of character data is skipped. -/
theorem parseXmlCdataSection_passable (ended : NulEnded cur.p) :
    Passable parseXmlCdataSection cur := by
  apply passable_of_skipBehind cdataEnd cur.passed (skips_nothing ended) (by decide) (by decide)
  · rw [parseXmlCdataSection]
    cases skipBehind 0 cdataEnd cur.p with
    | none => rfl
    | some found => rfl
  · exact fun q => rfl

/-- A declaration of the document type is skipped. -/
theorem parseXmlPrologDoctypedecl_passable (skips : Skips 9 cur.p) :
    Passable parseXmlPrologDoctypedecl cur := by
  obtain ⟨start, moved, ended, size⟩ := skips
  obtain ⟨spaces, q, cut, -, -, skipped, later⟩ := skipWhiteSpace_skips ended
  obtain ⟨found, done, ahead⟩ :=
    skipBehind_cases [greater] (skips_nothing later) (by decide) (by decide)
  rw [Passable, parseXmlPrologDoctypedecl, bind_of_some moved, bind_of_some skipped,
    bind_of_some done]
  refine ⟨found.map cur.grown, rfl, ?_⟩
  intro next same
  obtain ⟨last, rfl, rfl⟩ := Option.map_eq_some_iff.mp same
  obtain ⟨endedToo, less⟩ := ahead last rfl
  refine ⟨endedToo, ?_⟩
  have sizes := congrArg List.length cut
  rw [List.length_append] at sizes
  change last.length < cur.p.length
  omega

/-- What stands around the element is passed. -/
theorem parseXmlDocumentMisc_passable (ended : NulEnded cur.p)
    (isMisc : isXmlMisc cur.p = some true) : Passable parseXmlDocumentMisc cur := by
  obtain ⟨isComment, asked, comment⟩ := answers_comment cur.p ended
  obtain ⟨isInstruction, askedToo, instruction⟩ := answers_processingInstruction cur.p ended
  obtain ⟨isSpace, askedLast, space⟩ := answers_space cur.p ended
  rw [Passable, parseXmlDocumentMisc, bind_of_some asked]
  cases isComment with
  | true => exact parseXmlComment_passable (comment rfl)
  | false =>
    rw [if_neg (by decide), bind_of_some askedToo]
    cases isInstruction with
    | true => exact parseXmlProcessingInstruction_passable (instruction rfl)
    | false =>
      rw [if_neg (by decide), bind_of_some askedLast]
      cases isSpace with
      | true =>
        obtain ⟨spaces, q, cut, blank, notBlank, skipped, later⟩ := skipWhiteSpace_skips ended
        rw [if_pos rfl, bind_of_some skipped]
        refine ⟨some (cur.passed q), rfl, ?_⟩
        intro next same
        obtain rfl := Option.some.inj same
        refine ⟨later, ?_⟩
        -- there is white space in front, so that some is skipped
        cases spaces with
        | nil =>
          rw [List.nil_append] at cut
          obtain ⟨byte, rest, same⟩ := ended.cons
          rw [same, isXmlSpace] at askedLast
          have isBlank : isWhiteSpace byte = true := Option.some.inj askedLast
          rw [← cut, same] at notBlank
          rw [notBlank byte rfl] at isBlank
          cases isBlank
        | cons first spaces =>
          have sizes := congrArg List.length cut
          simp only [List.length_append, List.length_cons] at sizes
          change q.length < cur.p.length
          omega
      | false =>
        rw [isXmlMisc, anyOf, bind_of_some asked, if_neg (by decide), anyOf, bind_of_some askedToo,
          if_neg (by decide), anyOf, bind_of_some askedLast, if_neg (by decide)] at isMisc
        cases isMisc

/-- The pointer stays, or it is moved on. -/
def Onward (cur next : Cursor) : Prop := next = cur ∨ Ahead cur next

/-- Moving on twice. -/
theorem Onward.trans {later : Cursor} (onward : Onward cur next) (onwardToo : Onward next later) :
    Onward cur later := by
  obtain rfl | ahead := onwardToo
  · exact onward
  · obtain rfl | first := onward
    · exact .inr ahead
    · exact .inr ⟨ahead.ended, Nat.lt_trans ahead.less first.less⟩

/-- Where the pointer is moved to, the text ends with its terminator. -/
theorem Onward.ended (onward : Onward cur next) (ended : NulEnded cur.p) : NulEnded next.p := by
  obtain rfl | ahead := onward
  · exact ended
  · exact ahead.ended

/-- The pointer is not moved back. -/
theorem Onward.le (onward : Onward cur next) : next.p.length ≤ cur.p.length := by
  obtain rfl | ahead := onward
  · exact Nat.le_refl _
  · exact Nat.le_of_lt ahead.less

/-- The loop over what stands around the element ends, as each turn moves on. -/
theorem miscLoop_returns (turns : Nat) (ended : NulEnded cur.p) (enough : cur.p.length ≤ turns) :
    ∃ found, miscLoop turns cur = some found ∧ ∀ next, found = some next → Onward cur next := by
  induction turns generalizing cur with
  | zero =>
    obtain ⟨byte, rest, same⟩ := ended.cons
    rw [same] at enough
    cases enough
  | succ turns inductionHypothesis =>
    obtain ⟨answer, asked, -⟩ := answers_misc cur.p ended
    rw [miscLoop, bind_of_some asked]
    cases answer with
    | false =>
      refine ⟨some cur, rfl, ?_⟩
      intro next same
      exact .inl (Option.some.inj same).symm
    | true =>
      obtain ⟨found, done, moves⟩ := parseXmlDocumentMisc_passable ended asked
      rw [if_pos rfl, bind_of_some done]
      cases found with
      | none => exact ⟨none, rfl, fun next absurd => by cases absurd⟩
      | some after =>
        have ahead := moves after rfl
        have less := ahead.less
        obtain ⟨last, doneToo, onward⟩ := inductionHypothesis ahead.ended (by omega)
        refine ⟨last, doneToo, ?_⟩
        intro next same
        exact Onward.trans (.inr ahead) (onward next same)

/-- The version is "1." and a digit. -/
def CountsVersion (text : List UInt8) : Prop :=
  ∃ first second third digit rest, (∀ c ∈ first, isWhiteSpace c = true) ∧
    (∀ c ∈ second, isWhiteSpace c = true) ∧ (∀ c ∈ third, isWhiteSpace c = true) ∧
    Decimal.isDigit digit = true ∧
    text = xmlDeclStart ++ (first ++ (versionName ++ (second ++ equalSign ::
      (third ++ ([0x31, 0x2e] ++ digit :: rest)))))

/-- A value is read, and the pointer is not moved back. -/
def Reads (result : Option (Prolog × List UInt8)) (p : List UInt8) : Prop :=
  ∃ after q, result = some (after, q) ∧ NulEnded q ∧ q.length ≤ p.length

/-- A name and its value are read where values are, unless the value is none that is read. -/
theorem parseInfo_cases (keyword : List UInt8) {bad : List UInt8 → Prop}
    {value : Prolog → List UInt8 → Option (Prolog × List UInt8)} (nonul : (0 : UInt8) ∉ keyword)
    (values : ∀ prolog p, NulEnded p → Reads (value prolog p) p ∨ bad p) (prolog : Prolog)
    (ended : NulEnded p) : Reads (parseInfo keyword value prolog p) p ∨
      ∃ second third q, p = keyword ++ (second ++ equalSign :: (third ++ q)) ∧
        (∀ c ∈ second, isWhiteSpace c = true) ∧ (∀ c ∈ third, isWhiteSpace c = true) ∧
        NulEnded q ∧ bad q := by
  obtain ⟨answer, asked, yes⟩ := answers_startsWith keyword nonul p ended
  rw [parseInfo, bind_of_some asked]
  cases answer with
  | false => exact .inl ⟨prolog, p, rfl, ended, Nat.le_refl _⟩
  | true =>
    obtain ⟨rest, rfl, later⟩ := yes rfl
    obtain ⟨second, q, rfl, blank, -, skipped, endedToo⟩ := skipWhiteSpace_skips later
    obtain ⟨c, behind, rfl⟩ := endedToo.cons
    have read : readByte (c :: behind) = some c := rfl
    rw [if_pos rfl, bind_of_some (ended.advance nonul), bind_of_some skipped, bind_of_some read]
    by_cases isEqual : isEqualSign c = true
    · obtain rfl := of_decide_eq_true isEqual
      have after := endedToo.tail (by decide)
      obtain ⟨third, q, rfl, blankToo, -, skippedToo, endedValue⟩ := skipWhiteSpace_skips after
      have more : third ++ q ≠ [] := by
        obtain ⟨byte, rest, rfl⟩ := endedValue.cons
        simp
      rw [if_pos isEqual, bind_of_some (advance_one equalSign more), bind_of_some skippedToo]
      obtain ⟨info, last, done, endedLast, le⟩ | isBad := values prolog q endedValue
      · obtain ⟨spaces, final, rfl, -, -, skippedLast, endedFinal⟩ := skipWhiteSpace_skips endedLast
        left
        rw [bind_of_some done]
        dsimp only
        rw [bind_of_some skippedLast]
        refine ⟨info, final, rfl, endedFinal, ?_⟩
        simp only [List.length_append, List.length_cons] at le ⊢
        omega
      · exact .inr ⟨second, third, q, rfl, blank, blankToo, endedValue, isBad⟩
    · rw [if_neg isEqual]
      refine .inl ⟨prolog, c :: behind, rfl, endedToo, ?_⟩
      simp only [List.length_append]
      omega

/-- A version is read unless it is "1." and a digit. -/
theorem versionInfo_cases (turns : Nat) (prolog : Prolog) (ended : NulEnded p) :
    Reads (versionInfo (turns + 1) prolog p) p ∨
      ∃ digit rest, p = [0x31, 0x2e] ++ digit :: rest ∧ Decimal.isDigit digit = true := by
  obtain ⟨answer, asked, yes⟩ := answers_startsWith [0x31, 0x2e] (by decide) p ended
  rw [versionInfo, bind_of_some asked]
  cases answer with
  | false => exact .inl ⟨prolog, p, rfl, ended, Nat.le_refl _⟩
  | true =>
    obtain ⟨rest, rfl, later⟩ := yes rfl
    obtain ⟨c, behind, rfl⟩ := later.cons
    by_cases isDigit : Decimal.isDigit c = true
    · exact .inr ⟨c, behind, rfl, isDigit⟩
    · left
      have moved : advance 2 ([0x31, 0x2e] ++ c :: behind) = some (c :: behind) :=
        ended.advance (by decide)
      have read : readByte (c :: behind) = some c := rfl
      have digits : versionDigits (turns + 1) (c :: behind) 0 = some 0 := by
        rw [versionDigits, bind_of_some read, if_neg isDigit]
        rfl
      rw [if_pos rfl, bind_of_some moved, bind_of_some digits]
      refine ⟨_, _, rfl, later, ?_⟩
      simp

/-- A digit of the version is read over and over. -/
theorem versionDigits_none (turns : Nat) {digit : UInt8} (rest : List UInt8) (minor : Nat)
    (isDigit : Decimal.isDigit digit = true) :
    versionDigits turns (digit :: rest) minor = none := by
  induction turns generalizing minor with
  | zero => rfl
  | succ turns inductionHypothesis =>
    have read : readByte (digit :: rest) = some digit := rfl
    rw [versionDigits, bind_of_some read, if_pos isDigit]
    exact inductionHypothesis _

/-- A value in marks is searched up to its mark or the end of the document. -/
theorem toTag_reads (tag : UInt8) (exact : cur.len + 1 ≤ cur.p.length) (ended : NulEnded p) :
    ∃ q, toTag cur tag p = some q ∧ NulEnded q ∧ q.length ≤ p.length := by
  induction ended with
  | terminator =>
    refine ⟨[0], ?_, .terminator, Nat.le_refl _⟩
    rw [toTag, if_neg]
    rintro ⟨-, before⟩
    rw [List.length_singleton] at before
    omega
  | @letter byte p nonzero rest inductionHypothesis =>
    rw [toTag]
    split
    · obtain ⟨q, found, endedToo, le⟩ := inductionHypothesis
      refine ⟨q, found, endedToo, ?_⟩
      rw [List.length_cons]
      omega
    · exact ⟨byte :: p, rfl, .letter nonzero rest, Nat.le_refl _⟩

/-- A value in marks is read. -/
theorem quotedInfo_reads (change : Prolog → List UInt8 → Prolog)
    (exact : cur.len + 1 ≤ cur.p.length) (prolog : Prolog) (ended : NulEnded p) :
    Reads (quotedInfo cur change prolog p) p := by
  obtain ⟨tag, rest, rfl⟩ := ended.cons
  have read : readByte (tag :: rest) = some tag := rfl
  rw [quotedInfo, bind_of_some read]
  by_cases isMark : tag = quote ∨ tag = 0x27
  · have nonzero : tag ≠ 0 := by
      rintro rfl
      revert isMark
      decide
    have later := ended.tail nonzero
    have more : rest ≠ [] := by
      rintro rfl
      cases later
    obtain ⟨q, found, endedToo, le⟩ := toTag_reads tag exact later
    obtain ⟨c, behind, rfl⟩ := endedToo.cons
    have readToo : readByte (c :: behind) = some c := rfl
    rw [if_pos isMark, bind_of_some (advance_one tag more), bind_of_some found,
      bind_of_some readToo]
    rw [List.length_cons] at le
    split
    · refine ⟨_, _, rfl, endedToo, ?_⟩
      rw [List.length_cons, List.length_cons]
      omega
    · refine ⟨_, _, rfl, endedToo, ?_⟩
      rw [List.length_cons, List.length_cons]
      omega
  · rw [if_neg isMark]
    exact ⟨prolog, _, rfl, ended, Nat.le_refl _⟩

/-- A name and its value in marks are read. -/
theorem parseInfo_quoted (keyword : List UInt8) (change : Prolog → List UInt8 → Prolog)
    (nonul : (0 : UInt8) ∉ keyword) (exact : cur.len + 1 ≤ cur.p.length) (prolog : Prolog)
    (ended : NulEnded p) : Reads (parseInfo keyword (quotedInfo cur change) prolog p) p := by
  have values : ∀ prolog p, NulEnded p → Reads (quotedInfo cur change prolog p) p ∨ False :=
    fun prolog p ended => .inl (quotedInfo_reads change exact prolog ended)
  obtain reads | ⟨_, _, _, _, _, _, _, absurd⟩ :=
    parseInfo_cases keyword nonul values prolog ended
  · exact reads
  · exact absurd.elim

/-- The declaration is read to its end unless the version is "1." and a digit. -/
theorem parseXmlPrologXmldecl_cases (turns : Nat) (prolog : Prolog) {text : List UInt8}
    (here : cur.p = terminated text) (nonul : (0 : UInt8) ∉ text)
    (exact : cur.len + 1 ≤ cur.p.length) (isDecl : isXmlDeclaration cur.p = some true) :
    (∃ after found, parseXmlPrologXmldecl (turns + 1) prolog cur = some (after, found) ∧
        ∀ next, found = some next → Ahead cur next) ∨ CountsVersion text := by
  have ended := nulEnded_terminated nonul
  rw [← here] at ended
  obtain ⟨answer, asked, yes⟩ := answers_declaration cur.p ended
  rw [isDecl] at asked
  obtain ⟨c, rest, cut, later, -⟩ := yes (Option.some.inj asked).symm
  have moved : advance 5 cur.p = some (c :: rest) := by
    rw [cut] at ended ⊢
    exact ended.advance (by decide)
  obtain ⟨first, start, firstCut, blank, -, skipped, endedStart⟩ := skipWhiteSpace_skips later
  rw [parseXmlPrologXmldecl, bind_of_some moved, bind_of_some skipped]
  obtain ⟨info, q, version, endedQ, le⟩ | ⟨second, third, q, startCut, blankToo, blankLast,
      endedQ, digit, behind, qCut, isDigit⟩ :=
    parseInfo_cases versionName (by decide)
      (fun prolog p ended => versionInfo_cases turns prolog ended) prolog endedStart
  · obtain ⟨infoToo, qToo, encoding, endedToo, leToo⟩ := parseInfo_quoted
      encodingName _ (by decide) exact info endedQ
    obtain ⟨infoLast, qLast, standalone, endedLast, leLast⟩ := parseInfo_quoted
      standaloneName _ (by decide) exact infoToo endedToo
    obtain ⟨found, done, ahead⟩ :=
      skipBehind_cases questionEnd (skips_nothing endedLast) (by decide) (by decide)
    left
    rw [bind_of_some version]
    dsimp only
    rw [encodingInfo, bind_of_some encoding]
    dsimp only
    rw [standaloneInfo, bind_of_some standalone]
    dsimp only
    rw [bind_of_some done]
    refine ⟨infoLast, found.map cur.grown, rfl, ?_⟩
    intro next same
    obtain ⟨last, rfl, rfl⟩ := Option.map_eq_some_iff.mp same
    obtain ⟨endedFinal, less⟩ := ahead last rfl
    refine ⟨endedFinal, ?_⟩
    have sizes := congrArg List.length cut
    have sizesToo := congrArg List.length firstCut
    simp only [List.length_append] at sizes sizesToo
    change last.length < cur.p.length
    omega
  · right
    have nonzero : digit ≠ 0 := nonzero_of_test Decimal.isDigit (by decide) isDigit
    have endedDigit : NulEnded (digit :: behind) := by
      rw [qCut] at endedQ
      exact endedQ.behind (by decide)
    obtain ⟨tail, -, rfl⟩ := (endedDigit.tail nonzero).exists_text
    refine ⟨first, second, third, digit, tail, blank, blankToo, blankLast, isDigit, ?_⟩
    have whole : terminated text = xmlDeclStart ++ (first ++ (versionName ++ (second ++ equalSign ::
        (third ++ ([0x31, 0x2e] ++ digit :: terminated tail))))) := by
      rw [← here, cut, firstCut, startCut, qCut]
    rw [terminated, terminated] at whole
    rw [← List.append_left_inj [(0 : UInt8)], whole]
    simp

/-- A version with a digit is read for ever. -/
theorem parseXmlPrologXmldecl_counts (turns : Nat) (prolog : Prolog) {text : List UInt8}
    (here : cur.p = terminated text) (counts : CountsVersion text) :
    parseXmlPrologXmldecl turns prolog cur = none := by
  obtain ⟨first, second, third, digit, rest, blank, blankToo, blankLast, isDigit, rfl⟩ := counts
  have notBlank : isWhiteSpace 0x76 = false ∧ isWhiteSpace equalSign = false ∧
      isWhiteSpace 0x31 = false := by decide
  -- from the front to the digit
  generalize valueCut : [0x31, 0x2e] ++ digit :: terminated rest = value
  generalize equalCut : equalSign :: (third ++ value) = equal
  generalize nameCut : versionName ++ (second ++ equal) = name
  have whole : cur.p = xmlDeclStart ++ (first ++ name) := by
    rw [here, ← nameCut, ← equalCut, ← valueCut, terminated]
    simp [terminated]
  have nameMore : name ≠ [] := by
    rw [← nameCut]
    exact List.cons_ne_nil _ _
  have equalMore : second ++ equal ≠ [] := by
    rw [← equalCut]
    simp
  have thirdMore : third ++ value ≠ [] := by
    rw [← valueCut]
    simp
  have moved : advance 5 cur.p = some (first ++ name) := by
    rw [whole]
    exact advance_append xmlDeclStart (by simp [nameMore])
  have skipped : skipWhiteSpace (first ++ name) = some name := by
    rw [← nameCut]
    exact scan_cut _ blank notBlank.1
  have named : startsWith versionName name = some true := by
    rw [← nameCut]
    exact startsWith_append versionName _
  have behindName : advance versionName.length name = some (second ++ equal) := by
    rw [← nameCut]
    exact advance_append versionName equalMore
  have skippedToo : skipWhiteSpace (second ++ equal) = some equal := by
    rw [← equalCut]
    exact scan_cut _ blankToo notBlank.2.1
  have read : readByte equal = some equalSign := by
    rw [← equalCut]
    rfl
  have isEqual : isEqualSign equalSign = true := by decide
  have behindEqual : advance 1 equal = some (third ++ value) := by
    rw [← equalCut]
    exact advance_one equalSign thirdMore
  have skippedLast : skipWhiteSpace (third ++ value) = some value := by
    rw [← valueCut]
    exact scan_cut _ blankLast notBlank.2.2
  have behindPoint : advance 2 ([0x31, 0x2e] ++ digit :: terminated rest) =
      some (digit :: terminated rest) :=
    advance_append [0x31, 0x2e] (List.cons_ne_nil _ _)
  have counts : versionInfo turns prolog value = none := by
    rw [← valueCut, versionInfo, bind_of_some (startsWith_append [0x31, 0x2e] _), if_pos rfl,
      bind_of_some behindPoint, versionDigits_none turns _ 0 isDigit]
    rfl
  rw [parseXmlPrologXmldecl, bind_of_some moved, bind_of_some skipped, parseInfo,
    bind_of_some named, if_pos rfl, bind_of_some behindName, bind_of_some skippedToo,
    bind_of_some read, if_pos isEqual, bind_of_some behindEqual, bind_of_some skippedLast, counts]
  rfl

/-- The declaration is read to its end exactly when its version is not "1." and a digit. -/
theorem parseXmlPrologXmldecl_returns (turns : Nat) (prolog : Prolog) {text : List UInt8}
    (here : cur.p = terminated text) (nonul : (0 : UInt8) ∉ text)
    (exact : cur.len + 1 ≤ cur.p.length) (isDecl : isXmlDeclaration cur.p = some true) :
    ((parseXmlPrologXmldecl (turns + 1) prolog cur).isSome ↔ ¬ CountsVersion text) ∧
      ∀ after next, parseXmlPrologXmldecl (turns + 1) prolog cur = some (after, some next) →
        Ahead cur next := by
  obtain ⟨after, found, done, ahead⟩ | counts :=
    parseXmlPrologXmldecl_cases turns prolog here nonul exact isDecl
  · rw [done]
    constructor
    · constructor
      · intro _ counts
        rw [parseXmlPrologXmldecl_counts (turns + 1) prolog here counts] at done
        cases done
      · intro _
        rfl
    · intro afterToo next same
      obtain ⟨-, sameFound⟩ := Prod.mk.inj (Option.some.inj same)
      exact ahead next sameFound
  · rw [parseXmlPrologXmldecl_counts (turns + 1) prolog here counts]
    constructor
    · constructor
      · intro absurd
        cases absurd
      · intro meets
        exact absurd counts meets
    · intro after next absurd
      cases absurd

end Ezcfg.XmlTree

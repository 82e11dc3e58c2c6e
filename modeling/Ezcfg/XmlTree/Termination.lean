import Ezcfg.XmlTree.ParsedTree
import Ezcfg.XmlTree.PartReading

/-!
# Whether the parser returns

The parser returns for a text exactly when each call of its scanners does, and each call of a
scanner returns exactly when its text meets a condition: the version in a declaration is not
followed by digits; attributes end in front of the last bytes; what starts a name stands where a
name is to start; and there is markup behind character data. All other loops move the pointer on
in each turn, and none of them leaves the text.
-/

namespace Ezcfg.XmlTree

open Foundation

/-- Somewhere in a text there is markup. -/
def HasMarkup (text : List UInt8) : Prop :=
  ∃ before rest, text = before ++ rest ∧ isXmlMarkup (terminated rest) = some true

/-- The condition for a call of a scanner to return. -/
def Call.Meets : Call → Prop
  | .xmldecl text => ¬ CountsVersion text
  | .element len => 0 < len
  | .emptyElemTag text => ¬ RunsOut 2 text ∧ ¬ Stuck text
  | .stag text => ¬ RunsOut 1 text
  | .charData text => HasMarkup text
  | .etag len => 0 < len

variable {cur : Cursor} {state : State} {pi si : Int}

/-- The text in front of the terminator. -/
theorem exists_text (ended : NulEnded cur.p) :
    ∃ text, (0 : UInt8) ∉ text ∧ cur.p = terminated text ∧ cur.text = text := by
  obtain ⟨text, nonul, same⟩ := ended.exists_text
  refine ⟨text, nonul, same, ?_⟩
  rw [Cursor.text, same, terminated, List.takeWhile_append_of_pos]
  · simp
  · intro c member
    rw [decide_eq_true_iff]
    rintro rfl
    exact nonul member

/-- Scanning for markup finds it, where there is some; where none is in front, something is
skipped. -/
theorem scanMarkup_cases {text : List UInt8} (nonul : (0 : UInt8) ∉ text) :
    (∃ q, scanMarkup (terminated text) = some q ∧ NulEnded q ∧ q.length ≤ text.length + 1 ∧
        (isXmlMarkup (terminated text) = some false → q.length ≤ text.length) ∧ HasMarkup text) ∨
      scanMarkup (terminated text) = none ∧ ¬ HasMarkup text := by
  induction text with
  | nil =>
    obtain ⟨answer, asked, -⟩ := answers_markup [0] .terminator
    have scanned : scanMarkup (terminated []) = if answer then some [0] else none := by
      rw [terminated, List.nil_append, scanMarkup, bind_of_some asked]
      cases answer with
      | true => rfl
      | false => rfl
    rw [scanned]
    cases answer with
    | true =>
      refine .inl ⟨[0], rfl, .terminator, Nat.le_refl _, ?_, [], [], rfl, asked⟩
      intro notMarkup
      rw [terminated, List.nil_append, asked] at notMarkup
      cases notMarkup
    | false =>
      refine .inr ⟨rfl, ?_⟩
      rintro ⟨before, rest, cut, markup⟩
      obtain ⟨rfl, rfl⟩ := List.append_eq_nil_iff.mp cut.symm
      rw [terminated, List.nil_append, asked] at markup
      cases markup
  | cons c text inductionHypothesis =>
    have ended := nulEnded_terminated nonul
    obtain ⟨answer, asked, -⟩ := answers_markup _ ended
    have regroup : terminated (c :: text) = c :: terminated text := rfl
    rw [List.mem_cons, not_or] at nonul
    rw [regroup] at asked ended ⊢
    rw [scanMarkup, bind_of_some asked]
    cases answer with
    | true =>
      refine .inl ⟨_, rfl, ended, by simp, ?_, [], c :: text, rfl, asked⟩
      intro notMarkup
      rw [asked] at notMarkup
      cases notMarkup
    | false =>
      obtain ⟨q, found, endedQ, le, -, before, rest, cut, markup⟩ | ⟨none, absent⟩ :=
        inductionHypothesis nonul.2
      · refine .inl ⟨q, found, endedQ, ?_, ?_, c :: before, rest, by rw [cut]; rfl, markup⟩
        · rw [List.length_cons]
          omega
        · intro _
          exact le
      · refine .inr ⟨none, ?_⟩
        rintro ⟨before, rest, cut, markup⟩
        cases before with
        | nil =>
          rw [List.nil_append] at cut
          rw [← cut, regroup, asked] at markup
          cases markup
        | cons head before =>
          obtain ⟨-, sameText⟩ := List.cons.inj cut
          exact absent ⟨before, rest, sameText, markup⟩

/-- Where an element starts, its slot leads to it. -/
theorem Starts.slot {xml : Xml} {i : Nat} (starts : Starts xml i) :
    ∃ pointer elem, xml.root[i]? = some (some pointer) ∧ xml.elements[pointer]? = some elem := by
  obtain ⟨-, final, ⟨elem, found, -⟩, -⟩ := starts
  rw [Xml.elementAt] at found
  obtain ⟨slot, read, found⟩ := Option.bind_eq_some_iff.mp found
  obtain ⟨pointer, rfl, found⟩ := Option.bind_eq_some_iff.mp found
  exact ⟨pointer, elem, read, found⟩

/-- Character data is read where markup follows. -/
theorem charDataOr_gives {parent : Nat} (starts : Starts state.xml parent) (ended : NulEnded state.cur.p) :
    Logged.Gives Call.Meets (charDataOr state parent) fun after =>
      after.1 = true ∧ Onward state.cur after.2.cur := by
  obtain ⟨answer, asked, -⟩ := answers_markup _ ended
  rw [charDataOr, asked]
  rw [Logged.lift_bind _ rfl]
  generalize answer = markup at asked ⊢
  cases markup with
  | true => exact Logged.gives_lift rfl ⟨rfl, .inl rfl⟩
  | false =>
    obtain ⟨text, nonul, same, textEq⟩ := exists_text ended
    obtain ⟨pointer, elem, slot, -⟩ := starts.slot
    rw [if_neg (by decide), textEq]
    rw [same] at asked
    obtain ⟨q, found, ended, -, less, has⟩ | ⟨missing, absent⟩ := scanMarkup_cases nonul
    · obtain ⟨spaces, last, cut, -, -, skipped, later⟩ := skipWhiteSpace_skips ended
      have parsed : ∃ xml, parseXmlCharData state parent =
          some (true, ⟨xml, state.cur.passed last⟩) := by
        rw [parseXmlCharData, bind_of_some slot]
        dsimp only
        rw [same, bind_of_some found, bind_of_some skipped]
        exact ⟨_, rfl⟩
      obtain ⟨xml, parsed⟩ := parsed
      rw [parsed]
      apply Logged.gives_call
      · exact ⟨fun _ => has, fun _ => rfl⟩
      · intro after equal
        obtain rfl := Option.some.inj equal
        have sizes := congrArg List.length cut
        have sizesToo := congrArg List.length same
        have le := less asked
        rw [List.length_append] at sizes
        rw [length_terminated] at sizesToo
        have ahead : Ahead state.cur (state.cur.passed last) :=
          ⟨later, by change last.length < _; omega⟩
        exact ⟨rfl, .inr ahead⟩
    · have parsed : parseXmlCharData state parent = none := by
        rw [parseXmlCharData, bind_of_some slot]
        dsimp only
        rw [same, missing]
        rfl
      rw [parsed]
      apply Logged.gives_call
      · constructor
        · intro absurd
          cases absurd
        · intro has
          exact absurd has absent
      · intro after absurd
        cases absurd

/-- A name is scanned up to its end. -/
theorem scanName_ended (stop : List UInt8) {p : List UInt8} (ended : NulEnded p) :
    ∃ q, scanName stop p = some q := by
  induction ended with
  | terminator =>
    refine ⟨[0], ?_⟩
    rw [scanName, if_neg]
    rintro ⟨absurd, -⟩
    revert absurd
    decide
  | @letter byte p nonzero rest inductionHypothesis =>
    rw [scanName]
    split
    · exact inductionHypothesis
    · exact ⟨byte :: p, rfl⟩

/-- An end tag is read. -/
theorem parseElementEtag_gives {index : Nat} (starts : Starts state.xml index)
    (endedHere : NulEnded state.cur.p) (isEnd : isXmlElementEndTag state.cur.p = some true) :
    Logged.Gives Call.Meets (Logged.lift (parseElementEtag state index)) fun after =>
      after.1 = -1 ∨ Ahead state.cur after.2.cur := by
  obtain ⟨answer, asked, yes⟩ := answers_endTag state.cur.p endedHere
  rw [isEnd] at asked
  obtain ⟨c, rest, cut, ended, startsName⟩ := yes (Option.some.inj asked).symm
  obtain ⟨pointer, elem, slot, here⟩ := starts.slot
  have nonzero : c ≠ 0 := nonzero_of_test isNameStartChar (by decide) startsName
  have later := ended.tail nonzero
  have more : rest ≠ [] := by
    rintro rfl
    cases later
  have moved : advance 2 state.cur.p = some (c :: rest) := by
    rw [cut]
    exact advance_append [less, slash] (List.cons_ne_nil c rest)
  obtain ⟨q, scanned⟩ := scanName_ended ((suffixFrom [greater] (c :: rest)).getD []) later
  have parsed : ∃ after, parseElementEtag state index = some after ∧
      (after.1 = -1 ∨ Ahead state.cur after.2.cur) := by
    rw [parseElementEtag, bind_of_some (ensure_of starts.1), bind_of_some slot,
      bind_of_some moved, bind_of_some (ended.strstr (by decide) (by decide))]
    cases found : suffixFrom [greater] (c :: rest) with
    | none => exact ⟨(-1, state), rfl, .inl rfl⟩
    | some final =>
      rw [found, Option.getD_some] at scanned
      obtain ⟨⟨front, parts⟩, behind, finalCut⟩ := suffixFrom_parts found
      dsimp only
      rw [bind_of_some (advance_one c more), bind_of_some scanned, bind_of_some rfl,
        bind_of_some here]
      split
      · have endedFinal : NulEnded (greater :: behind) := by
          rw [parts, finalCut] at ended
          exact ended.behind (ended.letters (List.cons_ne_nil _ _))
        have endedBehind := endedFinal.tail (by decide)
        have moreBehind : behind ≠ [] := by
          rintro rfl
          cases endedBehind
        obtain ⟨spaces, last, lastCut, -, -, skipped, endedLast⟩ := skipWhiteSpace_skips endedBehind
        have movedToo : advance 1 final = some behind := by
          rw [finalCut]
          exact advance_one greater moreBehind
        rw [bind_of_some movedToo, bind_of_some skipped]
        refine ⟨_, rfl, .inr ?_⟩
        have ahead : Ahead state.cur (state.cur.passed last) := by
          refine ⟨endedLast, ?_⟩
          have sizes := congrArg List.length cut
          have sizesToo := congrArg List.length parts
          have sizesFinal := congrArg List.length finalCut
          have sizesLast := congrArg List.length lastCut
          simp only [List.length_append, List.length_cons] at sizes sizesToo sizesFinal sizesLast
          change last.length < _
          omega
        exact ahead
      · exact ⟨(-1, state), rfl, .inl rfl⟩
  obtain ⟨after, parsed, holds⟩ := parsed
  exact Logged.gives_lift parsed holds

/-- Parsing an element is sound for a text that is not longer than a number of turns, and it moves
the pointer on, or it refuses the text. -/
def ReadsElement (parseElement : State → Int → Int → Logged Call (Int × State)) (turns : Nat) :
    Prop :=
  ∀ state pi si, HoldsTree state.xml → ValidCall state.xml pi si → NulEnded state.cur.p →
    state.cur.p.length ≤ turns →
    Logged.Gives Call.Meets (parseElement state pi si) fun after =>
      after.1 = -1 ∨ Ahead state.cur after.2.cur

/-- A test is made, and what follows depends on the answer. -/
theorem gives_test {α : Type} {test : List UInt8 → Option Bool} {fact : List UInt8 → Prop}
    {p : List UInt8} {yes no : Logged Call α} {post : α → Prop} (answers : Answers test fact)
    (ended : NulEnded p)
    (whenYes : test p = some true → fact p → Logged.Gives Call.Meets yes post)
    (whenNo : test p = some false → Logged.Gives Call.Meets no post) :
    Logged.Gives Call.Meets
      (Logged.lift (test p) >>= fun answer => if answer = true then yes else no) post := by
  obtain ⟨answer, asked, fact⟩ := answers p ended
  rw [Logged.lift_bind _ asked]
  cases answer with
  | true => exact whenYes asked (fact rfl)
  | false => exact whenNo asked

/-- A part that is passable moves the pointer on. -/
theorem skipPart_gives {part : Cursor → Option (Option Cursor)} (ci : Int)
    (passable : Passable part state.cur) :
    Logged.Gives Call.Meets (skipPart state ci part) fun after =>
      after.1 = none ∨ Ahead state.cur after.2.cur := by
  obtain ⟨found, done, moves⟩ := passable
  rw [skipPart, Logged.lift_bind _ done]
  cases found with
  | none => exact Logged.gives_lift rfl (.inl rfl)
  | some next =>
    have ahead := moves next rfl
    exact Logged.gives_lift rfl (.inr ahead)

/-- A part of the content moves the pointer on. -/
theorem parsePart_gives {parseElement : State → Int → Int → Logged Call (Int × State)} {turns : Nat}
    (reads : ReadsElement parseElement turns) {parent : Nat} {ci : Int}
    (tree : HoldsTree state.xml) (valid : ValidCall state.xml parent ci) (ended : NulEnded state.cur.p)
    (enough : state.cur.p.length ≤ turns)
    (isMarkup : isXmlContentMarkup state.cur.p = some true) :
    Logged.Gives Call.Meets (parsePart parseElement state parent ci) fun after =>
      after.1 = none ∨ Ahead state.cur after.2.cur := by
  have ended := ended
  rw [parsePart]
  apply gives_test answers_element ended
  · intro _ _
    apply (reads state parent ci tree valid ended enough).bind
    rintro ⟨ei, after⟩ - moved
    dsimp only at moved
    obtain rfl | moved := moved
    · exact Logged.gives_lift rfl (.inl rfl)
    · exact Logged.gives_lift rfl (.inr moved)
  intro notElement
  apply gives_test answers_reference ended
  · exact fun _ _ => skipPart_gives ci (parseXmlReference_passable ended)
  intro notReference
  apply gives_test answers_cdataSection ended
  · exact fun _ _ => skipPart_gives ci (parseXmlCdataSection_passable ended)
  intro notCdata
  apply gives_test answers_processingInstruction ended
  · exact fun _ skips => skipPart_gives ci (parseXmlProcessingInstruction_passable skips)
  intro notInstruction
  apply gives_test answers_comment ended
  · exact fun _ skips => skipPart_gives ci (parseXmlComment_passable skips)
  intro notComment
  -- there is markup of content, and so one of the tests was passed
  rw [isXmlContentMarkup, anyOf, bind_of_some notElement, if_neg (by decide), anyOf,
    bind_of_some notReference, if_neg (by decide), anyOf, bind_of_some notCdata,
    if_neg (by decide), anyOf, bind_of_some notInstruction, if_neg (by decide), anyOf,
    bind_of_some notComment, if_neg (by decide)] at isMarkup
  cases isMarkup

/-- The loop over the content is sound, as each turn moves on. -/
theorem contentLoop_gives {parseElement : State → Int → Int → Logged Call (Int × State)}
    {turns : Nat} (parses : Parses parseElement) (reads : ReadsElement parseElement turns)
    (more : Nat) {parent : Nat} {ci : Int} (tree : HoldsTree state.xml)
    (valid : ValidCall state.xml parent ci) (ended : NulEnded state.cur.p)
    (enough : state.cur.p.length ≤ turns) (enoughToo : state.cur.p.length ≤ more) :
    Logged.Gives Call.Meets (contentLoop parseElement more state parent ci) fun after =>
      after.1 = -1 ∨ Onward state.cur after.2.cur := by
  induction more generalizing state ci with
  | zero =>
    obtain ⟨byte, rest, same⟩ := ended.cons
    rw [same] at enoughToo
    cases enoughToo
  | succ more inductionHypothesis =>
    rw [contentLoop]
    apply gives_test answers_contentMarkup ended
    · intro isMarkup _
      apply (parsePart_gives reads tree valid ended enough isMarkup).bind
      rintro ⟨index, after⟩ found moved
      obtain ⟨treeAfter, goesOn⟩ := parsePart_kept parses tree valid found
      cases index with
      | none => exact Logged.gives_lift rfl (.inl rfl)
      | some last =>
        obtain ⟨validAfter, kept⟩ := goesOn last rfl
        have ahead := moved.resolve_left (Option.some_ne_none last)
        have less := ahead.less
        apply (charDataOr_gives (validAfter.sibling rfl).1 ahead.ended).bind
        rintro ⟨done, later⟩ data ⟨-, onward⟩
        obtain ⟨treeLater, keptAll⟩ := charDataOr_kept treeAfter data
        have onwardAll := Onward.trans (.inr ahead) onward
        have le := onward.le
        dsimp only at less le
        apply (inductionHypothesis treeLater (validAfter.kept keptAll) (onward.ended ahead.ended)
          (by omega) (by omega)).imp
        rintro final (refused | onwardToo)
        · exact .inl refused
        · exact .inr (onwardAll.trans onwardToo)
    · intro _
      exact Logged.gives_lift rfl (.inr (.inl rfl))

/-- The content of an element is sound. -/
theorem parseElementContent_gives {parseElement : State → Int → Int → Logged Call (Int × State)}
    {turns : Nat} (parses : Parses parseElement) (reads : ReadsElement parseElement turns)
    {parent : Nat} (tree : HoldsTree state.xml) (starts : Starts state.xml parent)
    (ended : NulEnded state.cur.p) (enough : state.cur.p.length ≤ turns) :
    Logged.Gives Call.Meets (parseElementContent parseElement turns state parent (-1))
      fun after => after.1 = -1 ∨ Onward state.cur after.2.cur := by
  rw [parseElementContent]
  apply (charDataOr_gives starts ended).bind
  rintro ⟨done, after⟩ data ⟨rfl, onward⟩
  obtain ⟨treeAfter, keptAll⟩ := charDataOr_kept tree data
  have valid : ValidCall after.xml parent (-1) := (ValidCall.last starts).kept keptAll
  have le := onward.le
  dsimp only at le
  apply (contentLoop_gives parses reads turns treeAfter valid (onward.ended ended) (by omega)
    (by omega)).imp
  rintro final (refused | onwardToo)
  · exact .inl refused
  · exact .inr (onward.trans onwardToo)

/-- A valid call is granted. -/
theorem ValidCall.adds {xml : Xml} (valid : ValidCall xml pi si) (tree : HoldsTree xml)
    (elem : Element) : ∃ now index, xml.addElement pi si elem = some (now, index) := by
  obtain ⟨forest, treeHere⟩ := tree
  obtain ⟨now, index, -, done, -⟩ := valid.added treeHere elem
  exact ⟨now, index, done⟩

/-- An assertion is passed when it holds. -/
theorem isSome_ensure (condition : Prop) [Decidable condition] :
    (ensure condition).isSome ↔ condition := by
  rw [ensure]
  by_cases holds : condition
  · rw [if_pos holds]
    exact ⟨fun _ => holds, fun _ => rfl⟩
  · rw [if_neg holds]
    exact ⟨fun absurd => (Bool.false_ne_true absurd).elim, fun here => (holds here).elim⟩

/-- A function asserts that something is left. -/
theorem gives_positive (made : Int → Call) {len : Int} (meets : (made len).Meets = (0 < len)) :
    Logged.Gives Call.Meets (Logged.call (made len) (ensure (0 < len))) fun _ => True := by
  apply Logged.gives_call
  · rw [meets]
    exact isSome_ensure _
  · intro _ _
    trivial

/-- An element with content is sound. -/
theorem parseElementStagContentEtag_reads
    {parseElement : State → Int → Int → Logged Call (Int × State)} {turns : Nat}
    (parses : Parses parseElement) (reads : ReadsElement parseElement turns)
    (tree : HoldsTree state.xml) (valid : ValidCall state.xml pi si) (ended : NulEnded state.cur.p)
    (enough : state.cur.p.length ≤ turns + 1)
    (isTag : isXmlElementStartTag state.cur.p = some true) :
    Logged.Gives Call.Meets (parseElementStagContentEtag parseElement turns state pi si)
      fun after =>
        after.1 = -1 ∨ Ahead state.cur after.2.cur := by
  obtain ⟨text, nonul, here, textEq⟩ := exists_text ended
  have short : text.length ≤ turns := by
    rw [here, length_terminated] at enough
    omega
  obtain ⟨returns, moves⟩ := parseElementStag_returns here nonul isTag (valid.adds tree) short
  have tag : Logged.Gives Call.Meets
      (Logged.call (.stag text) (parseElementStag turns state pi si)) fun after =>
        after.1 = -1 ∨ Ahead state.cur after.2.cur :=
    Logged.gives_call returns fun after done => moves after.1 after.2 done
  rw [parseElementStagContentEtag, textEq]
  apply tag.bind
  rintro ⟨stag, after⟩ done moved
  obtain ⟨treeAfter, refused | ⟨index, rfl, joined⟩⟩ := parseTag_joined tree valid done
  · dsimp only
    rw [if_pos refused]
    exact Logged.gives_lift rfl (.inl rfl)
  · dsimp only at moved ⊢
    have ahead := moved.resolve_left (by omega)
    have less := ahead.less
    rw [if_neg (by omega), Int.toNat_natCast]
    apply (parseElementContent_gives parses reads treeAfter joined.starts ahead.ended
      (by omega)).bind
    rintro ⟨content, later⟩ inside onward
    obtain ⟨treeLater, kept⟩ := parseElementContent_kept parses turns treeAfter joined.starts inside
    dsimp only at onward kept ⊢
    split
    · exact Logged.gives_lift rfl (.inl rfl)
    · rename_i accepted
      have starts := (kept.resolve_left accepted).starts index (Nat.le_refl _) joined.starts
      have onwardHere := onward.resolve_left accepted
      have endedLater := onwardHere.ended ahead.ended
      have le := onwardHere.le
      apply gives_test answers_endTag endedLater
      · intro isEnd _
        apply (gives_positive .etag rfl).bind
        intro _ _ _
        apply (parseElementEtag_gives starts endedLater isEnd).bind
        rintro ⟨etag, final⟩ - closed
        dsimp only at closed ⊢
        obtain rfl | aheadFinal := closed
        · exact Logged.gives_lift rfl (.inl rfl)
        · have lessFinal := aheadFinal.less
          exact Logged.gives_lift rfl (.inr ⟨aheadFinal.ended, by dsimp only at lessFinal ⊢; omega⟩)
      · intro _
        exact Logged.gives_lift rfl (.inl rfl)

/-- Parsing an element is sound, by induction on the turns. -/
theorem parseXmlDocumentElement_reads (turns : Nat) :
    ReadsElement (parseXmlDocumentElement turns) turns := by
  induction turns with
  | zero =>
    intro state pi si tree valid ended enough
    obtain ⟨byte, rest, same⟩ := ended.cons
    rw [same] at enough
    cases enough
  | succ turns inductionHypothesis =>
    intro state pi si tree valid ended enough
    obtain ⟨text, nonul, here, textEq⟩ := exists_text ended
    rw [parseXmlDocumentElement]
    apply (gives_positive .element rfl).bind
    rintro ⟨⟩ - -
    apply gives_test answers_startTag ended
    · intro isTag _
      apply gives_test answers_emptyTag ended
      · intro isEmpty _
        have short : text.length ≤ turns := by
          rw [here, length_terminated] at enough
          omega
        obtain ⟨returns, moves⟩ :=
          parseElementEmptyElemTag_returns here nonul isEmpty (valid.adds tree) short
        have meets : (parseElementEmptyElemTag turns state pi si).isSome ↔
            Call.Meets (.emptyElemTag text) := returns
        rw [textEq]
        apply Logged.gives_call meets
        rintro ⟨ei, after⟩ done
        obtain refused | ahead := moves ei after done
        · exact .inl refused
        · exact .inr ahead
      · intro _
        exact parseElementStagContentEtag_reads (parseXmlDocumentElement_parses turns)
          inductionHypothesis tree valid ended enough isTag
    · intro _
      exact Logged.gives_lift rfl (.inl rfl)

/-- The declaration is sound, for a length that is that of the text. -/
theorem declarationOr_gives (turns : Nat) (prolog : Prolog) (ended : NulEnded cur.p)
    (exact : cur.len + 1 ≤ cur.p.length) :
    Logged.Gives Call.Meets (declarationOr (turns + 1) prolog cur) fun after =>
      ∀ next, after.2 = some next → Onward cur next := by
  obtain ⟨text, nonul, here, textEq⟩ := exists_text ended
  rw [declarationOr]
  apply gives_test answers_declaration ended
  · intro isDecl _
    obtain ⟨returns, moves⟩ := parseXmlPrologXmldecl_returns turns prolog here nonul exact isDecl
    have meets : (parseXmlPrologXmldecl (turns + 1) prolog cur).isSome ↔
        Call.Meets (.xmldecl text) := returns
    rw [textEq]
    apply Logged.gives_call meets
    rintro ⟨after, found⟩ done next rfl
    have ahead := moves after next done
    exact .inr ahead
  · intro _
    apply Logged.gives_lift rfl
    intro next same
    exact .inl (Option.some.inj same).symm

/-- What may stand in front of the element is read. -/
theorem doctypeOr_returns (turns : Nat) (ended : NulEnded cur.p) (enough : cur.p.length ≤ turns) :
    ∃ found, doctypeOr turns cur = some found ∧ ∀ next, found = some next → Onward cur next := by
  obtain ⟨answer, asked, skips⟩ := answers_documentTypeDeclaration cur.p ended
  rw [doctypeOr, bind_of_some asked]
  cases answer with
  | false =>
    refine ⟨some cur, rfl, ?_⟩
    intro next same
    exact .inl (Option.some.inj same).symm
  | true =>
    obtain ⟨found, done, moves⟩ := parseXmlPrologDoctypedecl_passable (skips rfl)
    rw [if_pos rfl, bind_of_some done]
    cases found with
    | none => exact ⟨none, rfl, fun next absurd => by cases absurd⟩
    | some after =>
      have ahead := moves after rfl
      have less := ahead.less
      obtain ⟨last, doneToo, onward⟩ := miscLoop_returns turns ahead.ended (by omega)
      refine ⟨last, doneToo, ?_⟩
      intro next same
      exact Onward.trans (.inr ahead) (onward next same)

/-- The prolog is sound, for a length that is that of the text. -/
theorem parseXmlDocumentProlog_gives (turns : Nat) (prolog : Prolog) (ended : NulEnded cur.p)
    (exact : cur.len + 1 ≤ cur.p.length) (positive : 0 < cur.len)
    (enough : cur.p.length ≤ turns + 1) :
    Logged.Gives Call.Meets (parseXmlDocumentProlog (turns + 1) prolog cur) fun after =>
      ∀ next, after.2 = some next → Onward cur next := by
  rw [parseXmlDocumentProlog, Logged.lift_bind _ (ensure_of positive)]
  apply (declarationOr_gives turns prolog ended exact).bind
  rintro ⟨info, declared⟩ - onward
  cases declared with
  | none => exact Logged.gives_lift rfl fun next absurd => by cases absurd
  | some after =>
    have first := onward after rfl
    have le := first.le
    obtain ⟨found, done, moves⟩ := miscLoop_returns (turns + 1) (first.ended ended) (by omega)
    dsimp only
    rw [Logged.lift_bind _ done]
    cases found with
    | none => exact Logged.gives_lift rfl fun next absurd => by cases absurd
    | some later =>
      have second := first.trans (moves later rfl)
      have leToo := second.le
      obtain ⟨last, doneToo, movesToo⟩ :=
        doctypeOr_returns (turns + 1) (second.ended ended) (by omega)
      dsimp only
      rw [Logged.lift_bind _ doneToo]
      apply Logged.gives_lift rfl
      intro next same
      exact second.trans (movesToo next same)

end Ezcfg.XmlTree

import Ezcfg.Foundation.TextCuts
import Ezcfg.XmlTree.TagReading

/-!
# Which tags are read to their end

A start tag is read to its end unless the text ends with the value of an attribute that has the
first ">". The tag of an empty element has two bytes at its end, so that one byte behind such a
value is too little as well; and there must be nothing that starts no name where a name is to
start.
-/

namespace Ezcfg.XmlTree

open Foundation

/-- A pointer has been moved on in the text. -/
structure Ahead (cur next : Cursor) : Prop where
  ended : NulEnded next.p
  less : next.p.length < cur.p.length

/-- Moving over a byte of a text. -/
theorem advance_one_terminated (byte : UInt8) (text : List UInt8) :
    advance 1 (terminated (byte :: text)) = some (terminated text) :=
  advance_one byte (terminated_ne_nil text)

/-- A text is name characters, and then not. -/
theorem exists_name (text : List UInt8) : ∃ others first, text = others ++ first ∧
    (∀ c ∈ others, isNameChar c = true) ∧ ∀ c ∈ first.head?, isNameChar c = false := by
  refine ⟨text.takeWhile isNameChar, text.dropWhile isNameChar,
    List.takeWhile_append_dropWhile.symm, ?_, ?_⟩
  · intro c member
    exact List.mem_takeWhile_imp member
  · intro c member
    have kept := List.head?_dropWhile_not isNameChar text
    rw [Option.mem_def.mp member] at kept
    exact kept

/-- The tag at a pointer: it starts with "<" and the first character of a name, and what ends it is
in front of the first ">" together with this. -/
structure TagAt (text : List UInt8) (c : UInt8) (rest pre lead behind : List UInt8) : Prop where
  nonul : (0 : UInt8) ∉ text
  front : text = less :: c :: rest
  starts : isNameStartChar c = true
  cut : rest = pre ++ (lead ++ greater :: behind)
  absent : greater ∉ pre
  isLead : lead = [] ∨ lead = [slash]

/-- The name of a tag ends in front of the end of the tag. -/
theorem TagAt.name {text rest pre lead behind : List UInt8} {c : UInt8}
    (tag : TagAt text c rest pre lead behind) : ∃ others more,
      pre = others ++ more ∧ IsName (c :: others) ∧
      ∀ other ∈ (more ++ (lead ++ greater :: behind)).head?, isNameChar other = false := by
  obtain ⟨others, more, rfl, all, ends⟩ := exists_name pre
  refine ⟨others, more, rfl, ⟨c, others, rfl, tag.starts, all⟩, ?_⟩
  cases more with
  | nil =>
    obtain rfl | rfl := tag.isLead
    · rintro other ⟨⟩
      decide
    · rintro other ⟨⟩
      decide
  | cons head tail => exact ends

/-- Reading a tag is reading its attributes from behind the name, and then its end. -/
theorem TagAt.parseTag_eq {text pre lead behind others more : List UInt8} {c : UInt8}
    {rest : List UInt8} (tag : TagAt text c rest pre lead behind) (state : State)
    (here : state.cur.p = terminated text) (pi si : Int) (preCut : pre = others ++ more)
    (isName : IsName (c :: others))
    (ends : ∀ other ∈ (more ++ (lead ++ greater :: behind)).head?, isNameChar other = false)
    (loop : List UInt8 → Element → List UInt8 → Option (Option (Element × List UInt8))) :
    ∃ elem, parseTag loop (lead ++ [greater]) state pi si =
      (loop (terminated (lead ++ greater :: behind)) elem
        (terminated (more ++ (lead ++ greater :: behind)))) >>=
        closeTag (lead ++ [greater]) state pi si := by
  obtain ⟨nonul, rfl, starts, rfl, absent, isLead⟩ := tag
  subst preCut
  obtain ⟨head, tail, same, -, all⟩ := isName
  obtain ⟨rfl, rfl⟩ := List.cons.inj same
  have whole := nulEnded_terminated nonul
  have later : NulEnded (terminated (c :: (others ++ more ++ (lead ++ greater :: behind)))) :=
    whole.tail (by decide)
  have notLead : (0 : UInt8) ∉ lead ++ [greater] ∧ greater ∉ lead := by
    obtain rfl | rfl := isLead
    · decide
    · decide
  have notFront : greater ∉ c :: (others ++ more) := by
    rw [List.mem_cons, not_or]
    refine ⟨?_, absent⟩
    rintro rfl
    revert starts
    decide
  have regroup : terminated (c :: (others ++ more ++ (lead ++ greater :: behind))) =
      c :: (others ++ more) ++ (lead ++ greater :: (behind ++ [0])) := by
    rw [terminated]
    simp
  have found : strstr (lead ++ [greater])
      (terminated (c :: (others ++ more ++ (lead ++ greater :: behind)))) =
      some (some (terminated (lead ++ greater :: behind))) := by
    rw [later.strstr notLead.1 (by simp), regroup, suffixFrom_last (behind ++ [0]) notFront notLead.2,
      terminated]
    simp
  have scanned := scanName_terminated (lead ++ greater :: behind) all ends
  rw [← List.append_assoc others] at scanned
  refine ⟨elementNew (between (terminated (c :: (others ++ more ++ (lead ++ greater :: behind))))
    (terminated (more ++ (lead ++ greater :: behind)))) none, ?_⟩
  rw [parseTag, here, bind_of_some (advance_one_terminated less _), bind_of_some found]
  dsimp only
  rw [bind_of_some (advance_one_terminated c _), bind_of_some scanned]

/-- A ">" is in no name. -/
theorem IsName.notMem {name : List UInt8} (isName : IsName name) : greater ∉ name := by
  obtain ⟨c, rest, rfl, starts, all⟩ := isName
  rw [List.mem_cons, not_or]
  constructor
  · rintro rfl
    revert starts
    decide
  · intro member
    have absurd := all _ member
    revert absurd
    decide

/-- A ">" is not white space. -/
theorem notMem_of_blank {spaces : List UInt8} (blank : ∀ c ∈ spaces, isWhiteSpace c = true) :
    greater ∉ spaces := by
  intro member
  have absurd := blank _ member
  revert absurd
  decide

/-- The attributes in front have no ">". -/
theorem Opens.notMem {front rest : List UInt8} (opens : Opens front rest) : greater ∉ front := by
  induction opens with
  | name isName ends =>
    rw [List.mem_cons, not_or]
    exact ⟨by decide, isName.notMem⟩
  | attr opens blank isAttribute inside inductionHypothesis =>
    rw [List.mem_append, List.mem_append, not_or, not_or]
    exact ⟨inductionHypothesis, notMem_of_blank blank, inside⟩

/-- The first ">" of an attribute is in its value. -/
theorem IsAttribute.exists_mark {text : List UInt8} (isAttribute : IsAttribute text)
    (inside : greater ∈ text) : ∃ before after, text = before ++ greater :: after ∧
      greater ∉ before ∧ 2 ≤ before.length := by
  obtain ⟨name, gap, spaces, mark, value, isName, gapped, blank, isMark, -, rfl⟩ := isAttribute
  have notGap : greater ∉ gap := by
    obtain rfl | ⟨c, rfl, isBlank⟩ := gapped
    · exact List.not_mem_nil
    · rw [List.mem_singleton]
      rintro rfl
      revert isBlank
      decide
  have notEqual : greater ≠ equalSign := by decide
  have notMark : greater ≠ mark := by
    rintro rfl
    revert isMark
    decide
  have within : greater ∈ value := by
    simp only [List.mem_append, List.mem_cons, List.not_mem_nil, or_false] at inside
    obtain absurd | absurd | absurd | absurd | absurd | here | absurd := inside
    · exact (isName.notMem absurd).elim
    · exact (notGap absurd).elim
    · exact (notEqual absurd).elim
    · exact (notMem_of_blank blank absurd).elim
    · exact (notMark absurd).elim
    · exact here
    · exact (notMark absurd).elim
  obtain ⟨before, after, rfl, absent⟩ := List.eq_append_cons_of_mem within
  refine ⟨name ++ (gap ++ equalSign :: (spaces ++ mark :: before)), after ++ [mark], ?_, ?_, ?_⟩
  · simp
  · simp only [List.mem_append, List.mem_cons, not_or]
    exact ⟨isName.notMem, notGap, notEqual, notMem_of_blank blank, notMark, absent⟩
  · simp only [List.length_append, List.length_cons]
    omega

/-- A text has one name in front. -/
theorem name_unique {others othersToo first firstToo : List UInt8}
    (same : others ++ first = othersToo ++ firstToo)
    (all : ∀ c ∈ others, isNameChar c = true) (ends : ∀ c ∈ first.head?, isNameChar c = false)
    (allToo : ∀ c ∈ othersToo, isNameChar c = true)
    (endsToo : ∀ c ∈ firstToo.head?, isNameChar c = false) : first = firstToo := by
  have dropped : ∀ {others first : List UInt8}, (∀ c ∈ others, isNameChar c = true) →
      (∀ c ∈ first.head?, isNameChar c = false) → (others ++ first).dropWhile isNameChar = first := by
    intro others first all ends
    rw [List.dropWhile_append_of_pos all]
    cases first with
    | nil => rfl
    | cons c rest =>
      rw [List.dropWhile_cons_of_neg]
      rw [ends c rfl]
      decide
  rw [← dropped all ends, same, dropped allToo endsToo]

/-- The first ">" of a tag is the only one that has none in front. -/
theorem TagAt.unique {text rest pre lead behind front after : List UInt8} {c : UInt8}
    (tag : TagAt text c rest pre lead behind) (cut : text = front ++ greater :: after)
    (absent : greater ∉ front) : front = less :: c :: pre ++ lead ∧ after = behind := by
  obtain ⟨-, rfl, starts, rfl, notPre, isLead⟩ := tag
  have regroup : front ++ greater :: after = (less :: c :: pre ++ lead) ++ greater :: behind := by
    rw [← cut]
    simp
  have notFront : greater ∉ less :: c :: pre ++ lead := by
    simp only [List.mem_append, List.mem_cons, not_or]
    refine ⟨⟨by decide, ?_, notPre⟩, ?_⟩
    · rintro rfl
      revert starts
      decide
    · obtain rfl | rfl := isLead
      · exact List.not_mem_nil
      · decide
  exact TextCuts.mark_unique regroup absent notFront

section Tags

variable {text rest pre lead behind : List UInt8} {c : UInt8} {skips : Bool} {state : State}
  {pi si : Int} {turns : Nat}

/-- Whatever is read of the attributes in front of a place, the tag goes on from there. -/
theorem TagAt.parseTag_reaches (skips : Bool) (pi si : Int) (tag : TagAt text c rest pre lead behind)
    (here : state.cur.p = terminated text) {front later : List UInt8} (opens : Opens front later)
    (cut : text = front ++ later)
    (short : (terminated (lead ++ greater :: behind)).length ≤ (terminated later).length)
    (enough : text.length ≤ turns) : ∃ more next,
      parseTag (attributeLoop skips turns) (lead ++ [greater]) state pi si =
        (attributeLoop skips more (terminated (lead ++ greater :: behind)) next
          (terminated later)) >>= closeTag (lead ++ [greater]) state pi si := by
  obtain ⟨others, more, preCut, isName, ends⟩ := tag.name
  obtain ⟨elem, parsed⟩ := tag.parseTag_eq state here pi si preCut isName ends
    (attributeLoop skips turns)
  have nonul : (0 : UInt8) ∉ front := by
    have absent := tag.nonul
    rw [cut, List.mem_append, not_or] at absent
    exact absent.1
  obtain ⟨name, first, same, isNameToo, endsToo, reached⟩ :=
    opens.reaches skips nonul short
  obtain ⟨used, next, bound, walk⟩ := reached elem
  -- the name in front of the attributes is the name of the tag
  have sameFirst : first = more ++ (lead ++ greater :: behind) := by
    rw [← cut, tag.front, tag.cut, preCut] at same
    obtain ⟨head, tail, nameCut, -, all⟩ := isName
    obtain ⟨rfl, rfl⟩ := List.cons.inj nameCut
    obtain ⟨headToo, tailToo, rfl, -, allToo⟩ := isNameToo
    have texts := (List.cons.inj (List.cons.inj same).2).2
    rw [List.append_assoc] at texts
    exact (name_unique texts all ends allToo endsToo).symm
  have size : front.length ≤ text.length := by
    rw [cut, List.length_append]
    omega
  refine ⟨turns - used, next, ?_⟩
  have split : turns = used + (turns - used) := by omega
  have walked := walk (turns - used)
  rw [← split, sameFirst] at walked
  rw [parsed, walked]

/-- Where an attribute goes past the end of the tag, the tag is left behind it. -/
theorem TagAt.parseTag_passes (skips : Bool) (pi si : Int) (tag : TagAt text c rest pre lead behind)
    (here : state.cur.p = terminated text) {few : List UInt8} (passes : Passes text few)
    (short : few.length < lead.length + 1) (enough : text.length ≤ turns) :
    parseTag (attributeLoop skips turns) (lead ++ [greater]) state pi si = none := by
  obtain ⟨front, spaces, last, cut, opens, blank, isAttribute, inside⟩ := passes
  obtain ⟨before, after, rfl, absent, long⟩ := isAttribute.exists_mark inside
  have marked : text = (front ++ (spaces ++ before)) ++ greater :: (after ++ few) := by
    rw [cut]
    simp
  have notBefore : greater ∉ front ++ (spaces ++ before) := by
    rw [List.mem_append, List.mem_append, not_or, not_or]
    exact ⟨opens.notMem, notMem_of_blank blank, absent⟩
  obtain ⟨-, sameBehind⟩ := tag.unique marked notBefore
  have leadShort : lead.length ≤ 1 := by
    obtain rfl | rfl := tag.isLead
    · exact Nat.zero_le _
    · exact Nat.le_refl _
  have stopSize : (terminated (lead ++ greater :: behind)).length =
      lead.length + after.length + few.length + 2 := by
    rw [← sameBehind, length_terminated, List.length_append, List.length_cons, List.length_append]
    omega
  have nonul := tag.nonul
  rw [cut] at nonul
  simp only [List.mem_append, not_or] at nonul
  have lastNonul : (0 : UInt8) ∉ before ++ greater :: after := by
    rw [List.mem_append, not_or]
    exact nonul.2.1.2
  have size : (spaces ++ (before ++ greater :: after ++ terminated few)).length =
      spaces.length + before.length + after.length + few.length + 2 := by
    simp only [List.length_append, List.length_cons, length_terminated]
    omega
  have laterText : terminated (spaces ++ (before ++ greater :: after) ++ few) =
      spaces ++ (before ++ greater :: after ++ terminated few) := by
    rw [terminated_append, List.append_assoc]
  obtain ⟨more, next, parsed⟩ := tag.parseTag_reaches skips pi si here
    opens cut (by rw [laterText]; omega) enough
  rw [parsed, laterText]
  cases more with
  | zero => rfl
  | succ more =>
    obtain ⟨nextToo, turn⟩ := attributeLoop_attribute skips
      (terminated (lead ++ greater :: behind)) next blank isAttribute lastNonul
      (terminated_ne_nil few) (by omega)
    rw [turn]
    cases more with
    | zero => rfl
    | succ more =>
      have past : (terminated few).length ≤ (terminated (lead ++ greater :: behind)).length := by
        rw [stopSize, length_terminated]
        omega
      have outside : few.length < (lead ++ [greater]).length := by
        rw [List.length_append, List.length_singleton]
        exact short
      rw [attributeLoop_done more past, bind_of_some rfl, closeTag,
        advance_terminated_none outside]
      rfl

/-- Where something that starts no name is skipped, the tag is not left. -/
theorem TagAt.parseTag_blocks (pi si : Int) (tag : TagAt text c rest pre lead behind)
    (here : state.cur.p = terminated text) {after : List UInt8}
    (blocks : Blocks text (lead ++ greater :: after)) (enough : text.length ≤ turns) :
    parseTag (attributeLoop true turns) (lead ++ [greater]) state pi si = none := by
  obtain ⟨front, spaces, other, others, cut, opens, blank, notBlank, notName, absent⟩ := blocks
  have notLead : greater ∉ lead := by
    obtain rfl | rfl := tag.isLead
    · exact List.not_mem_nil
    · decide
  have marked : text = (front ++ (spaces ++ other :: others ++ lead)) ++ greater :: after := by
    rw [cut]
    simp
  have notBefore : greater ∉ front ++ (spaces ++ other :: others ++ lead) := by
    rw [List.mem_append, List.mem_append, List.mem_append, not_or, not_or, not_or]
    exact ⟨opens.notMem, ⟨notMem_of_blank blank, absent⟩, notLead⟩
  obtain ⟨-, rfl⟩ := tag.unique marked notBefore
  have laterText : terminated (spaces ++ other :: others ++ (lead ++ greater :: after)) =
      spaces ++ other :: (others ++ terminated (lead ++ greater :: after)) := by
    rw [terminated_append, List.append_assoc]
    rfl
  have inside : (terminated (lead ++ greater :: after)).length <
      (other :: (others ++ terminated (lead ++ greater :: after))).length := by
    rw [List.length_cons, List.length_append]
    omega
  have insideToo : (terminated (lead ++ greater :: after)).length <
      (spaces ++ other :: (others ++ terminated (lead ++ greater :: after))).length := by
    rw [List.length_append]
    omega
  obtain ⟨more, next, parsed⟩ := tag.parseTag_reaches true pi si here
    opens cut (by rw [laterText]; omega) enough
  rw [parsed, laterText]
  cases more with
  | zero => rfl
  | succ more =>
    rw [attributeLoop_other true more next blank notBlank notName insideToo, if_pos rfl,
      attributeLoop_stuck more next notBlank notName inside]
    rfl

/-- The end of a tag is skipped where there are enough bytes. -/
theorem closeTag_granted (elem : Element) (final : List UInt8) {few : List UInt8}
    (adds : ∃ now index, state.xml.addElement pi si elem = some (now, index))
    (nonul : (0 : UInt8) ∉ few) (room : final.length ≤ few.length)
    (less : few.length + 1 < state.cur.p.length) :
    ∃ ei next, closeTag final state pi si (some (elem, terminated few)) = some (ei, next) ∧
      Ahead state.cur next.cur := by
  obtain ⟨now, index, done⟩ := adds
  have ended : NulEnded (terminated (few.drop final.length)) :=
    nulEnded_terminated fun member => nonul (List.mem_of_mem_drop member)
  obtain ⟨spaces, byte, behind, cut, -, -, skipped, later⟩ :=
    ended.scan isWhiteSpace (by decide)
  refine ⟨index, ⟨now, state.cur.passed (byte :: behind)⟩, ?_, later, ?_⟩
  · rw [closeTag, bind_of_some (advance_terminated room), skipWhiteSpace, bind_of_some skipped,
      bind_of_some done]
    rfl
  · have whole := congrArg List.length cut
    rw [length_terminated, List.length_drop, List.length_append] at whole
    change (byte :: behind).length < _
    omega

/-- Reading a tag ends: it is refused, or the pointer is moved on; or an attribute goes too far, or
what starts no name is skipped. -/
theorem TagAt.parseTag_cases (skips : Bool) (tag : TagAt text c rest pre lead behind)
    (here : state.cur.p = terminated text)
    (adds : ∀ elem, ∃ now index, state.xml.addElement pi si elem = some (now, index))
    (enough : text.length ≤ turns) :
    (∃ ei next, parseTag (attributeLoop skips turns) (lead ++ [greater]) state pi si =
        some (ei, next) ∧ (ei = -1 ∨ Ahead state.cur next.cur)) ∨
      RunsOut (lead.length + 1) text ∨
      (skips = true ∧ Blocks text (lead ++ greater :: behind)) := by
  obtain ⟨others, more, preCut, isName, ends⟩ := tag.name
  obtain ⟨elem, parsed⟩ := tag.parseTag_eq state here pi si preCut isName ends
    (attributeLoop skips turns)
  have whole : text = less :: c :: others ++ (more ++ (lead ++ greater :: behind)) := by
    rw [tag.front, tag.cut, preCut]
    simp
  have opens : Opens (less :: c :: others) (more ++ (lead ++ greater :: behind)) :=
    .name isName ends
  have nonul := tag.nonul
  rw [whole, List.mem_append, not_or] at nonul
  have absent := tag.absent
  rw [preCut, List.mem_append, not_or] at absent
  have size := congrArg List.length whole
  simp only [List.length_append, List.length_cons] at size
  have pSize : state.cur.p.length = text.length + 1 := by rw [here, length_terminated]
  have finalSize : (lead ++ [greater]).length = lead.length + 1 := List.length_append
  have enoughToo : (terminated (more ++ (lead ++ greater :: behind))).length < turns := by
    simp only [length_terminated, List.length_append, List.length_cons]
    omega
  obtain refused | ⟨next, stopped⟩ | ⟨next, few, passes, passed⟩ | ⟨skipped, blocks⟩ :=
    attributeLoop_cases skips turns elem opens nonul.2 rfl absent.2 tag.isLead enoughToo
      rfl
  · rw [parsed, refused]
    exact .inl ⟨-1, state, rfl, .inl rfl⟩
  · have nonulToo : (0 : UInt8) ∉ lead ++ greater :: behind := fun member =>
      nonul.2 (List.mem_append_right _ member)
    obtain ⟨ei, after, closed, ahead⟩ := closeTag_granted next (lead ++ [greater])
      (adds next) nonulToo (by simp) (by simp only [List.length_append, List.length_cons]; omega)
    rw [parsed, stopped, bind_of_some rfl, closed]
    exact .inl ⟨ei, after, rfl, .inr ahead⟩
  · rw [← whole] at passes
    by_cases short : few.length < lead.length + 1
    · exact .inr (.inl ⟨few, passes, short⟩)
    · obtain ⟨front, spaces, last, cut, opensToo, -, isAttribute, -⟩ := passes
      have nonulFew : (0 : UInt8) ∉ few := by
        intro member
        apply tag.nonul
        rw [cut]
        simp [member]
      have frontSize : 0 < front.length := by
        cases opensToo with
        | name => exact Nat.succ_pos _
        | attr opens blank isAttribute =>
          obtain ⟨head, tail, rfl, -⟩ := isAttribute.starts
          simp only [List.length_append, List.length_cons]
          omega
      have fewSize := congrArg List.length cut
      simp only [List.length_append] at fewSize
      obtain ⟨ei, after, closed, ahead⟩ := closeTag_granted next (lead ++ [greater]) (adds next) nonulFew (by omega) (by omega)
      rw [parsed, passed, bind_of_some rfl, closed]
      exact .inl ⟨ei, after, rfl, .inr ahead⟩
  · rw [← whole] at blocks
    exact .inr (.inr ⟨skipped, blocks⟩)

/-- A pointer to "<", the first character of a name and a ">" is at a tag. -/
theorem exists_tagAt (lead : List UInt8) {pointer behindToo : List UInt8} (nonul : (0 : UInt8) ∉ text)
    (here : terminated text = less :: c :: pointer) (starts : isNameStartChar c = true)
    {front : List UInt8} (cut : terminated text = front ++ (lead ++ greater :: behindToo))
    (absent : greater ∉ front) (isLead : lead = [] ∨ lead = [slash]) :
    ∃ rest pre behind, TagAt text c rest pre lead behind := by
  have notLead : greater ∉ lead := by
    obtain rfl | rfl := isLead
    · exact List.not_mem_nil
    · decide
  have member : greater ∈ text := by
    have within : greater ∈ terminated text := by
      rw [cut]
      simp
    rw [terminated, List.mem_append, List.mem_singleton] at within
    exact within.resolve_right (by decide)
  obtain ⟨before, behind, rfl, notBefore⟩ := List.eq_append_cons_of_mem member
  rw [← List.append_assoc] at cut
  have notFront : greater ∉ front ++ lead := by
    rw [List.mem_append, not_or]
    exact ⟨absent, notLead⟩
  have regroup : terminated (before ++ greater :: behind) =
      before ++ greater :: terminated behind := terminated_append before (greater :: behind)
  rw [regroup] at cut here
  obtain ⟨rfl, -⟩ := TextCuts.mark_unique cut notBefore notFront
  have isC : ∀ tail : List UInt8, lead ++ greater :: tail ≠ less :: c :: pointer := by
    intro tail same
    obtain rfl | rfl := isLead
    · exact absurd (List.cons.inj same).1 (by decide)
    · exact absurd (List.cons.inj same).1 (by decide)
  have notC : ∀ tail : List UInt8, lead ++ greater :: tail ≠ c :: pointer := by
    intro tail same
    obtain rfl | rfl := isLead
    · obtain ⟨rfl, -⟩ := List.cons.inj same
      revert starts
      decide
    · obtain ⟨rfl, -⟩ := List.cons.inj same
      revert starts
      decide
  rw [List.append_assoc] at here
  cases front with
  | nil => exact absurd here (isC _)
  | cons first front =>
    obtain ⟨rfl, hereToo⟩ := List.cons.inj here
    cases front with
    | nil => exact absurd hereToo (notC _)
    | cons second pre =>
      obtain ⟨rfl, -⟩ := List.cons.inj hereToo
      rw [List.mem_cons, List.mem_cons, not_or, not_or] at absent
      refine ⟨pre ++ (lead ++ greater :: behind), pre, behind, nonul, ?_, starts, rfl, absent.2.2,
        isLead⟩
      simp

/-- A start tag is read exactly when no attribute goes up to the end of the text. -/
theorem parseElementStag_returns (here : state.cur.p = terminated text)
    (nonul : (0 : UInt8) ∉ text) (isTag : isXmlElementStartTag state.cur.p = some true)
    (adds : ∀ elem, ∃ now index, state.xml.addElement pi si elem = some (now, index))
    (enough : text.length ≤ turns) :
    ((parseElementStag turns state pi si).isSome ↔ ¬ RunsOut 1 text) ∧
      ∀ ei next, parseElementStag turns state pi si = some (ei, next) →
        ei = -1 ∨ Ahead state.cur next.cur := by
  have ended := nulEnded_terminated nonul
  rw [← here] at ended
  obtain ⟨answer, asked, yes⟩ := answers_startTag state.cur.p ended
  rw [isTag] at asked
  obtain ⟨⟨c, rest, cut, -, starts⟩, q, found⟩ := yes (Option.some.inj asked).symm
  obtain ⟨front, byte, behind, -, parts, absent⟩ := startTag_cut cut found
  have regroup : terminated text = (front ++ [byte]) ++ ([] ++ greater :: behind) := by
    rw [← here, parts]
    simp
  obtain ⟨rest, pre, behind, tag⟩ :=
    exists_tagAt [] nonul (here.symm.trans cut) starts regroup absent (.inl rfl)
  obtain ⟨ei, next, done, ahead⟩ | ⟨few, passes, short⟩ | ⟨absurd, -⟩ :=
    tag.parseTag_cases false here adds enough
  · rw [List.nil_append] at done
    rw [parseElementStag, done]
    constructor
    · constructor
      · rintro - ⟨few, passes, short⟩
        have none := tag.parseTag_passes false pi si here passes short
          enough
        rw [List.nil_append, done] at none
        cases none
      · intro _
        rfl
    · intro eiToo nextToo same
      obtain ⟨rfl, rfl⟩ := Prod.mk.inj (Option.some.inj same)
      exact ahead
  · have none := tag.parseTag_passes false pi si here passes short enough
    rw [List.nil_append] at none
    rw [parseElementStag, none]
    constructor
    · constructor
      · intro absurd
        cases absurd
      · intro meets
        exact absurd ⟨few, passes, short⟩ meets
    · intro ei next absurd
      cases absurd
  · cases absurd

/-- The tag of an empty element is read exactly when nothing in it starts no name where a name is
to start, and no attribute goes on up to the last byte of the text or further. -/
theorem parseElementEmptyElemTag_returns (here : state.cur.p = terminated text)
    (nonul : (0 : UInt8) ∉ text) (isTag : isXmlElementEmptyElementTag state.cur.p = some true)
    (adds : ∀ elem, ∃ now index, state.xml.addElement pi si elem = some (now, index))
    (enough : text.length ≤ turns) :
    ((parseElementEmptyElemTag turns state pi si).isSome ↔ ¬ RunsOut 2 text ∧ ¬ Stuck text) ∧
      ∀ ei next, parseElementEmptyElemTag turns state pi si = some (ei, next) →
        ei = -1 ∨ Ahead state.cur next.cur := by
  have ended := nulEnded_terminated nonul
  rw [← here] at ended
  obtain ⟨answer, asked, yes⟩ := answers_emptyTag state.cur.p ended
  rw [isTag] at asked
  obtain ⟨⟨c, rest, cut, -, starts⟩, front, behind, parts, absent⟩ :=
    yes (Option.some.inj asked).symm
  obtain ⟨rest, pre, behind, tag⟩ := exists_tagAt [slash] nonul (here.symm.trans cut)
    starts (by rw [← here, parts]; rfl) absent (.inr rfl)
  have passesNone := fun (few : List UInt8) (passes : Passes text few) short =>
    tag.parseTag_passes true pi si here passes short enough
  have blocksNone := fun (after : List UInt8)
      (blocks : Blocks text ([slash] ++ greater :: after)) =>
    tag.parseTag_blocks pi si here blocks enough
  obtain ⟨ei, next, done, ahead⟩ | ⟨few, passes, short⟩ | ⟨-, blocks⟩ :=
    tag.parseTag_cases true here adds enough
  · rw [List.singleton_append] at done passesNone blocksNone
    rw [parseElementEmptyElemTag, done]
    constructor
    · constructor
      · intro _
        constructor
        · rintro ⟨few, passes, short⟩
          have none := passesNone few passes short
          rw [done] at none
          cases none
        · rintro ⟨after, blocks⟩
          have none := blocksNone after blocks
          rw [done] at none
          cases none
      · intro _
        rfl
    · intro eiToo nextToo same
      obtain ⟨rfl, rfl⟩ := Prod.mk.inj (Option.some.inj same)
      exact ahead
  · have none := passesNone few passes short
    rw [List.singleton_append] at none
    rw [parseElementEmptyElemTag, none]
    constructor
    · constructor
      · intro absurd
        cases absurd
      · intro meets
        exact absurd ⟨few, passes, short⟩ meets.1
    · intro ei next absurd
      cases absurd
  · have none := blocksNone behind blocks
    rw [List.singleton_append] at none
    rw [parseElementEmptyElemTag, none]
    constructor
    · constructor
      · intro absurd
        cases absurd
      · intro meets
        exact absurd ⟨behind, blocks⟩ meets.2
    · intro ei next absurd
      cases absurd

end Tags

end Ezcfg.XmlTree

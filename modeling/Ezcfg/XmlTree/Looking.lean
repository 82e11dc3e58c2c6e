import Ezcfg.XmlTree.Scanner

/-!
# What the parser sees

Each test of what stands in front of the parser has an answer for a text that ends with its
terminator. Where the answer is yes, the letters of the markup are in front, and its end is found.
-/

namespace Ezcfg.XmlTree

open Foundation

/-- A test has an answer for every text, and where this is yes a fact holds. -/
def Answers (test : List UInt8 → Option Bool) (fact : List UInt8 → Prop) : Prop :=
  ∀ p, NulEnded p → ∃ answer, test p = some answer ∧ (answer = true → fact p)

variable {letters final : List UInt8} {test : UInt8 → Bool}

/-- One of several tests is passed. -/
theorem answers_anyOf {tests : List (List UInt8 → Option Bool)} {fact : List UInt8 → Prop}
    (all : ∀ test ∈ tests, Answers test fact) : Answers (anyOf tests) fact := by
  intro p ended
  induction tests with
  | nil => exact ⟨false, rfl, fun absurd => by cases absurd⟩
  | cons test others inductionHypothesis =>
    rw [List.forall_mem_cons] at all
    obtain ⟨answer, asked, yes⟩ := all.1 p ended
    rw [anyOf, bind_of_some asked]
    cases answer with
    | true => exact ⟨true, rfl, yes⟩
    | false => exact inductionHypothesis all.2

/-- What follows from a fact is a fact. -/
theorem Answers.imp {test : List UInt8 → Option Bool} {fact other : List UInt8 → Prop}
    (answers : Answers test fact) (implied : ∀ p, NulEnded p → fact p → other p) :
    Answers test other := by
  intro p ended
  obtain ⟨answer, asked, yes⟩ := answers p ended
  exact ⟨answer, asked, fun here => implied p ended (yes here)⟩

/-- A test that has answers has them, whatever follows. -/
theorem Answers.known {test : List UInt8 → Option Bool} {fact : List UInt8 → Prop}
    (answers : Answers test fact) : Answers test fun _ => True :=
  answers.imp fun _ _ _ => trivial

/-- Letters that are in front. -/
theorem answers_startsWith (letters : List UInt8) (nonul : (0 : UInt8) ∉ letters) :
    Answers (startsWith letters) fun p => ∃ rest, p = letters ++ rest ∧ NulEnded rest := by
  intro p ended
  refine ⟨_, ended.startsWith nonul, ?_⟩
  intro here
  obtain ⟨rest, rfl⟩ := of_decide_eq_true here
  exact ⟨rest, rfl, ended.behind nonul⟩

/-- Letters that are in front, and a byte behind them. -/
theorem answers_startsThen (letters : List UInt8) (test : UInt8 → Bool)
    (nonul : (0 : UInt8) ∉ letters) :
    Answers (startsThen letters test) fun p =>
      ∃ c rest, p = letters ++ c :: rest ∧ NulEnded (c :: rest) ∧ test c = true := by
  intro p ended
  obtain ⟨answer, asked, yes⟩ := answers_startsWith letters nonul p ended
  rw [startsThen, bind_of_some asked]
  cases answer with
  | false => exact ⟨false, rfl, fun absurd => by cases absurd⟩
  | true =>
    obtain ⟨rest, rfl, endedToo⟩ := yes rfl
    obtain ⟨c, rest, rfl⟩ := endedToo.cons
    have read : (letters ++ c :: rest)[letters.length]? = some c := by simp
    rw [if_pos rfl, bind_of_some read]
    exact ⟨_, rfl, fun here => ⟨c, rest, rfl, endedToo, here⟩⟩

/-- Letters that are in front, a byte behind them, and an end. -/
theorem answers_startsAndEnds (letters : List UInt8) (test : UInt8 → Bool) (final : List UInt8)
    (nonul : (0 : UInt8) ∉ letters) (nonulFinal : (0 : UInt8) ∉ final)
    (some : final ≠ []) : Answers (startsAndEnds letters test final) fun p =>
      (∃ c rest, p = letters ++ c :: rest ∧ NulEnded (c :: rest) ∧ test c = true) ∧
        ∃ q, suffixFrom final p = Option.some q := by
  intro p ended
  obtain ⟨answer, asked, yes⟩ := answers_startsThen letters test nonul p ended
  rw [startsAndEnds, bind_of_some asked]
  cases answer with
  | false => exact ⟨false, rfl, fun absurd => by cases absurd⟩
  | true =>
    rw [if_pos rfl, bind_of_some (ended.strstr nonulFinal some)]
    refine ⟨_, rfl, ?_⟩
    intro found
    exact ⟨yes rfl, Option.isSome_iff_exists.mp found⟩

/-- A start tag is a name behind "<", and there is a ">". -/
theorem answers_startTag : Answers isXmlElementStartTag fun p =>
    (∃ c rest, p = less :: c :: rest ∧ NulEnded (c :: rest) ∧ isNameStartChar c = true) ∧
      ∃ q, suffixFrom [greater] p = some q :=
  answers_startsAndEnds _ _ _ (by decide) (by decide) (by decide)

/-- An end tag is a name behind "</". -/
theorem answers_endTag : Answers isXmlElementEndTag fun p =>
    ∃ c rest, p = [less, slash] ++ c :: rest ∧ NulEnded (c :: rest) ∧ isNameStartChar c = true := by
  have answers := answers_startsAndEnds [less, slash] isNameStartChar
    [greater] (by decide) (by decide) (by decide)
  exact answers.imp fun _ _ fact => fact.1

/-- The byte in front of a pointer. -/
theorem byteBefore_append (front : List UInt8) (byte : UInt8) (p : List UInt8) :
    byteBefore (front ++ byte :: p) p = some byte := by
  have place : (front ++ byte :: p).length - p.length - 1 = front.length := by
    rw [List.length_append, List.length_cons]
    omega
  rw [byteBefore, place, List.getElem?_append_right (Nat.le_refl _), Nat.sub_self]
  rfl

/-- A start tag is cut at the first ">"; there is a byte in front of it. -/
theorem startTag_cut {p q : List UInt8} {c : UInt8} {rest : List UInt8} (cut : p = less :: c :: rest)
    (found : suffixFrom [greater] p = some q) : ∃ front byte behind,
      q = greater :: behind ∧ p = front ++ byte :: greater :: behind ∧
        greater ∉ front ++ [byte] := by
  have split : ∀ p q, suffixFrom [greater] p = some q →
      ∃ front behind, q = greater :: behind ∧ p = front ++ greater :: behind ∧ greater ∉ front := by
    intro p
    induction p with
    | nil =>
      intro q absurd
      cases absurd
    | cons byte rest inductionHypothesis =>
      intro q found
      rw [suffixFrom] at found
      split at found
      · rename_i here
        obtain ⟨behind, cut⟩ := here
        obtain ⟨rfl, rfl⟩ := List.cons.inj cut
        obtain rfl := Option.some.inj found
        exact ⟨[], behind, rfl, rfl, List.not_mem_nil⟩
      · rename_i elsewhere
        obtain ⟨front, behind, rfl, rfl, absent⟩ := inductionHypothesis q found
        refine ⟨byte :: front, behind, rfl, rfl, ?_⟩
        rw [List.mem_cons, not_or]
        refine ⟨?_, absent⟩
        rintro rfl
        exact elsewhere ⟨front ++ greater :: behind, rfl⟩
  obtain ⟨front, behind, rfl, same, absent⟩ := split p q found
  obtain rfl | ⟨front, byte, rfl⟩ := List.eq_nil_or_concat front
  · rw [cut] at same
    exact absurd (List.cons.inj same).1 (by decide)
  · rw [List.concat_eq_append] at same absent
    exact ⟨front, byte, behind, rfl, by rw [same]; simp, absent⟩

/-- The tag of an empty element is a start tag with "/" in front of the first ">". -/
theorem answers_emptyTag : Answers isXmlElementEmptyElementTag fun p =>
    (∃ c rest, p = less :: c :: rest ∧ NulEnded (c :: rest) ∧ isNameStartChar c = true) ∧
      ∃ front behind, p = front ++ slash :: greater :: behind ∧ greater ∉ front := by
  intro p ended
  obtain ⟨answer, asked, yes⟩ := answers_startTag p ended
  rw [isXmlElementEmptyElementTag, bind_of_some asked]
  cases answer with
  | false => exact ⟨false, rfl, fun absurd => by cases absurd⟩
  | true =>
    obtain ⟨⟨c, rest, cut, endedToo, starts⟩, q, found⟩ := yes rfl
    rw [if_pos rfl, bind_of_some (ended.strstr (by decide) (by decide)), found]
    obtain ⟨front, byte, behind, rfl, same, absent⟩ := startTag_cut cut found
    have before : byteBefore p (greater :: behind) = some byte := by
      rw [same]
      exact byteBefore_append front byte _
    dsimp only
    rw [bind_of_some before]
    refine ⟨_, rfl, ?_⟩
    intro isSlash
    obtain rfl := of_decide_eq_true isSlash
    refine ⟨⟨c, rest, cut, endedToo, starts⟩, front, behind, same, ?_⟩
    exact fun member => absent (List.mem_append_left _ member)

/-- A pointer may be moved by a number of bytes. -/
def Skips (bytes : Nat) (p : List UInt8) : Prop :=
  ∃ q, advance bytes p = some q ∧ NulEnded q ∧ q.length + bytes = p.length

/-- A pointer may be moved over letters. -/
theorem skips_letters (letters : List UInt8) {rest : List UInt8} (ended : NulEnded rest) (nonul : (0 : UInt8) ∉ letters)
    (p : List UInt8) (cut : p = letters ++ rest) (endedToo : NulEnded p) :
    Skips letters.length p := by
  subst cut
  refine ⟨rest, endedToo.advance nonul, ended, ?_⟩
  rw [List.length_append]
  omega

/-- A pointer may be moved over a letter. -/
theorem skips_one {c : UInt8} {rest : List UInt8} (ended : NulEnded (c :: rest)) (nonzero : c ≠ 0) :
    Skips 1 (c :: rest) := by
  refine skips_letters [c] (ended.tail nonzero) ?_ _ rfl ended
  rw [List.mem_singleton]
  exact Ne.symm nonzero

/-- A byte that passes a test which the terminator does not pass is a letter. -/
theorem nonzero_of_test (test : UInt8 → Bool) {c : UInt8} (stops : test 0 = false) (passes : test c = true) : c ≠ 0 := by
  rintro rfl
  rw [stops] at passes
  cases passes

/-- A reference to an entity has a name and a semicolon. -/
theorem answers_entityReference : Answers isXmlEntityReference fun _ => True := by
  intro p ended
  obtain ⟨answer, asked, yes⟩ :=
    answers_startsThen [ampersand] isNameStartChar (by decide) p ended
  rw [isXmlEntityReference, bind_of_some asked]
  cases answer with
  | false => exact ⟨false, rfl, fun _ => trivial⟩
  | true =>
    obtain ⟨c, rest, rfl, endedToo, starts⟩ := yes rfl
    have nonzero : c ≠ 0 := nonzero_of_test _ (by decide) starts
    have letters : (0 : UInt8) ∉ [ampersand, c] := by
      rw [List.mem_cons, List.mem_singleton, not_or]
      exact ⟨by decide, Ne.symm nonzero⟩
    have moved : advance 2 ([ampersand] ++ c :: rest) = some rest :=
      @NulEnded.advance rest [ampersand, c] ended letters
    obtain ⟨passed, byte, behind, -, -, -, scanned, -⟩ :=
      (endedToo.tail nonzero).scan isNameChar (by decide)
    rw [if_pos rfl, bind_of_some moved, bind_of_some scanned]
    exact ⟨_, rfl, fun _ => trivial⟩

/-- Digits are read up to another byte. -/
theorem answers_digitsEnd (stops : test 0 = false) : Answers (digitsEnd test) fun _ => True := by
  intro p ended
  obtain ⟨byte, rest, rfl⟩ := ended.cons
  obtain ⟨passed, last, behind, -, -, -, scanned, -⟩ := ended.scan _ stops
  have read : readByte (byte :: rest) = some byte := rfl
  rw [digitsEnd, bind_of_some read]
  split
  · rw [bind_of_some scanned]
    exact ⟨_, rfl, fun _ => trivial⟩
  · exact ⟨false, rfl, fun _ => trivial⟩

/-- A reference to a character has digits and a semicolon. -/
theorem answers_characterReference : Answers isXmlCharacterReference fun _ => True := by
  intro p ended
  obtain ⟨answer, asked, yes⟩ := answers_startsWith [ampersand, 0x23] (by decide) p ended
  rw [isXmlCharacterReference, bind_of_some asked]
  cases answer with
  | false => exact ⟨false, rfl, fun _ => trivial⟩
  | true =>
    obtain ⟨rest, rfl, endedToo⟩ := yes rfl
    obtain ⟨c, behind, rfl⟩ := endedToo.cons
    have moved : advance 2 ([ampersand, 0x23] ++ c :: behind) = some (c :: behind) :=
      ended.advance (by decide)
    have read : readByte (c :: behind) = some c := rfl
    rw [if_pos rfl, bind_of_some moved, bind_of_some read]
    split
    · exact answers_digitsEnd (by decide) _ endedToo
    · split
      · rename_i isX
        obtain ⟨q, movedToo, later, -⟩ := skips_one endedToo (by rw [isX]; decide)
        rw [bind_of_some movedToo]
        exact answers_digitsEnd (by decide) _ later
      · exact ⟨false, rfl, fun _ => trivial⟩

/-- A section of character data ends, and has characters only. -/
theorem answers_cdataSection : Answers isXmlCdataSection fun _ => True := by
  intro p ended
  obtain ⟨answer, asked, yes⟩ :=
    answers_startsThen cdataStart isChar (by decide) p ended
  rw [isXmlCdataSection, bind_of_some asked]
  cases answer with
  | false => exact ⟨false, rfl, fun _ => trivial⟩
  | true =>
    obtain ⟨c, rest, rfl, endedToo, starts⟩ := yes rfl
    have nonzero : c ≠ 0 := nonzero_of_test _ (by decide) starts
    have letters : (0 : UInt8) ∉ cdataStart ++ [c] := by
      rw [List.mem_append, List.mem_singleton, not_or]
      exact ⟨by decide, Ne.symm nonzero⟩
    have regroup : cdataStart ++ c :: rest = (cdataStart ++ [c]) ++ rest := by simp
    have moved : advance 10 (cdataStart ++ c :: rest) = some rest := by
      rw [regroup] at ended ⊢
      exact ended.advance letters
    have later := endedToo.tail nonzero
    rw [if_pos rfl, bind_of_some moved, bind_of_some (later.strstr (by decide) (by decide))]
    cases suffixFrom cdataEnd rest with
    | none => exact ⟨false, rfl, fun _ => trivial⟩
    | some p => exact ⟨_, rfl, fun _ => trivial⟩

/-- A comment starts with four letters. -/
theorem answers_comment : Answers isXmlComment (Skips 4) := by
  intro p ended
  obtain ⟨answer, asked, yes⟩ := answers_startsWith commentStart (by decide) p ended
  rw [isXmlComment, bind_of_some asked]
  cases answer with
  | false => exact ⟨false, rfl, fun absurd => by cases absurd⟩
  | true =>
    obtain ⟨rest, same, endedToo⟩ := yes rfl
    have skips : Skips 4 p := skips_letters _ endedToo (by decide) p same ended
    rw [if_pos rfl, bind_of_some (ended.strstr (by decide) (by decide))]
    cases found : suffixFrom commentEnd p with
    | none => exact ⟨false, rfl, fun _ => skips⟩
    | some q =>
      obtain ⟨⟨front, cut⟩, behind, rfl⟩ := suffixFrom_parts found
      -- the text starts with "<", so there is a byte in front of the end
      obtain rfl | ⟨before, byte, rfl⟩ := List.eq_nil_or_concat front
      · rw [cut] at same
        exact absurd (List.cons.inj same).1 (by decide)
      · have read : byteBefore p (commentEnd ++ behind) = some byte := by
          rw [cut, List.concat_eq_append, List.append_assoc]
          exact byteBefore_append before byte _
        dsimp only
        rw [bind_of_some read]
        exact ⟨_, rfl, fun _ => skips⟩

/-- Letters in any case keep the end of the text. -/
theorem nulEnded_map_toLower {p : List UInt8} (ended : NulEnded p) : NulEnded (p.map toLower) := by
  induction ended with
  | terminator => exact .terminator
  | @letter byte p nonzero rest inductionHypothesis =>
    refine .letter ?_ inductionHypothesis
    rw [toLower]
    split
    · rename_i capital
      have small := UInt8.le_iff_toNat_le.mp capital.2
      intro zero
      have value := congrArg UInt8.toNat zero
      rw [UInt8.toNat_add] at value
      have large := UInt8.le_iff_toNat_le.mp capital.1
      simp only [UInt8.toNat_ofNat] at small large value
      omega
    · exact nonzero

/-- A processing instruction starts with two letters. -/
theorem answers_processingInstruction : Answers isXmlProcessingInstruction (Skips 2) := by
  intro p ended
  obtain ⟨answer, asked, yes⟩ :=
    answers_startsThen [less, question] isNameStartChar (by decide) p ended
  rw [isXmlProcessingInstruction, bind_of_some asked]
  cases answer with
  | false => exact ⟨false, rfl, fun absurd => by cases absurd⟩
  | true =>
    obtain ⟨c, rest, same, endedToo, -⟩ := yes rfl
    have skips : Skips 2 p := skips_letters _ endedToo (by decide) p same ended
    obtain ⟨q, moved, later, -⟩ := id skips
    obtain ⟨target, known, -⟩ := answers_startsThen [0x78, 0x6d, 0x6c]
      (fun c => isWhiteSpace c || c = question) (by decide) _
        (nulEnded_map_toLower later)
    rw [if_pos rfl, bind_of_some moved, isXmlTarget, bind_of_some known]
    split
    · exact ⟨false, rfl, fun _ => skips⟩
    · rw [bind_of_some (ended.strstr (by decide) (by decide))]
      exact ⟨_, rfl, fun _ => skips⟩

/-- A declaration is "<?xml" and white space. -/
theorem answers_declaration : Answers isXmlDeclaration fun p =>
    ∃ c rest, p = xmlDeclStart ++ c :: rest ∧ NulEnded (c :: rest) ∧ isWhiteSpace c = true := by
  have answers := answers_startsAndEnds xmlDeclStart isWhiteSpace
    questionEnd (by decide) (by decide) (by decide)
  exact answers.imp fun _ _ fact => fact.1

/-- A declaration of the document type starts with nine letters. -/
theorem answers_documentTypeDeclaration : Answers isXmlDocumentTypeDeclaration (Skips 9) := by
  have answers := answers_startsAndEnds doctypeStart isWhiteSpace
    [greater] (by decide) (by decide) (by decide)
  apply answers.imp
  rintro p ended ⟨⟨c, rest, same, endedToo, -⟩, -⟩
  exact skips_letters _ endedToo (by decide) p same ended

/-- White space is a letter. -/
theorem answers_space : Answers isXmlSpace (Skips 1) := by
  intro p ended
  obtain ⟨byte, rest, rfl⟩ := ended.cons
  have read : readByte (byte :: rest) = some byte := rfl
  rw [isXmlSpace, bind_of_some read]
  exact ⟨_, rfl, fun here => skips_one ended (nonzero_of_test _ (by decide) here)⟩

/-- An element starts with "<" and a letter. -/
theorem answers_element : Answers isXmlElement (Skips 2) := by
  have skips : ∀ p, NulEnded p → (∃ c rest, p = less :: c :: rest ∧ NulEnded (c :: rest) ∧
      isNameStartChar c = true) → Skips 2 p := by
    rintro p ended ⟨c, rest, same, endedToo, starts⟩
    have nonzero : c ≠ 0 := nonzero_of_test _ (by decide) starts
    refine skips_letters [less, c] (endedToo.tail nonzero) ?_ p same ended
    rw [List.mem_cons, List.mem_singleton, not_or]
    exact ⟨by decide, Ne.symm nonzero⟩
  apply answers_anyOf
  intro test member
  rw [List.mem_cons, List.mem_singleton] at member
  obtain rfl | rfl := member
  · exact answers_startTag.imp fun p ended fact => skips p ended fact.1
  · exact answers_emptyTag.imp fun p ended fact => skips p ended fact.1

/-- A reference is that of an entity or of a character. -/
theorem answers_reference : Answers isXmlReference fun _ => True := by
  apply answers_anyOf
  intro test member
  rw [List.mem_cons, List.mem_singleton] at member
  obtain rfl | rfl := member
  · exact answers_entityReference
  · exact answers_characterReference

/-- Whether there is markup of content has an answer. -/
theorem answers_contentMarkup : Answers isXmlContentMarkup fun _ => True := by
  apply answers_anyOf
  intro test member
  simp only [List.mem_cons, List.not_mem_nil, or_false] at member
  obtain rfl | rfl | rfl | rfl | rfl := member
  · exact answers_element.known
  · exact answers_reference
  · exact answers_cdataSection
  · exact answers_processingInstruction.known
  · exact answers_comment.known

/-- Whether there is markup has an answer. -/
theorem answers_markup : Answers isXmlMarkup fun _ => True := by
  apply answers_anyOf
  intro test member
  simp only [List.mem_cons, List.not_mem_nil, or_false] at member
  obtain rfl | rfl | rfl | rfl | rfl | rfl | rfl | rfl | rfl | rfl | rfl := member
  · exact answers_startTag.known
  · exact answers_endTag.known
  · exact answers_emptyTag.known
  · exact answers_entityReference
  · exact answers_characterReference
  · exact answers_comment.known
  · exact answers_cdataSection
  · exact answers_documentTypeDeclaration.known
  · exact answers_processingInstruction.known
  · exact answers_declaration.known
  · exact answers_declaration.known

/-- Whether there is anything of the kinds that may stand around the element has an answer. -/
theorem answers_misc : Answers isXmlMisc fun _ => True := by
  apply answers_anyOf
  intro test member
  simp only [List.mem_cons, List.not_mem_nil, or_false] at member
  obtain rfl | rfl | rfl := member
  · exact answers_comment.known
  · exact answers_processingInstruction.known
  · exact answers_space.known

end Ezcfg.XmlTree

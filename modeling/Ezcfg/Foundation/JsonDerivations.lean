import Ezcfg.Foundation.JsonSyntax

/-!
# Facts about every derivation

A derivation with one reader's tokens is a derivation with another's when the
tokens are the other's too; the printed text of a value derives it; removing the
whitespace outside strings from a derived text prints its value; and a property of
segments that holds of the tokens and is closed under concatenation holds of every
derived segment.
-/

namespace Foundation.Json

/-! ## Conditions on tokens -/

section All

variable {s n s' n' s'' n'' : List UInt8 → Prop}

mutual

/-- Two conditions on the tokens of a value give what follows from both. -/
theorem Value.all_combine (strings : ∀ content, s content → s' content → s'' content)
    (numbers : ∀ content, n content → n' content → n'' content)
    (value : Value) (first : value.All s n) (second : value.All s' n') : value.All s'' n'' := by
  match value with
  | .string content => exact strings content first second
  | .number content => exact numbers content first second
  | .literal _ => trivial
  | .object members => exact members.all_combine strings numbers first second
  | .array elements => exact elements.all_combine strings numbers first second

/-- Two conditions on the tokens of members give what follows from both. -/
theorem Members.all_combine (strings : ∀ content, s content → s' content → s'' content)
    (numbers : ∀ content, n content → n' content → n'' content)
    (members : Members) (first : members.All s n) (second : members.All s' n') :
    members.All s'' n'' := by
  match members with
  | .nil => trivial
  | .cons name value rest =>
    exact ⟨strings name first.1 second.1, value.all_combine strings numbers first.2.1 second.2.1,
      rest.all_combine strings numbers first.2.2 second.2.2⟩

/-- Two conditions on the tokens of elements give what follows from both. -/
theorem Elements.all_combine (strings : ∀ content, s content → s' content → s'' content)
    (numbers : ∀ content, n content → n' content → n'' content)
    (elements : Elements) (first : elements.All s n) (second : elements.All s' n') :
    elements.All s'' n'' := by
  match elements with
  | .nil => trivial
  | .cons value rest =>
    exact ⟨value.all_combine strings numbers first.1 second.1, rest.all_combine strings numbers first.2 second.2⟩

end

end All

/-! ## Changing the reader -/

section Transfer

variable {lex target : Lexicon} {string number : List UInt8 → Prop}

/-- A reader that takes the given tokens, wherever a value is followed by a
delimiter. -/
structure Takes (target : Lexicon) (string number : List UInt8 → Prop) : Prop where
  string : ∀ content, string content → target.string content
  number : ∀ content rest, number content → Delimited rest → target.number content rest
  literal : ∀ rest, Delimited rest → target.literal rest

mutual

/-- A derived value derives the same text with the tokens of the other reader. -/
theorem DerivesValue.transfer {value : Value} {input rest : List UInt8}
    (takes : Takes target string number) : DerivesValue lex value input rest →
    value.All string number → (value.Container ∨ Delimited rest) →
    DerivesValue target value input rest
  | .string _, tokens, _ => .string (takes.string _ tokens)
  | .number _, tokens, follows =>
    .number (takes.number _ _ tokens (follows.resolve_left not_false))
  | .literal _, _, follows => .literal (takes.literal _ (follows.resolve_left not_false))
  | .emptyObject spaces, _, _ => .emptyObject spaces
  | .object spaces inside, tokens, _ =>
    .object spaces (inside.transfer takes tokens (delimited_closeBrace _))
  | .emptyArray spaces, _, _ => .emptyArray spaces
  | .array spaces inside, tokens, _ =>
    .array spaces (inside.transfer takes tokens (delimited_closeBracket _))

/-- A derived pair derives the same text with the tokens of the other reader. -/
theorem DerivesPair.transfer {name : List UInt8} {value : Value} {input rest : List UInt8}
    (takes : Takes target string number) : DerivesPair lex name value input rest →
    string name → value.All string number → Delimited rest →
    DerivesPair target name value input rest
  | .pair _ spaces more inside, named, tokens, follows =>
    .pair (takes.string _ named) spaces more (inside.transfer takes tokens (.inr follows))

/-- Derived members derive the same text with the tokens of the other reader. -/
theorem DerivesMembers.transfer {members : Members} {input rest : List UInt8}
    (takes : Takes target string number) : DerivesMembers lex members input rest →
    members.All string number → Delimited rest → DerivesMembers target members input rest
  | .last spaces pair, tokens, follows =>
    .last spaces (pair.transfer takes tokens.1 tokens.2.1 (follows.after_spaces spaces))
  | .more spaces more pair further, tokens, follows =>
    .more spaces more
      (pair.transfer takes tokens.1 tokens.2.1 ((delimited_comma _).after_spaces spaces))
      (further.transfer takes tokens.2.2 follows)

/-- Derived elements derive the same text with the tokens of the other reader. -/
theorem DerivesElements.transfer {elements : Elements} {input rest : List UInt8}
    (takes : Takes target string number) : DerivesElements lex elements input rest →
    elements.All string number → Delimited rest → DerivesElements target elements input rest
  | .last spaces inside, tokens, follows =>
    .last spaces (inside.transfer takes tokens.1 (.inr (follows.after_spaces spaces)))
  | .more spaces more inside further, tokens, follows =>
    .more spaces more
      (inside.transfer takes tokens.1 (.inr ((delimited_comma _).after_spaces spaces)))
      (further.transfer takes tokens.2 follows)

end

/-- A derived text derives with the tokens of the other reader. -/
theorem DerivesText.transfer {value : Value} {text : List UInt8}
    (derives : DerivesText lex value text) (takes : Takes target string number)
    (tokens : value.All string number) : DerivesText target value text := by
  obtain ⟨ws, input, trailing, whole, spaces, after, container, inside⟩ := derives
  exact ⟨ws, input, trailing, whole, spaces, after, container,
    inside.transfer takes tokens (.inl container)⟩

end Transfer

/-! ## The printed text -/

section Print

variable {target : Lexicon} {string number : List UInt8 → Prop}

mutual

/-- The printed text of a value derives it. -/
theorem Value.print_derives (takes : Takes target string number) (value : Value)
    (rest : List UInt8) (tokens : value.All string number)
    (follows : value.Container ∨ Delimited rest) :
    DerivesValue target value (value.print ++ rest) rest := by
  match value with
  | .string content =>
    have derives : DerivesValue target (.string content) (quote :: (content ++ quote :: rest)) rest :=
      .string (takes.string content tokens)
    simpa [Value.print] using derives
  | .number content =>
    exact .number (takes.number content rest tokens (follows.resolve_left not_false))
  | .literal word => exact .literal (takes.literal rest (follows.resolve_left not_false))
  | .object members =>
    by_cases empty : members = .nil
    · subst empty
      exact .emptyObject spaces_nil
    · have inside := members.print_derives takes (closeBrace :: rest) tokens
        (delimited_closeBrace rest) empty
      simpa [Value.print] using DerivesValue.object spaces_nil inside
  | .array elements =>
    by_cases empty : elements = .nil
    · subst empty
      exact .emptyArray spaces_nil
    · have inside := elements.print_derives takes (closeBracket :: rest) tokens
        (delimited_closeBracket rest) empty
      simpa [Value.print] using DerivesValue.array spaces_nil inside

/-- The printed text of one or more members derives them. -/
theorem Members.print_derives (takes : Takes target string number) (members : Members)
    (rest : List UInt8) (tokens : members.All string number) (follows : Delimited rest)
    (present : members ≠ .nil) : DerivesMembers target members (members.print ++ rest) rest := by
  match members with
  | .nil => exact absurd rfl present
  | .cons name value .nil =>
    obtain ⟨named, inner, -⟩ := tokens
    have inside := value.print_derives takes rest inner (.inr follows)
    have derives := DerivesMembers.last spaces_nil
      (.pair (takes.string name named) spaces_nil spaces_nil inside)
    simpa [Members.print, Members.separator] using derives
  | .cons name value (.cons other following later) =>
    obtain ⟨named, inner, further⟩ := tokens
    have inside := value.print_derives takes
      (comma :: ((Members.cons other following later).print ++ rest)) inner
      (.inr (delimited_comma _))
    have tail := (Members.cons other following later).print_derives takes rest further follows
      nofun
    have derives := DerivesMembers.more spaces_nil spaces_nil
      (.pair (takes.string name named) spaces_nil spaces_nil inside) tail
    simpa [Members.print, Members.separator] using derives

/-- The printed text of one or more elements derives them. -/
theorem Elements.print_derives (takes : Takes target string number) (elements : Elements)
    (rest : List UInt8) (tokens : elements.All string number) (follows : Delimited rest)
    (present : elements ≠ .nil) :
    DerivesElements target elements (elements.print ++ rest) rest := by
  match elements with
  | .nil => exact absurd rfl present
  | .cons value .nil =>
    obtain ⟨inner, -⟩ := tokens
    have inside := value.print_derives takes rest inner (.inr follows)
    have derives := DerivesElements.last spaces_nil inside
    simpa [Elements.print, Elements.separator] using derives
  | .cons value (.cons following later) =>
    obtain ⟨inner, further⟩ := tokens
    have inside := value.print_derives takes
      (comma :: ((Elements.cons following later).print ++ rest)) inner
      (.inr (delimited_comma _))
    have tail := (Elements.cons following later).print_derives takes rest further follows nofun
    have derives := DerivesElements.more spaces_nil spaces_nil
      inside tail
    simpa [Elements.print, Elements.separator] using derives

end

/-- The printed text of an object or an array is a text that derives it. -/
theorem Value.print_derivesText (takes : Takes target string number) (value : Value)
    (tokens : value.All string number) (container : value.Container) :
    DerivesText target value value.print := by
  refine ⟨[], value.print, [], rfl, spaces_nil, spaces_nil, container, ?_⟩
  have derives := value.print_derives takes [] tokens (.inl container)
  rwa [List.append_nil] at derives

end Print

/-! ## Removing whitespace -/

/-- Remove the whitespace outside strings, where a string ends at the next
quotation mark. -/
def strip (inString : Bool) : List UInt8 → List UInt8
  | [] => []
  | byte :: rest =>
    if inString then byte :: strip (byte ≠ quote) rest
    else if isSpace byte then strip false rest
    else byte :: strip (byte = quote) rest

/-- Whitespace is removed. -/
theorem strip_spaces {ws : List UInt8} (spaces : Spaces ws) (rest : List UInt8) :
    strip false (ws ++ rest) = strip false rest := by
  induction ws with
  | nil => rfl
  | cons byte ws inductionHypothesis =>
    have space : isSpace byte := spaces byte (by simp)
    have others : Spaces ws := fun other member => spaces other (by simp [member])
    simp [strip, space, inductionHypothesis others]

/-- A string is kept up to its closing mark. -/
theorem strip_inside {content : List UInt8} (unquoted : quote ∉ content) (rest : List UInt8) :
    strip true (content ++ quote :: rest) = content ++ quote :: strip false rest := by
  induction content with
  | nil => simp [strip]
  | cons byte content inductionHypothesis =>
    obtain ⟨different, others⟩ := not_or.mp (List.mem_cons.not.mp unquoted)
    simp [strip, Ne.symm different, inductionHypothesis others]

/-- A string is kept. -/
theorem strip_string {content : List UInt8} (unquoted : quote ∉ content) (rest : List UInt8) :
    strip false (quote :: (content ++ quote :: rest)) =
      quote :: (content ++ quote :: strip false rest) := by
  have opened : ∀ tail, strip false (quote :: tail) = quote :: strip true tail := fun _ => rfl
  rw [opened, strip_inside unquoted]

/-- Neither whitespace nor a quotation mark. -/
def Plain (bytes : List UInt8) : Prop := ∀ byte ∈ bytes, ¬ isSpace byte ∧ byte ≠ quote

instance (bytes : List UInt8) : Decidable (Plain bytes) :=
  List.decidableBAll _ bytes

/-- Plain bytes are kept. -/
theorem strip_plain {bytes : List UInt8} (plain : Plain bytes) (rest : List UInt8) :
    strip false (bytes ++ rest) = bytes ++ strip false rest := by
  induction bytes with
  | nil => rfl
  | cons byte bytes inductionHypothesis =>
    obtain ⟨space, mark⟩ := plain byte (by simp)
    have others : Plain bytes := fun other member => plain other (by simp [member])
    simp [strip, space, mark, inductionHypothesis others]

/-- The letters of a literal are plain. -/
theorem literal_plain (word : Literal) : Plain word.bytes := by
  cases word <;> decide

/-- The marks of the grammar. -/
def marks : List UInt8 := [comma, colon, openBrace, closeBrace, openBracket, closeBracket]

/-- The marks of the grammar are kept. -/
theorem strip_mark {mark : UInt8} (member : mark ∈ marks) (rest : List UInt8) :
    strip false (mark :: rest) = mark :: strip false rest := by
  have plain : Plain marks := by decide
  have alone : Plain [mark] := fun byte single =>
    plain byte (List.mem_singleton.mp single ▸ member)
  exact strip_plain alone rest

section Strip

variable {lex : Lexicon}

/-- A reader whose strings have no quotation mark in them and whose numbers are
plain. -/
structure Simple (lex : Lexicon) : Prop where
  string : ∀ content, lex.string content → quote ∉ content
  number : ∀ content rest, lex.number content rest → Plain content

mutual

/-- The derived segment without its whitespace is the printed value. -/
theorem DerivesValue.strip_eq {value : Value} {input rest : List UInt8}
    (simple : Simple lex) : DerivesValue lex value input rest →
    strip false input = value.print ++ strip false rest
  | .string token => by
    rw [strip_string (simple.string _ token)]
    simp [Value.print]
  | .number token => strip_plain (simple.number _ _ token) _
  | .literal _ => strip_plain (literal_plain _) _
  | .emptyObject spaces => by
    rw [strip_mark (by simp [marks]), strip_spaces spaces, strip_mark (by simp [marks])]
    rfl
  | .object spaces inside => by
    rw [strip_mark (by simp [marks]), strip_spaces spaces, inside.strip_eq simple,
      strip_mark (by simp [marks])]
    simp [Value.print]
  | .emptyArray spaces => by
    rw [strip_mark (by simp [marks]), strip_spaces spaces, strip_mark (by simp [marks])]
    rfl
  | .array spaces inside => by
    rw [strip_mark (by simp [marks]), strip_spaces spaces, inside.strip_eq simple,
      strip_mark (by simp [marks])]
    simp [Value.print]

/-- The derived pair without its whitespace. -/
theorem DerivesPair.strip_eq {name : List UInt8} {value : Value} {input rest : List UInt8}
    (simple : Simple lex) : DerivesPair lex name value input rest →
    strip false input = quote :: (name ++ quote :: colon :: (value.print ++ strip false rest))
  | .pair token spaces more inside => by
    rw [strip_string (simple.string _ token), strip_spaces spaces, strip_mark (by simp [marks]),
      strip_spaces more, inside.strip_eq simple]

/-- The derived members without their whitespace. -/
theorem DerivesMembers.strip_eq {members : Members} {input rest : List UInt8}
    (simple : Simple lex) : DerivesMembers lex members input rest →
    strip false input = members.print ++ strip false rest
  | .last spaces pair => by
    simp [pair.strip_eq simple, strip_spaces spaces, Members.print, Members.separator]
  | .more spaces more pair further => by
    have separated := further.separator_eq
    rw [pair.strip_eq simple, strip_spaces spaces, strip_mark (by simp [marks]),
      strip_spaces more, further.strip_eq simple]
    simp [Members.print, separated]

/-- The derived elements without their whitespace. -/
theorem DerivesElements.strip_eq {elements : Elements} {input rest : List UInt8}
    (simple : Simple lex) : DerivesElements lex elements input rest →
    strip false input = elements.print ++ strip false rest
  | .last spaces inside => by
    simp [inside.strip_eq simple, strip_spaces spaces, Elements.print, Elements.separator]
  | .more spaces more inside further => by
    have separated := further.separator_eq
    rw [inside.strip_eq simple, strip_spaces spaces, strip_mark (by simp [marks]),
      strip_spaces more, further.strip_eq simple]
    simp [Elements.print, separated]

end

/-- A derived text without the whitespace outside its strings is the printed value. -/
theorem DerivesText.strip_eq {value : Value} {text : List UInt8} (simple : Simple lex)
    (derives : DerivesText lex value text) : strip false text = value.print := by
  obtain ⟨ws, input, trailing, rfl, spaces, after, -, inside⟩ := derives
  have nothing : strip false trailing = [] := by
    simpa [strip] using strip_spaces after []
  rw [strip_spaces spaces, inside.strip_eq simple, nothing, List.append_nil]

end Strip

/-! ## Properties of the derived segment -/

section Segments

variable {lex : Lexicon} {string number : List UInt8 → Prop}
  {segment : Prop → List UInt8 → Prop}

/-- A property of segments, with a condition on their tokens, that holds of the
tokens and is closed under concatenation. -/
structure Composes (lex : Lexicon) (string number : List UInt8 → Prop)
    (segment : Prop → List UInt8 → Prop) : Prop where
  append : ∀ p q s t, segment p s → segment q t → segment (p ∧ q) (s ++ t)
  nothing : segment True []
  mark : ∀ mark ∈ marks, segment True [mark]
  space : ∀ byte, isSpace byte → segment True [byte]
  literal : ∀ word : Literal, segment True word.bytes
  string : ∀ content, lex.string content → segment (string content) (quote :: (content ++ [quote]))
  number : ∀ content rest, lex.number content rest → segment (number content) content

namespace Composes

variable (composes : Composes lex string number segment)

include composes

/-- Whitespace has the property. -/
theorem spaces {ws : List UInt8} (spaces : Spaces ws) : segment True ws := by
  induction ws with
  | nil => exact composes.nothing
  | cons byte ws inductionHypothesis =>
    have others : Spaces ws := fun other member => spaces other (by simp [member])
    have both := composes.append _ _ _ _ (composes.space byte (spaces byte (by simp)))
      (inductionHypothesis others)
    simpa using both

/-- A segment with whitespace in front of it. -/
theorem after_spaces {p : Prop} {ws rest : List UInt8} (spaces : Spaces ws)
    (holds : segment p rest) : segment p (ws ++ rest) := by
  simpa using composes.append _ _ _ _ (composes.spaces spaces) holds

/-- A segment with whitespace behind it. -/
theorem before_spaces {p : Prop} {ws start : List UInt8} (spaces : Spaces ws)
    (holds : segment p start) : segment p (start ++ ws) := by
  simpa using composes.append _ _ _ _ holds (composes.spaces spaces)

/-- A segment with a mark in front of it. -/
theorem after_mark {p : Prop} {rest : List UInt8} (mark : UInt8) (member : mark ∈ marks)
    (holds : segment p rest) : segment p (mark :: rest) := by
  simpa using composes.append _ _ _ _ (composes.mark mark member) holds

/-- A segment with a mark behind it. -/
theorem before_mark {p : Prop} {start : List UInt8} (mark : UInt8) (member : mark ∈ marks)
    (holds : segment p start) : segment p (start ++ [mark]) := by
  simpa using composes.append _ _ _ _ holds (composes.mark mark member)

end Composes

mutual

/-- The segment a value derives has the property. -/
theorem DerivesValue.composed {value : Value} {input rest : List UInt8}
    (composes : Composes lex string number segment) : DerivesValue lex value input rest →
    ∃ derived, input = derived ++ rest ∧ segment (value.All string number) derived
  | .string token => ⟨_, by simp, composes.string _ token⟩
  | .number token => ⟨_, rfl, composes.number _ _ token⟩
  | .literal _ => ⟨_, rfl, composes.literal _⟩
  | .emptyObject spaces => by
    have closing := composes.after_spaces spaces (composes.mark closeBrace (by simp [marks]))
    exact ⟨_, by simp, composes.after_mark openBrace (by simp [marks]) closing⟩
  | .object spaces inside => by
    obtain ⟨derived, rfl, holds⟩ := inside.composed composes
    have closing := composes.after_spaces spaces
      (composes.before_mark closeBrace (by simp [marks]) holds)
    exact ⟨_, by simp, composes.after_mark openBrace (by simp [marks]) closing⟩
  | .emptyArray spaces => by
    have closing := composes.after_spaces spaces (composes.mark closeBracket (by simp [marks]))
    exact ⟨_, by simp, composes.after_mark openBracket (by simp [marks]) closing⟩
  | .array spaces inside => by
    obtain ⟨derived, rfl, holds⟩ := inside.composed composes
    have closing := composes.after_spaces spaces
      (composes.before_mark closeBracket (by simp [marks]) holds)
    exact ⟨_, by simp, composes.after_mark openBracket (by simp [marks]) closing⟩

/-- The segment a pair derives has the property. -/
theorem DerivesPair.composed {name : List UInt8} {value : Value} {input rest : List UInt8}
    (composes : Composes lex string number segment) : DerivesPair lex name value input rest →
    ∃ derived, input = derived ++ rest ∧
      segment (string name ∧ value.All string number) derived
  | .pair token spaces more inside => by
    obtain ⟨derived, rfl, holds⟩ := inside.composed composes
    have after := composes.after_spaces spaces
      (composes.after_mark colon (by simp [marks]) (composes.after_spaces more holds))
    exact ⟨_, by simp, composes.append _ _ _ _ (composes.string _ token) after⟩

/-- The segment that members derive has the property. -/
theorem DerivesMembers.composed {members : Members} {input rest : List UInt8}
    (composes : Composes lex string number segment) : DerivesMembers lex members input rest →
    ∃ derived, input = derived ++ rest ∧ segment (members.All string number) derived
  | .last spaces pair => by
    obtain ⟨derived, rfl, holds⟩ := pair.composed composes
    have closing := composes.before_spaces spaces holds
    exact ⟨_, (List.append_assoc ..).symm, by simpa [Members.All] using closing⟩
  | .more spaces more pair further => by
    obtain ⟨derived, rfl, holds⟩ := pair.composed composes
    obtain ⟨tail, rfl, others⟩ := further.composed composes
    have after := composes.after_spaces spaces
      (composes.after_mark comma (by simp [marks]) (composes.after_spaces more others))
    have whole := composes.append _ _ _ _ holds after
    refine ⟨derived ++ _, ?_, by simpa [Members.All, and_assoc] using whole⟩
    simp

/-- The segment that elements derive has the property. -/
theorem DerivesElements.composed {elements : Elements} {input rest : List UInt8}
    (composes : Composes lex string number segment) : DerivesElements lex elements input rest →
    ∃ derived, input = derived ++ rest ∧ segment (elements.All string number) derived
  | .last spaces inside => by
    obtain ⟨derived, rfl, holds⟩ := inside.composed composes
    have closing := composes.before_spaces spaces holds
    exact ⟨_, (List.append_assoc ..).symm, by simpa [Elements.All] using closing⟩
  | .more spaces more inside further => by
    obtain ⟨derived, rfl, holds⟩ := inside.composed composes
    obtain ⟨tail, rfl, others⟩ := further.composed composes
    have after := composes.after_spaces spaces
      (composes.after_mark comma (by simp [marks]) (composes.after_spaces more others))
    have whole := composes.append _ _ _ _ holds after
    refine ⟨derived ++ _, ?_, by simpa [Elements.All] using whole⟩
    simp

end

/-- A derived text has the property. -/
theorem DerivesText.composed {value : Value} {text : List UInt8}
    (composes : Composes lex string number segment) (derives : DerivesText lex value text) :
    segment (value.All string number) text := by
  obtain ⟨ws, input, trailing, rfl, spaces, after, -, inside⟩ := derives
  obtain ⟨derived, rfl, holds⟩ := inside.composed composes
  exact composes.after_spaces spaces (composes.before_spaces after holds)

/-- What a value derives ends with what is behind it. -/
theorem DerivesValue.suffix {value : Value} {input rest : List UInt8}
    (derives : DerivesValue lex value input rest) : ∃ derived, input = derived ++ rest := by
  have composes : Composes lex (fun _ => True) (fun _ => True) (fun _ _ => True) :=
    ⟨fun _ _ _ _ _ _ => trivial, trivial, fun _ _ => trivial, fun _ _ => trivial,
      fun _ => trivial, fun _ _ => trivial, fun _ _ _ => trivial⟩
  obtain ⟨derived, whole, -⟩ := derives.composed composes
  exact ⟨derived, whole⟩

end Segments

end Foundation.Json

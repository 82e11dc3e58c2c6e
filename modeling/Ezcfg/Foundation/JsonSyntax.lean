import Mathlib.Data.List.Basic

/-!
# JSON values, their texts, and the grammar with its tokens left open

A value is a string, a number, a literal, an object or an array. The grammar says
which texts derive a value, with whitespace wherever the grammar allows it. What a
string body, a number and the end of a literal look like is a parameter, so the
same grammar serves a strict and a lenient reader.

A derivation relates the text at its start to the text at its end. What is in
front of the end is the derived segment; tokens may look at what follows them.
-/

namespace Foundation.Json

/-- The double quotation mark. -/
abbrev quote : UInt8 := 0x22

/-- The reverse solidus. -/
abbrev backslash : UInt8 := 0x5c

/-- The comma. -/
abbrev comma : UInt8 := 0x2c

/-- The colon. -/
abbrev colon : UInt8 := 0x3a

/-- The left curly bracket. -/
abbrev openBrace : UInt8 := 0x7b

/-- The right curly bracket. -/
abbrev closeBrace : UInt8 := 0x7d

/-- The left square bracket. -/
abbrev openBracket : UInt8 := 0x5b

/-- The right square bracket. -/
abbrev closeBracket : UInt8 := 0x5d

/-- Space, tab, line feed and carriage return. -/
def isSpace (byte : UInt8) : Bool :=
  byte = 0x20 || byte = 0x09 || byte = 0x0a || byte = 0x0d

/-- What holds of every byte of a given list can be checked byte by byte. -/
theorem forall_bytes {p : UInt8 → Prop} [DecidablePred p] (bytes : List UInt8)
    (checked : bytes.all fun byte => decide (p byte)) : ∀ byte ∈ bytes, p byte := by
  simpa using checked

/-- The three literal names. -/
inductive Literal where
  | false
  | null
  | true
deriving DecidableEq, Repr

/-- The letters of a literal. -/
def Literal.bytes : Literal → List UInt8
  | .false => [0x66, 0x61, 0x6c, 0x73, 0x65]
  | .null => [0x6e, 0x75, 0x6c, 0x6c]
  | .true => [0x74, 0x72, 0x75, 0x65]

mutual

/-- A JSON value. Strings and numbers are kept as written. -/
inductive Value where
  | string (content : List UInt8)
  | number (content : List UInt8)
  | literal (word : Literal)
  | object (members : Members)
  | array (elements : Elements)

/-- The members of an object, in order. -/
inductive Members where
  | nil
  | cons (name : List UInt8) (value : Value) (rest : Members)

/-- The elements of an array, in order. -/
inductive Elements where
  | nil
  | cons (value : Value) (rest : Elements)

end

/-- Objects and arrays. -/
def Value.Container : Value → Prop
  | .object _ | .array _ => True
  | _ => False

/-- The comma in front of further members. -/
def Members.separator : Members → List UInt8
  | .nil => []
  | .cons .. => [comma]

/-- The comma in front of further elements. -/
def Elements.separator : Elements → List UInt8
  | .nil => []
  | .cons .. => [comma]

mutual

/-- The text of a value without any whitespace. -/
def Value.print : Value → List UInt8
  | .string content => quote :: (content ++ [quote])
  | .number content => content
  | .literal word => word.bytes
  | .object members => openBrace :: (members.print ++ [closeBrace])
  | .array elements => openBracket :: (elements.print ++ [closeBracket])

/-- The text of members, separated by commas. -/
def Members.print : Members → List UInt8
  | .nil => []
  | .cons name value rest =>
    quote :: (name ++ quote :: colon :: (value.print ++ (rest.separator ++ rest.print)))

/-- The text of elements, separated by commas. -/
def Elements.print : Elements → List UInt8
  | .nil => []
  | .cons value rest => value.print ++ (rest.separator ++ rest.print)

end

mutual

/-- Every string and name satisfies one condition and every number another. -/
def Value.All (string number : List UInt8 → Prop) : Value → Prop
  | .string content => string content
  | .number content => number content
  | .literal _ => True
  | .object members => members.All string number
  | .array elements => elements.All string number

/-- The condition on every member. -/
def Members.All (string number : List UInt8 → Prop) : Members → Prop
  | .nil => True
  | .cons name value rest =>
    string name ∧ value.All string number ∧ rest.All string number

/-- The condition on every element. -/
def Elements.All (string number : List UInt8 → Prop) : Elements → Prop
  | .nil => True
  | .cons value rest => value.All string number ∧ rest.All string number

end

/-- The tokens of a reader: string bodies, numbers in front of a text, and the
texts that may follow a literal. -/
structure Lexicon where
  string : List UInt8 → Prop
  number : List UInt8 → List UInt8 → Prop
  literal : List UInt8 → Prop

/-- Only whitespace. -/
def Spaces (ws : List UInt8) : Prop := ∀ byte ∈ ws, isSpace byte

mutual

/-- A value derives the text between a start and an end. -/
inductive DerivesValue (lex : Lexicon) : Value → List UInt8 → List UInt8 → Prop
  | string {content rest : List UInt8} (token : lex.string content) :
      DerivesValue lex (.string content) (quote :: (content ++ quote :: rest)) rest
  | number {content rest : List UInt8} (token : lex.number content rest) :
      DerivesValue lex (.number content) (content ++ rest) rest
  | literal {word : Literal} {rest : List UInt8} (token : lex.literal rest) :
      DerivesValue lex (.literal word) (word.bytes ++ rest) rest
  | emptyObject {ws rest : List UInt8} (spaces : Spaces ws) :
      DerivesValue lex (.object .nil) (openBrace :: (ws ++ closeBrace :: rest)) rest
  | object {members : Members} {ws input rest : List UInt8} (spaces : Spaces ws)
      (inside : DerivesMembers lex members input (closeBrace :: rest)) :
      DerivesValue lex (.object members) (openBrace :: (ws ++ input)) rest
  | emptyArray {ws rest : List UInt8} (spaces : Spaces ws) :
      DerivesValue lex (.array .nil) (openBracket :: (ws ++ closeBracket :: rest)) rest
  | array {elements : Elements} {ws input rest : List UInt8} (spaces : Spaces ws)
      (inside : DerivesElements lex elements input (closeBracket :: rest)) :
      DerivesValue lex (.array elements) (openBracket :: (ws ++ input)) rest

/-- A name, a colon and a value. -/
inductive DerivesPair (lex : Lexicon) : List UInt8 → Value → List UInt8 → List UInt8 → Prop
  | pair {name : List UInt8} {value : Value} {before after input rest : List UInt8}
      (token : lex.string name) (spaces : Spaces before) (more : Spaces after)
      (inside : DerivesValue lex value input rest) :
      DerivesPair lex name value
        (quote :: (name ++ quote :: (before ++ colon :: (after ++ input)))) rest

/-- One or more pairs with commas between them, and the whitespace after the last. -/
inductive DerivesMembers (lex : Lexicon) : Members → List UInt8 → List UInt8 → Prop
  | last {name : List UInt8} {value : Value} {ws input rest : List UInt8} (spaces : Spaces ws)
      (pair : DerivesPair lex name value input (ws ++ rest)) :
      DerivesMembers lex (.cons name value .nil) input rest
  | more {name : List UInt8} {value : Value} {next : Members}
      {before after input tail rest : List UInt8} (spaces : Spaces before) (more : Spaces after)
      (pair : DerivesPair lex name value input (before ++ comma :: (after ++ tail)))
      (further : DerivesMembers lex next tail rest) :
      DerivesMembers lex (.cons name value next) input rest

/-- One or more values with commas between them, and the whitespace after the last. -/
inductive DerivesElements (lex : Lexicon) : Elements → List UInt8 → List UInt8 → Prop
  | last {value : Value} {ws input rest : List UInt8} (spaces : Spaces ws)
      (inside : DerivesValue lex value input (ws ++ rest)) :
      DerivesElements lex (.cons value .nil) input rest
  | more {value : Value} {next : Elements} {before after input tail rest : List UInt8}
      (spaces : Spaces before) (more : Spaces after)
      (inside : DerivesValue lex value input (before ++ comma :: (after ++ tail)))
      (further : DerivesElements lex next tail rest) :
      DerivesElements lex (.cons value next) input rest

end

/-- An object or an array with whitespace around it. -/
def DerivesText (lex : Lexicon) (value : Value) (text : List UInt8) : Prop :=
  ∃ ws input trailing, text = ws ++ input ∧ Spaces ws ∧ Spaces trailing ∧ value.Container ∧
    DerivesValue lex value input trailing

/-- Derived members are at least one, so a comma goes in front of them. -/
theorem DerivesMembers.separator_eq {lex : Lexicon} {members : Members} {input rest : List UInt8}
    (derives : DerivesMembers lex members input rest) : members.separator = [comma] := by
  cases derives <;> rfl

/-- Derived elements are at least one, so a comma goes in front of them. -/
theorem DerivesElements.separator_eq {lex : Lexicon} {elements : Elements}
    {input rest : List UInt8} (derives : DerivesElements lex elements input rest) :
    elements.separator = [comma] := by
  cases derives <;> rfl

/-! ## Tokens and what follows them -/

/-- A text that starts with whitespace, a comma or a closing bracket. -/
def Delimited : List UInt8 → Prop
  | [] => False
  | byte :: _ => isSpace byte ∨ byte = comma ∨ byte = closeBrace ∨ byte = closeBracket

/-- Whitespace in front of a delimited text leaves it delimited. -/
theorem Delimited.after_spaces {ws rest : List UInt8} (spaces : Spaces ws)
    (delimited : Delimited rest) : Delimited (ws ++ rest) := by
  cases ws with
  | nil => exact delimited
  | cons byte ws => exact .inl (spaces byte (by simp))

/-- A comma delimits. -/
theorem delimited_comma (rest : List UInt8) : Delimited (comma :: rest) := .inr (.inl rfl)

/-- A right curly bracket delimits. -/
theorem delimited_closeBrace (rest : List UInt8) : Delimited (closeBrace :: rest) :=
  .inr (.inr (.inl rfl))

/-- A right square bracket delimits. -/
theorem delimited_closeBracket (rest : List UInt8) : Delimited (closeBracket :: rest) :=
  .inr (.inr (.inr rfl))

/-- No bytes are only whitespace. -/
theorem spaces_nil : Spaces [] := by simp [Spaces]

/-- Whitespace behind whitespace. -/
theorem Spaces.append {ws more : List UInt8} (spaces : Spaces ws) (further : Spaces more) :
    Spaces (ws ++ more) := by
  intro byte member
  exact (List.mem_append.mp member).elim (spaces byte) (further byte)

mutual

/-- The tokens of a derived value are tokens of the reader. -/
theorem DerivesValue.all {lex : Lexicon} {value : Value} {input rest : List UInt8} :
    DerivesValue lex value input rest →
      value.All lex.string (fun content => ∃ rest, lex.number content rest)
  | .string token => token
  | .number token => ⟨_, token⟩
  | .literal _ => trivial
  | .emptyObject _ => trivial
  | .object _ inside => inside.all
  | .emptyArray _ => trivial
  | .array _ inside => inside.all

/-- The tokens of a derived pair are tokens of the reader. -/
theorem DerivesPair.all {lex : Lexicon} {name : List UInt8} {value : Value}
    {input rest : List UInt8} : DerivesPair lex name value input rest →
    lex.string name ∧ value.All lex.string (fun content => ∃ rest, lex.number content rest)
  | .pair token _ _ inside => ⟨token, inside.all⟩

/-- The tokens of derived members are tokens of the reader. -/
theorem DerivesMembers.all {lex : Lexicon} {members : Members} {input rest : List UInt8} :
    DerivesMembers lex members input rest →
      members.All lex.string (fun content => ∃ rest, lex.number content rest)
  | .last _ pair => ⟨pair.all.1, pair.all.2, trivial⟩
  | .more _ _ pair further => ⟨pair.all.1, pair.all.2, further.all⟩

/-- The tokens of derived elements are tokens of the reader. -/
theorem DerivesElements.all {lex : Lexicon} {elements : Elements} {input rest : List UInt8} :
    DerivesElements lex elements input rest →
      elements.All lex.string (fun content => ∃ rest, lex.number content rest)
  | .last _ inside => ⟨inside.all, trivial⟩
  | .more _ _ inside further => ⟨inside.all, further.all⟩

end

end Foundation.Json

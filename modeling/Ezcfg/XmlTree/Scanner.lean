import Ezcfg.Foundation.Chunked
import Ezcfg.Foundation.Decimal
import Ezcfg.Foundation.NulEnded
import Ezcfg.XmlTree.Writer

/-!
# Looking at a document

The parser asks what stands in front of it before it reads it. A pointer into the document is
what can be read from there; reading behind that has no result. The bytes of a char are not
negative, and the letters are those of the C locale.
-/

namespace Ezcfg.XmlTree

open Foundation

/-- The carriage return. -/
abbrev carriageReturn : UInt8 := 0x0d

/-- "-" -/
abbrev dash : UInt8 := 0x2d

/-- "?" -/
abbrev question : UInt8 := 0x3f

/-- "!" -/
abbrev exclamation : UInt8 := 0x21

/-- ";" -/
abbrev semicolon : UInt8 := 0x3b

/-- "&" -/
abbrev ampersand : UInt8 := 0x26

/-- `is_white_space` -/
def isWhiteSpace (c : UInt8) : Bool := c = 0x20 || c = 0x09 || c = 0x0d || c = 0x0a

/-- `is_equal_sign` -/
def isEqualSign (c : UInt8) : Bool := c = equalSign

/-- `is_char` -/
def isChar (c : UInt8) : Bool := c = 0x09 || c = 0x0d || c = 0x0a || 0x1f < c

/-- `isalpha` -/
def isAlpha (c : UInt8) : Bool := (0x41 ≤ c && c ≤ 0x5a) || (0x61 ≤ c && c ≤ 0x7a)

/-- `is_name_start_char` -/
def isNameStartChar (c : UInt8) : Bool := isAlpha c || c = colon || c = 0x5f

/-- `is_name_char` -/
def isNameChar (c : UInt8) : Bool := isNameStartChar c || c = dash || c = 0x2e || Decimal.isDigit c

/-- `tolower` -/
def toLower (c : UInt8) : UInt8 := if 0x41 ≤ c ∧ c ≤ 0x5a then c + 0x20 else c

/-- `skip_white_space` -/
def skipWhiteSpace (p : List UInt8) : Option (List UInt8) := scan isWhiteSpace p

/-- Whether letters and then a byte that passes a test are in front; the byte is read only behind
the letters. -/
def startsThen (letters : List UInt8) (test : UInt8 → Bool) (buf : List UInt8) : Option Bool := do
  if ← startsWith letters buf then return test (← buf[letters.length]?)
  else return false

/-- Whether letters and then a byte that passes a test are in front, and an end is found. -/
def startsAndEnds (letters : List UInt8) (test : UInt8 → Bool) (final buf : List UInt8) :
    Option Bool := do
  if ← startsThen letters test buf then return (← strstr final buf).isSome
  else return false

/-- `is_xml_element_start_tag` -/
def isXmlElementStartTag : List UInt8 → Option Bool :=
  startsAndEnds [less] isNameStartChar [greater]

/-- `is_xml_element_end_tag` -/
def isXmlElementEndTag : List UInt8 → Option Bool :=
  startsAndEnds [less, slash] isNameStartChar [greater]

/-- `*(p-1)` for a pointer behind the front of a text. -/
def byteBefore (buf p : List UInt8) : Option UInt8 := buf[buf.length - p.length - 1]?

/-- `is_xml_element_empty_element_tag` -/
def isXmlElementEmptyElementTag (buf : List UInt8) : Option Bool := do
  if ← isXmlElementStartTag buf then
    match ← strstr [greater] buf with
    | none => return false
    | some p => return (← byteBefore buf p) = slash
  else return false

/-- `is_xml_entity_reference` -/
def isXmlEntityReference (buf : List UInt8) : Option Bool := do
  if ← startsThen [ampersand] isNameStartChar buf then
    let p ← scan isNameChar (← advance 2 buf)
    return (← readByte p) = semicolon
  else return false

/-- Whether there is a digit, and behind the digits a semicolon. -/
def digitsEnd (test : UInt8 → Bool) (p : List UInt8) : Option Bool := do
  if test (← readByte p) then
    let p ← scan test p
    return (← readByte p) = semicolon
  else return false

/-- `is_xml_character_reference` -/
def isXmlCharacterReference (buf : List UInt8) : Option Bool := do
  if ← startsWith [ampersand, 0x23] buf then
    let p ← advance 2 buf
    let c ← readByte p
    if Decimal.isDigit c then digitsEnd Decimal.isDigit p
    else if c = 0x78 then digitsEnd Chunked.isHexDigit (← advance 1 p)
    else return false
  else return false

/-- "<![CDATA[" -/
def cdataStart : List UInt8 := [less, exclamation, 0x5b, 0x43, 0x44, 0x41, 0x54, 0x41, 0x5b]

/-- "]]>" -/
def cdataEnd : List UInt8 := [0x5d, 0x5d, greater]

/-- `is_xml_cdata_section` -/
def isXmlCdataSection (buf : List UInt8) : Option Bool := do
  if ← startsThen cdataStart isChar buf then
    let start ← advance 10 buf
    match ← strstr cdataEnd start with
    | none => return false
    | some p =>
      -- the loop goes from `p` down to `buf+10`
      return (start.take (start.length - p.length + 1)).all isChar
  else return false

/-- "<?xml" -/
def xmlDeclStart : List UInt8 := [less, question, 0x78, 0x6d, 0x6c]

/-- "?>" -/
def questionEnd : List UInt8 := [question, greater]

/-- `is_xml_declaration` -/
def isXmlDeclaration : List UInt8 → Option Bool :=
  startsAndEnds xmlDeclStart isWhiteSpace questionEnd

/-- "<!DOCTYPE" -/
def doctypeStart : List UInt8 := [less, exclamation, 0x44, 0x4f, 0x43, 0x54, 0x59, 0x50, 0x45]

/-- `is_xml_document_type_declaration` -/
def isXmlDocumentTypeDeclaration : List UInt8 → Option Bool :=
  startsAndEnds doctypeStart isWhiteSpace [greater]

/-- `is_xml_text_declaration` -/
def isXmlTextDeclaration : List UInt8 → Option Bool :=
  startsAndEnds xmlDeclStart isWhiteSpace questionEnd

/-- "<!--" -/
def commentStart : List UInt8 := [less, exclamation, dash, dash]

/-- "-->" -/
def commentEnd : List UInt8 := [dash, dash, greater]

/-- `is_xml_comment` -/
def isXmlComment (buf : List UInt8) : Option Bool := do
  if ← startsWith commentStart buf then
    match ← strstr commentEnd buf with
    | none => return false
    | some p => return (← byteBefore buf p) ≠ dash
  else return false

/-- Whether "xml", in letters of any case, is in front, and white space or "?" behind it. -/
def isXmlTarget (p : List UInt8) : Option Bool :=
  startsThen [0x78, 0x6d, 0x6c] (fun c => isWhiteSpace c || c = question) (p.map toLower)

/-- `is_xml_processing_instruction` -/
def isXmlProcessingInstruction (buf : List UInt8) : Option Bool := do
  if ← startsThen [less, question] isNameStartChar buf then
    if ← isXmlTarget (← advance 2 buf) then return false
    else return (← strstr questionEnd buf).isSome
  else return false

/-- Whether one of the tests is passed; they are made in order. -/
def anyOf (tests : List (List UInt8 → Option Bool)) (buf : List UInt8) : Option Bool :=
  match tests with
  | [] => some false
  | test :: others => do
    if ← test buf then return true
    else anyOf others buf

/-- `is_white_space(*buf)` -/
def isXmlSpace (buf : List UInt8) : Option Bool := do return isWhiteSpace (← readByte buf)

/-- `is_xml_misc` -/
def isXmlMisc : List UInt8 → Option Bool :=
  anyOf [isXmlComment, isXmlProcessingInstruction, isXmlSpace]

/-- `is_xml_element` -/
def isXmlElement : List UInt8 → Option Bool :=
  anyOf [isXmlElementStartTag, isXmlElementEmptyElementTag]

/-- `is_xml_reference` -/
def isXmlReference : List UInt8 → Option Bool :=
  anyOf [isXmlEntityReference, isXmlCharacterReference]

/-- `is_xml_content_markup` -/
def isXmlContentMarkup : List UInt8 → Option Bool :=
  anyOf [isXmlElement, isXmlReference, isXmlCdataSection, isXmlProcessingInstruction, isXmlComment]

/-- `is_xml_markup` -/
def isXmlMarkup : List UInt8 → Option Bool :=
  anyOf [isXmlElementStartTag, isXmlElementEndTag, isXmlElementEmptyElementTag,
    isXmlEntityReference, isXmlCharacterReference, isXmlComment, isXmlCdataSection,
    isXmlDocumentTypeDeclaration, isXmlProcessingInstruction, isXmlDeclaration,
    isXmlTextDeclaration]

end Ezcfg.XmlTree

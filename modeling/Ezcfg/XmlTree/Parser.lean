import Ezcfg.Foundation.CallLog
import Ezcfg.XmlTree.Scanner

/-!
# Parsing a document

The parser goes over the document with a pointer and the length that it takes to be left. It reads
the prolog, and then the elements: a start tag is put into the array, and what is in the element
behind it, until the end tag. Tags of empty elements, start tags, character data and the
declaration of the document are read by scanners of their own; a run records the calls of these
four, and of the functions for elements and end tags, which assert that something is left. Bytes
that are written into the document are not read again. Loops have a number of turns, and without
turns there is no result.
-/

namespace Ezcfg.XmlTree

open Foundation

/-- `*pbuf` and `*plen` -/
structure Cursor where
  p : List UInt8
  len : Int

/-- The prolog part of `struct ezcfg_xml`. -/
structure Prolog where
  versionMajor : Nat
  versionMinor : Nat
  encodingNameIndex : Nat
  standalone : Bool
  deriving DecidableEq

/-- The prolog part in the structure of `ezcfg_xml_new`. -/
def prologNew : Prolog := ⟨0, 0, 0, false⟩

/-- `*pbuf = p; *plen = len - (p - buf)` -/
def Cursor.passed (cur : Cursor) (p : List UInt8) : Cursor :=
  ⟨p, toInt32 (cur.len - ((cur.p.length : Int) - p.length))⟩

/-- `*pbuf = p; *plen = len - (buf - p)`, which adds what it should subtract. -/
def Cursor.grown (cur : Cursor) (p : List UInt8) : Cursor :=
  ⟨p, toInt32 (cur.len + ((cur.p.length : Int) - p.length))⟩

/-- Skip some bytes, all up to an end and the end, and white space; without the end there is no
pointer. -/
def skipBehind (bytes : Nat) (final p : List UInt8) : Option (Option (List UInt8)) := do
  match ← strstr final (← advance bytes p) with
  | none => return none
  | some p => return some (← skipWhiteSpace (← advance final.length p))

/-- `parse_xml_comment`; where it refuses there is no cursor, and the old one stays. -/
def parseXmlComment (cur : Cursor) : Option (Option Cursor) := do
  return (← skipBehind 4 commentEnd cur.p).map cur.grown

/-- `parse_xml_processing_instruction` -/
def parseXmlProcessingInstruction (cur : Cursor) : Option (Option Cursor) := do
  return (← skipBehind 2 questionEnd cur.p).map cur.grown

/-- `parse_xml_prolog_doctypedecl` -/
def parseXmlPrologDoctypedecl (cur : Cursor) : Option (Option Cursor) := do
  let p ← skipWhiteSpace (← advance 9 cur.p)
  return (← skipBehind 0 [greater] p).map cur.grown

/-- `parse_xml_reference` -/
def parseXmlReference (cur : Cursor) : Option (Option Cursor) := do
  return (← skipBehind 0 [semicolon] cur.p).map cur.passed

/-- `parse_xml_cdata_section` -/
def parseXmlCdataSection (cur : Cursor) : Option (Option Cursor) := do
  return (← skipBehind 0 cdataEnd cur.p).map cur.passed

/-- `parse_xml_document_misc` -/
def parseXmlDocumentMisc (cur : Cursor) : Option (Option Cursor) := do
  if ← isXmlComment cur.p then parseXmlComment cur
  else if ← isXmlProcessingInstruction cur.p then parseXmlProcessingInstruction cur
  else if ← isXmlSpace cur.p then return some (cur.passed (← skipWhiteSpace cur.p))
  else return some cur

/-- `while (is_xml_misc(*pbuf))` with `parse_xml_document_misc` -/
def miscLoop (turns : Nat) (cur : Cursor) : Option (Option Cursor) :=
  match turns with
  | 0 => none
  | turns + 1 => do
    if ← isXmlMisc cur.p then
      match ← parseXmlDocumentMisc cur with
      | none => return none
      | some cur => miscLoop turns cur
    else return some cur

/-- `default_character_encoding_names`, from the index one on. -/
def encodingNames : List (List UInt8) :=
  let iso := [0x49, 0x53, 0x4f, dash]
  let latin := iso ++ [0x38, 0x38, 0x35, 0x39, dash]
  [[0x55, 0x54, 0x46, dash, 0x38],
    [0x55, 0x54, 0x46, dash, 0x31, 0x36],
    iso ++ [0x31, 0x30, 0x36, 0x34, 0x36, dash, 0x55, 0x43, 0x53, dash, 0x32],
    iso ++ [0x31, 0x30, 0x36, 0x34, 0x36, dash, 0x55, 0x43, 0x53, dash, 0x34],
    latin ++ [0x31], latin ++ [0x32], latin ++ [0x33], latin ++ [0x34], latin ++ [0x35],
    latin ++ [0x36], latin ++ [0x37], latin ++ [0x38], latin ++ [0x39], latin ++ [0x31, 0x30],
    iso ++ [0x32, 0x30, 0x32, 0x32, dash, 0x4a, 0x50],
    [0x53, 0x68, 0x69, 0x66, 0x74, 0x5f, 0x4a, 0x49, 0x53],
    [0x45, 0x55, 0x43, dash, 0x4a, 0x50],
    [0x47, 0x42, 0x32, 0x33, 0x31, 0x32]]

/-- The loop of `find_encoding_name_index`, from an index down. -/
def findEncodingName (encName : List UInt8) : Nat → Nat
  | 0 => 0
  | i + 1 =>
    if (encodingNames[i]?).map (·.map toLower) = some (encName.map toLower) then i + 1
    else findEncodingName encName i

/-- `find_encoding_name_index` -/
def findEncodingNameIndex (encName : List UInt8) : Nat :=
  findEncodingName encName encodingNames.length

/-- The loop over the digits of the version, which does not move the pointer. -/
def versionDigits (turns : Nat) (p : List UInt8) (minor : Nat) : Option Nat :=
  match turns with
  | 0 => none
  | turns + 1 => do
    let c ← readByte p
    if Decimal.isDigit c then versionDigits turns p (minor * 10 + Decimal.digitValue c)
    else return minor

/-- A name, the equal sign and what is read behind it. -/
def parseInfo (keyword : List UInt8)
    (value : Prolog → List UInt8 → Option (Prolog × List UInt8)) (prolog : Prolog)
    (p : List UInt8) : Option (Prolog × List UInt8) := do
  if ← startsWith keyword p then
    let p ← skipWhiteSpace (← advance keyword.length p)
    if isEqualSign (← readByte p) then
      let (prolog, p) ← value prolog (← skipWhiteSpace (← advance 1 p))
      return (prolog, ← skipWhiteSpace p)
    else return (prolog, p)
  else return (prolog, p)

/-- The value of the version. -/
def versionInfo (turns : Nat) (prolog : Prolog) (p : List UInt8) :
    Option (Prolog × List UInt8) := do
  if ← startsWith [0x31, 0x2e] p then
    let p ← advance 2 p
    let minor ← versionDigits turns p 0
    return ({ prolog with versionMajor := 1, versionMinor := minor }, p)
  else return (prolog, p)

/-- `while (*p != str_tag && p < buf+len) p++` -/
def toTag (cur : Cursor) (tag : UInt8) : List UInt8 → Option (List UInt8)
  | [] => none
  | c :: rest =>
    if c ≠ tag ∧ (cur.p.length : Int) - (c :: rest).length < cur.len then toTag cur tag rest
    else some (c :: rest)

/-- A value in quotation marks; the pointer stays at the closing one. -/
def quotedInfo (cur : Cursor) (change : Prolog → List UInt8 → Prolog) (prolog : Prolog)
    (p : List UInt8) : Option (Prolog × List UInt8) := do
  let tag ← readByte p
  if tag = quote ∨ tag = 0x27 then
    let start ← advance 1 p
    let p ← toTag cur tag start
    if (← readByte p) = tag then
      return (change prolog (start.take (start.length - p.length)), p)
    else return (prolog, p)
  else return (prolog, p)

/-- The value of the encoding. -/
def encodingInfo (cur : Cursor) : Prolog → List UInt8 → Option (Prolog × List UInt8) :=
  quotedInfo cur fun prolog name => { prolog with encodingNameIndex := findEncodingNameIndex name }

/-- The value of standalone. -/
def standaloneInfo (cur : Cursor) : Prolog → List UInt8 → Option (Prolog × List UInt8) :=
  quotedInfo cur fun prolog bool =>
    if bool = [0x79, 0x65, 0x73] then { prolog with standalone := true } else prolog

/-- "version" -/
def versionName : List UInt8 := [0x76, 0x65, 0x72, 0x73, 0x69, 0x6f, 0x6e]

/-- "encoding" -/
def encodingName : List UInt8 := [0x65, 0x6e, 0x63, 0x6f, 0x64, 0x69, 0x6e, 0x67]

/-- "standalone" -/
def standaloneName : List UInt8 := [0x73, 0x74, 0x61, 0x6e, 0x64, 0x61, 0x6c, 0x6f, 0x6e, 0x65]

/-- `parse_xml_prolog_xmldecl` -/
def parseXmlPrologXmldecl (turns : Nat) (prolog : Prolog) (cur : Cursor) :
    Option (Prolog × Option Cursor) := do
  let p ← skipWhiteSpace (← advance 5 cur.p)
  let (prolog, p) ← parseInfo versionName (versionInfo turns) prolog p
  let (prolog, p) ← parseInfo encodingName (encodingInfo cur) prolog p
  let (prolog, p) ← parseInfo standaloneName (standaloneInfo cur) prolog p
  return (prolog, (← skipBehind 0 questionEnd p).map cur.grown)

/-- `while (is_name_char(*p) && p < stop) p++` -/
def scanName (stop : List UInt8) : List UInt8 → Option (List UInt8)
  | [] => none
  | c :: rest =>
    if isNameChar c ∧ stop.length < (c :: rest).length then scanName stop rest
    else some (c :: rest)

/-- The bytes from a pointer to a later one. -/
def between (p q : List UInt8) : List UInt8 := p.take (p.length - q.length)

/-- The equal sign and the value of an attribute, and the pointer behind it; none where the format
is wrong. -/
def parseAttValue (elem : Element) (name p : List UInt8) :
    Option (Option (Element × List UInt8)) := do
  if isEqualSign (← readByte p) then
    let p ← skipWhiteSpace (← advance 1 p)
    let c ← readByte p
    if c = quote ∨ c = 0x27 then
      let value ← advance 1 p
      match ← strchr c value with
      | none => return none
      | some p =>
        let (added, elem) := elementAddAttribute elem name (between value p) attributeTail
        if added then return some (elem, ← advance 1 p)
        else return none
    else return none
  else return none

/-- An attribute that starts with the first character of a name, and the pointer behind it. -/
def parseAttribute (elem : Element) (name : List UInt8) : Option (Option (Element × List UInt8)) := do
  let nameEnd ← scan isNameChar (← advance 1 name)
  let p ← if isWhiteSpace (← readByte nameEnd) then advance 1 nameEnd else some nameEnd
  parseAttValue elem (between name nameEnd) p

/-- The loop over the attributes of a tag. What starts no name is refused, or it is skipped, which
does not move the pointer. -/
def attributeLoop (skips : Bool) (turns : Nat) (stop : List UInt8) (elem : Element)
    (p : List UInt8) : Option (Option (Element × List UInt8)) :=
  match turns with
  | 0 => none
  | turns + 1 =>
    if stop.length < p.length then do
      let p ← skipWhiteSpace p
      if isNameStartChar (← readByte p) then
        match ← parseAttribute elem p with
        | none => return none
        | some (elem, p) => attributeLoop skips turns stop elem p
      else if skips then attributeLoop skips turns stop elem p
      else return none
    else some (some (elem, p))

/-- The array while it is filled, and the cursor. -/
structure State where
  xml : Xml
  cur : Cursor

/-- The end of a tag is skipped, and the element is put into the array; minus one is returned where
the attributes were refused. -/
def closeTag (final : List UInt8) (state : State) (pi si : Int) :
    Option (Element × List UInt8) → Option (Int × State)
  | none => some (-1, state)
  | some (elem, p) => do
    let p ← skipWhiteSpace (← advance final.length p)
    let (xml, ei) ← state.xml.addElement pi si elem
    return (ei, ⟨xml, state.cur.passed p⟩)

/-- A tag with an end, whose attributes are read by a loop. -/
def parseTag (loop : List UInt8 → Element → List UInt8 → Option (Option (Element × List UInt8)))
    (final : List UInt8) (state : State) (pi si : Int) : Option (Int × State) := do
  let name ← advance 1 state.cur.p
  match ← strstr final name with
  | none => return (-1, state)
  | some stop =>
    let p ← scanName stop (← advance 1 name)
    closeTag final state pi si (← loop stop (elementNew (between name p) none) p)

/-- `parse_element_empty_elem_tag`: the index of the element, or minus one. -/
def parseElementEmptyElemTag (turns : Nat) : State → Int → Int → Option (Int × State) :=
  parseTag (attributeLoop true turns) [slash, greater]

/-- `parse_element_stag` -/
def parseElementStag (turns : Nat) : State → Int → Int → Option (Int × State) :=
  parseTag (attributeLoop false turns) [greater]

/-- `while (is_xml_markup(p) == false) p++` -/
def scanMarkup : List UInt8 → Option (List UInt8)
  | [] => none
  | c :: rest => do
    if ← isXmlMarkup (c :: rest) then return c :: rest
    else scanMarkup rest

/-- `parse_xml_char_data` for the element in a slot. -/
def parseXmlCharData (state : State) (pi : Nat) : Option (Bool × State) := do
  match ← state.xml.root[pi]? with
  | none => return (false, state)
  | some elem =>
    let p ← scanMarkup state.cur.p
    let content := (between state.cur.p p).takeWhile (· ≠ 0)
    let xml := state.xml.modify elem fun here => { here with content := some content }
    return (true, ⟨xml, state.cur.passed (← skipWhiteSpace p)⟩)

/-- `parse_element_etag`, behind the assertion about the length: the index that is returned. -/
def parseElementEtag (state : State) (ei : Nat) : Option (Int × State) := do
  ensure (ei < state.xml.numElements)
  let slot ← state.xml.root[ei]?
  let name ← advance 2 state.cur.p
  match ← strstr [greater] name with
  | none => return (-1, state)
  | some final =>
    let p ← scanName final (← advance 1 name)
    let elem ← slot
    let here ← state.xml.elements[elem]?
    if fullName here.namePrefix here.name = between name p then
      let p ← skipWhiteSpace (← advance 1 final)
      return (here.etagIndex, ⟨state.xml, state.cur.passed p⟩)
    else return (-1, state)

/-- The scanners whose calls a run records, with what is in front of the terminator. -/
inductive Call where
  | xmldecl (text : List UInt8)
  | element (len : Int)
  | emptyElemTag (text : List UInt8)
  | stag (text : List UInt8)
  | charData (text : List UInt8)
  | etag (len : Int)
  deriving DecidableEq

/-- The text in front of the terminator. -/
def Cursor.text (cur : Cursor) : List UInt8 := cur.p.takeWhile (· ≠ 0)

/-- A part of the content that is not an element moves the cursor; the index stays. -/
def skipPart (state : State) (ci : Int) (part : Cursor → Option (Option Cursor)) :
    Logged Call (Option Int × State) := do
  match ← Logged.lift (part state.cur) with
  | none => return (none, state)
  | some cur => return (some ci, { state with cur := cur })

/-- One part of the content: the index of the last element, or none where minus one is returned.
Elements are parsed by a function that is given. -/
def parsePart (parseElement : State → Int → Int → Logged Call (Int × State)) (state : State)
    (pi : Nat) (ci : Int) : Logged Call (Option Int × State) := do
  if ← Logged.lift (isXmlElement state.cur.p) then
    let (ci, state) ← parseElement state pi ci
    return (if ci = -1 then none else some ci, state)
  else if ← Logged.lift (isXmlReference state.cur.p) then skipPart state ci parseXmlReference
  else if ← Logged.lift (isXmlCdataSection state.cur.p) then
    skipPart state ci parseXmlCdataSection
  else if ← Logged.lift (isXmlProcessingInstruction state.cur.p) then
    skipPart state ci parseXmlProcessingInstruction
  else if ← Logged.lift (isXmlComment state.cur.p) then skipPart state ci parseXmlComment
  else return (some ci, state)

/-- Character data is read where there is no markup. -/
def charDataOr (state : State) (pi : Nat) : Logged Call (Bool × State) := do
  if ← Logged.lift (isXmlMarkup state.cur.p) then return (true, state)
  else Logged.call (.charData state.cur.text) (parseXmlCharData state pi)

/-- The loop of `parse_element_content`. The bool that comes back for character data is compared
with minus one, and is not looked at. -/
def contentLoop (parseElement : State → Int → Int → Logged Call (Int × State)) (turns : Nat)
    (state : State) (pi : Nat) (ci : Int) : Logged Call (Int × State) :=
  match turns with
  | 0 => Logged.lift none
  | turns + 1 => do
    if ← Logged.lift (isXmlContentMarkup state.cur.p) then
      match ← parsePart parseElement state pi ci with
      | (none, state) => return (-1, state)
      | (some ci, state) =>
        let (_, state) ← charDataOr state pi
        contentLoop parseElement turns state pi ci
    else return ((pi : Int), state)

/-- `parse_element_content` -/
def parseElementContent (parseElement : State → Int → Int → Logged Call (Int × State))
    (turns : Nat) (state : State) (pi : Nat) (si : Int) : Logged Call (Int × State) := do
  let (done, state) ← charDataOr state pi
  if done then contentLoop parseElement turns state pi si
  else return (-1, state)

/-- `parse_element_stag_content_etag`, behind the assertion. -/
def parseElementStagContentEtag
    (parseElement : State → Int → Int → Logged Call (Int × State)) (turns : Nat) (state : State)
    (pi si : Int) : Logged Call (Int × State) := do
  let (stagIndex, state) ←
    Logged.call (.stag state.cur.text) (parseElementStag turns state pi si)
  if stagIndex = -1 then return (-1, state)
  else
    let (content, state) ←
      parseElementContent parseElement turns state stagIndex.toNat (-1)
    if content = -1 then return (-1, state)
    else if ← Logged.lift (isXmlElementEndTag state.cur.p) then
      Logged.call (.etag state.cur.len) (ensure (0 < state.cur.len))
      let (etag, state) ← Logged.lift (parseElementEtag state stagIndex.toNat)
      return (if etag = -1 then -1 else stagIndex, state)
    else return (-1, state)

/-- `parse_xml_document_element`: the index of the element, or minus one. -/
def parseXmlDocumentElement (turns : Nat) (state : State) (pi si : Int) :
    Logged Call (Int × State) :=
  match turns with
  | 0 => Logged.lift none
  | turns + 1 => do
    Logged.call (.element state.cur.len) (ensure (0 < state.cur.len))
    if ← Logged.lift (isXmlElementStartTag state.cur.p) then
      if ← Logged.lift (isXmlElementEmptyElementTag state.cur.p) then
        Logged.call (.emptyElemTag state.cur.text) (parseElementEmptyElemTag turns state pi si)
      else parseElementStagContentEtag (parseXmlDocumentElement turns) turns state pi si
    else return (-1, state)

/-- The declaration is read where there is one. -/
def declarationOr (turns : Nat) (prolog : Prolog) (cur : Cursor) :
    Logged Call (Prolog × Option Cursor) := do
  if ← Logged.lift (isXmlDeclaration cur.p) then
    Logged.call (.xmldecl cur.text) (parseXmlPrologXmldecl turns prolog cur)
  else return (prolog, some cur)

/-- The declaration of the document type and what stands behind it are read where there is one. -/
def doctypeOr (turns : Nat) (cur : Cursor) : Option (Option Cursor) := do
  if ← isXmlDocumentTypeDeclaration cur.p then
    match ← parseXmlPrologDoctypedecl cur with
    | none => return none
    | some cur => miscLoop turns cur
  else return some cur

/-- `parse_xml_document_prolog` -/
def parseXmlDocumentProlog (turns : Nat) (prolog : Prolog) (cur : Cursor) :
    Logged Call (Prolog × Option Cursor) := do
  Logged.lift (ensure (0 < cur.len))
  match ← declarationOr turns prolog cur with
  | (prolog, none) => return (prolog, none)
  | (prolog, some cur) =>
    match ← Logged.lift (miscLoop turns cur) with
    | none => return (prolog, none)
    | some cur => return (prolog, ← Logged.lift (doctypeOr turns cur))

/-- `ezcfg_xml_normalize_document`: the text that is left in front of the terminator. -/
def normalizeDocument : List UInt8 → List UInt8
  | [] => []
  | [c] => if c = carriageReturn then [newLine] else [c]
  | c :: next :: rest =>
    if c = carriageReturn then
      if next = newLine then newLine :: normalizeDocument rest
      else newLine :: normalizeDocument (next :: rest)
    else c :: normalizeDocument (next :: rest)

/-- `ezcfg_xml_parse`, for a text and the bytes that follow the terminator of the normalised
document. The length is only asserted to be positive. -/
def xmlParse (turns : Nat) (xml : Xml) (prolog : Prolog) (text behind : List UInt8) (len : Int) :
    Logged Call (Bool × Xml × Prolog) := do
  Logged.lift (ensure (0 < len))
  let (xml, _) ← Logged.lift xml.deleteElements
  let buf := normalizeDocument text
  if buf.length < 1 then return (false, xml, prolog)
  else
    match ← parseXmlDocumentProlog turns prolog ⟨terminated buf ++ behind, buf.length⟩ with
    | (prolog, none) => return (false, xml, prolog)
    | (prolog, some cur) =>
      let (ei, state) ← parseXmlDocumentElement turns ⟨xml, cur⟩ (-1) (-1)
      if ei = -1 then return (false, state.xml, prolog)
      else
        let misc ← Logged.lift (miscLoop turns state.cur)
        return (misc.isSome, state.xml, prolog)

end Ezcfg.XmlTree

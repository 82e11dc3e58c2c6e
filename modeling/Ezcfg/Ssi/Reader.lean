import Ezcfg.Foundation.Lines
import Ezcfg.Foundation.TextCuts
import Ezcfg.Http.Handle

/-!
# The reader of pages with server side includes

A call reads a line of the page into a buffer, behind what was left of the line before, or a line
of what a directive stands for. What is in front of a directive is returned, and what is behind it
is left for the call that follows the directive. Memory is granted, files are read without errors,
and a line that is read into less than two bytes has no result. A length is not larger than an int.
-/

namespace Ezcfg.Ssi

open Foundation TextCuts
open Http (ascii)

/-- The bytes of a string or of a file. -/
abbrev Text := List UInt8

/-- `SSI_STARTING_SEQUENCE` -/
def startingSequence : Text := ascii "<!--#"

/-- `SSI_ENDING_SEQUENCE` -/
def endingSequence : Text := ascii "-->"

/-- '"' -/
abbrev quote : UInt8 := 0x22

/-- '\' -/
abbrev backslash : UInt8 := 0x5c

/-- ' ' -/
abbrev space : UInt8 := 0x20

/-- The handlers of directives. -/
inductive Handler where
  | includeHandler
  | execHandler
  | echoHandler

/-- `struct ssi_directive_entry` -/
structure SsiDirectiveEntry where
  elem : Text
  attrs : List Text
  handler : Handler

/-- The entry of `include`. -/
def includeEntry : SsiDirectiveEntry := ⟨ascii "include", [ascii "virtual"], .includeHandler⟩

/-- `supported_directives` -/
def supportedDirectives : List SsiDirectiveEntry :=
  [includeEntry, ⟨ascii "exec", [ascii "cmd"], .execHandler⟩,
    ⟨ascii "echo", [ascii "var"], .echoHandler⟩]

/-- `struct ezcfg_ssi`: what is left of the page, and of the file of a directive. -/
structure Reader where
  documentRoot : Text
  fp : Text
  remainingData : Option Text
  directiveEntry : Option SsiDirectiveEntry
  directiveValues : List Text
  directiveData : Option Text

/-- What a reader finds: the files that can be read, and the values in the nvram. -/
structure Surroundings where
  files : Text → Option Text
  nvram : Text → Option Text

/-- The reader of a page that was opened. -/
def opened (documentRoot page : Text) : Reader := ⟨documentRoot, page, none, none, [], none⟩

/-! ## Parsing a directive -/

/-- What is behind a text that stands at the front. -/
def strip (wanted text : Text) : Option Text :=
  if wanted <+: text then some (text.drop wanted.length) else none

/-- The loop to the quote that ends a value; it is not behind a backslash. -/
def scanValue : UInt8 → Text → Option (Text × Text)
  | _, [] => none
  | before, byte :: rest =>
    if byte = quote ∧ before ≠ backslash then some ([], rest)
    else (scanValue byte rest).map fun (value, behind) => (byte :: value, behind)

/-- `remove_escape_backslash` -/
def removeEscapeBackslash : Text → Text
  | [] => []
  | [byte] => [byte]
  | byte :: next :: rest =>
    if byte = backslash ∧ next = quote then next :: removeEscapeBackslash rest
    else byte :: removeEscapeBackslash (next :: rest)

/-- The values of the attributes of a directive, each between quotes. -/
def parseAttrs : List Text → Text → Option (List Text)
  | [], _ => some []
  | attr :: attrs, p => do
    let p ← strip (attr ++ [0x3d, quote]) (p.dropWhile (· = space))
    let (value, p) ← scanValue quote p
    let values ← parseAttrs attrs p
    return removeEscapeBackslash value :: values

/-- A directive is parsed by an entry. -/
def parseEntry (buf : Text) (entry : SsiDirectiveEntry) :
    Option (SsiDirectiveEntry × List Text) := do
  let p ← strip (entry.elem ++ [space]) buf
  let values ← parseAttrs entry.attrs p
  return (entry, values)

/-- `ssi_parse_directive_entry` -/
def ssiParseDirectiveEntry (buf : Text) : Option (SsiDirectiveEntry × List Text) :=
  supportedDirectives.findSome? (parseEntry buf)

/-! ## Reading -/

/-- `fgets`: a line, as far as there is room, and what is left of the file; at the end of the file
there is no line. -/
def fgets (size : Nat) (file : Text) : Option (Option (Text × Text)) := do
  ensure (2 ≤ size)
  return if file = [] then none else some (readLine (size - 1) file)

/-- The string at the front of a buffer. -/
def cstring (buf : Text) : Text := buf.takeWhile (· ≠ 0)

/-- A line of the file of a directive is read. -/
def readData (size : Nat) (ssi : Reader) (fp : Text) : Option (Int × Text × Reader) := do
  match ← fgets size fp with
  | none => return (0, [], { ssi with directiveData := some fp })
  | some (line, fp) =>
    return ((cstring line).length, cstring line, { ssi with directiveData := some fp })

/-- The file of an `include` directive. -/
def includeFile (around : Surroundings) (documentRoot value : Text) : Option Text :=
  around.files (documentRoot ++ value)

/-- The file that is written for an `echo` directive. -/
def echoFile (around : Surroundings) (value : Text) : Option Text :=
  match strip (ascii "nvram.") value with
  | some name => around.nvram name
  | none => some []

/-- The handlers that read a file, which they open when this was not done. -/
def fileHandler (file : Text → Option Text) (size : Nat) (ssi : Reader) :
    Option (Int × Text × Reader) := do
  match ssi.directiveData with
  | some fp => readData size ssi fp
  | none =>
    let value ← ssi.directiveValues[0]?
    match file value with
    | none => return (-1, [], ssi)
    | some fp => readData size ssi fp

/-- `include_handler`, `exec_handler` and `echo_handler` with a buffer. -/
def Handler.call (around : Surroundings) (size : Nat) (ssi : Reader) :
    Handler → Option (Int × Text × Reader)
  | .includeHandler => fileHandler (includeFile around ssi.documentRoot) size ssi
  | .execHandler => some (0, [], ssi)
  | .echoHandler => fileHandler (echoFile around) size ssi

/-- A line of the page is read behind what was left. -/
def readPage (size : Nat) (remaining : Text) (ssi : Reader) : Option (Int × Text × Reader) := do
  match ← fgets (size - remaining.length) ssi.fp with
  | none => return (-1, remaining, ssi)
  | some (line, fp) =>
    let ssi := { ssi with fp := fp }
    let buf := cstring (remaining ++ line)
    match cutText startingSequence buf with
    | none => return (buf.length, buf, ssi)
    | some (front, s) =>
      match cutText endingSequence s with
      | none =>
        if remaining.length = 0 then
          return (front.length, front,
            { ssi with remainingData := some (startingSequence ++ s) })
        else return (-1, buf, ssi)
      | some (p, behind) =>
        let ssi := { ssi with remainingData := some behind }
        match ssiParseDirectiveEntry p with
        | none => return (-1, buf, ssi)
        | some (entry, values) =>
          return (front.length, front,
            { ssi with directiveEntry := some entry, directiveValues := values })

/-- `ezcfg_ssi_file_get_line`, with the string in the buffer. -/
def ssiFileGetLine (around : Surroundings) (size : Nat) (ssi : Reader) :
    Option (Int × Text × Reader) := do
  match ssi.directiveEntry with
  | none =>
    match ssi.remainingData with
    | none => readPage size [] ssi
    | some remaining =>
      if size ≤ remaining.length then return (-1, [], ssi)
      else readPage size remaining { ssi with remainingData := none }
  | some entry =>
    let (ret, buf, ssi) ← entry.handler.call around size ssi
    if ret = 0 then
      return (0, buf,
        { ssi with directiveEntry := none, directiveValues := [], directiveData := none })
    else return (ret, buf, ssi)

/-- The strings of the calls with a positive result, put together, up to the call that returns
minus one. -/
inductive Collects (around : Surroundings) (size : Nat) : Reader → Text → Prop where
  | done {ssi after : Reader} {buf : Text}
    (call : ssiFileGetLine around size ssi = some (-1, buf, after)) : Collects around size ssi []
  | next {ssi after : Reader} {ret : Int} {buf out : Text}
    (call : ssiFileGetLine around size ssi = some (ret, buf, after)) (more : ret ≠ -1)
    (rest : Collects around size after out) :
    Collects around size ssi ((if 0 < ret then buf else []) ++ out)

end Ezcfg.Ssi

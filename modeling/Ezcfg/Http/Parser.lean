import Ezcfg.Foundation.TextCuts
import Ezcfg.Http.Receiving
import Ezcfg.Http.Writer

/-!
# Parsing HTTP messages

The parser cuts the text at line ends, spaces and colons; the source writes
terminators there, and the text behind a terminator is the rest of the cut. The handle
keeps what was set before a line is refused. A failed assertion and a number that a
short cannot hold have no result.
-/

namespace Ezcfg.Http

open Foundation Foundation.TextCuts

/-- The tab. -/
abbrev tab : UInt8 := 0x09

/-- `isspace` -/
def isSpace (byte : UInt8) : Bool := byte = sp || (0x09 ≤ byte && byte ≤ 0x0d)

/-- A sign in front of a number; the flag says whether it is a minus. -/
def scanSign (text : List UInt8) : Bool × List UInt8 :=
  if text.head? = some 0x2d then (true, text.tail)
  else if text.head? = some 0x2b then (false, text.tail)
  else (false, text)

/-- Bytes from the digits on are neither white space nor a sign. -/
theorem plain_of_le {byte : UInt8} (low : 0x30 ≤ byte) :
    isSpace byte = false ∧ byte ≠ 0x2b ∧ byte ≠ 0x2d := by
  simp only [isSpace, Bool.or_eq_false_iff, Bool.and_eq_false_iff, decide_eq_false_iff_not,
    UInt8.le_iff_toNat_le, ← UInt8.toNat_inj, ne_eq] at *
  grind

/-- `%hd` of `sscanf`: white space, a sign and digits. The number is stored in the bits of
an unsigned short. The inner result is none when there is no number. -/
def scanShort (text : List UInt8) : Option (Option (UInt16 × List UInt8)) :=
  let (negative, text) := scanSign (text.dropWhile isSpace)
  let digits := text.takeWhile Decimal.isDigit
  let n : Int := if negative then -Decimal.readDigits digits else Decimal.readDigits digits
  if digits = [] then some none
  else if -2 ^ 15 ≤ n ∧ n < 2 ^ 15 then
    some (some (UInt16.ofInt n, text.dropWhile Decimal.isDigit))
  else none

/-- The two versions read by `sscanf` with `%hd.%hd`; the flag says whether both were. -/
def scanVersion (http : Handle) (text : List UInt8) : Option (Bool × Handle) := do
  match ← scanShort text with
  | none => return (false, http)
  | some (major, rest) =>
    let http := { http with versionMajor := major }
    if rest.head? ≠ some 0x2e then return (false, http)
    match ← scanShort rest.tail with
    | none => return (false, http)
    | some (minor, _) => return (true, { http with versionMinor := minor })

/-- `parse_http_headers`. The line is cut off at the top of each turn; the source does so
in front of the loop and at the end of a turn. -/
def parseHttpHeaders (http : Handle) (text : List UInt8) : Option (Bool × Handle) :=
  match _cut : cutPair cr lf text with
  | none => some (false, http)
  | some (line, behind) =>
    if line = [] then some (true, http)
    else
      match cutAt colon line with
      | none => some (false, http)
      | some (name, value) => do
        let name ← CString.ofBytes name
        let value ← CString.ofBytes (value.dropWhile fun byte => byte = sp || byte = tab)
        parseHttpHeaders (httpAddHeader http name value) behind
termination_by text.length
decreasing_by exact cutPair_shorter _cut

/-- The text "HTTP/". -/
abbrev protocol : List UInt8 := [0x48, 0x54, 0x54, 0x50, 0x2f]

/-- `parse_http_request` -/
def parseHttpRequest (http : Handle) (buf : List UInt8) (len : Int) : Option (Bool × Handle) := do
  ensure (0 < len)
  match cutPair cr lf buf with
  | none => return (false, http)
  | some (line, headers) =>
    match cutAt sp line with
    | none => return (false, http)
    | some (method, p) =>
      let http := { http with methodIndex := findMethodIndex http (← CString.ofBytes method) }
      if http.methodIndex = 0 then return (false, http)
      if p.head? ≠ some 0x2f ∧ p.head? ≠ some 0x2a then return (false, http)
      match cutAt sp p with
      | none => return (false, http)
      | some (uri, version) =>
        let http := { http with requestUri := some (← CString.ofBytes uri) }
        if version.take 5 ≠ protocol then return (false, http)
        let (scanned, http) ← scanVersion http (version.drop 5)
        if !scanned then return (false, http)
        parseHttpHeaders http headers

/-- `parse_http_response` -/
def parseHttpResponse (http : Handle) (buf : List UInt8) (len : Int) : Option (Bool × Handle) := do
  ensure (0 < len)
  match cutPair cr lf buf with
  | none => return (false, http)
  | some (line, headers) =>
    match cutAt sp line with
    | none => return (false, http)
    | some (version, p) =>
      if version.take 5 ≠ protocol then return (false, http)
      let (scanned, http) ← scanVersion http (version.drop 5)
      if !scanned then return (false, http)
      match p with
      | a :: b :: c :: d :: reasonPhrase =>
        if !([a, b, c].all Decimal.isDigit && d = sp) then return (false, http)
        let statusCode := UInt16.ofNat (Decimal.readDigits [a, b, c])
        ensure (0 < statusCode)
        let index := findStatusCodeIndex http statusCode
        if index = 0 then return (false, http)
        let map ← entry http.statusCodeMaps index
        if !strcaseEq (← CString.ofBytes reasonPhrase) map.reasonPhrase then return (false, http)
        parseHttpHeaders { http with statusCodeIndex := index } headers
      | _ => return (false, http)

/-- `ezcfg_http_parse_header` -/
def httpParseHeader (http : Handle) (buf : List UInt8) (len : Int) : Option (Bool × Handle) := do
  ensure (0 < len)
  match http.state with
  | .request => parseHttpRequest http buf len
  | .response => parseHttpResponse http buf len

end Ezcfg.Http

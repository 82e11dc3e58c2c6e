import Ezcfg.Foundation.ByteArea
import Ezcfg.Http.Handle

/-!
# Writing HTTP messages

The length of a message is predicted by functions of their own, which follow the
writers piece by piece. A position in the buffer is an index; a write outside the
buffer, an int that leaves its range, a string read through a NULL pointer and an
assertion that fails have no result.
-/

namespace Ezcfg.Http

open Foundation

/-- The space. -/
abbrev sp : UInt8 := 0x20

/-- The colon. -/
abbrev colon : UInt8 := 0x3a

/-- `EZCFG_HTTP_CRLF_STRING` -/
abbrev crlf : List UInt8 := [0x0d, 0x0a]

/-! ## Lengths -/

/-- Add up parts of a length in an int. -/
def addAll (count : Int) : List Nat → Option Int
  | [] => some count
  | n :: rest => do
    let count ← checkedInt (count + n)
    addAll count rest

/-- `ezcfg_http_get_request_line_length` -/
def httpGetRequestLineLength (http : Handle) : Option Int :=
  if http.methodIndex = 0 then some (-1)
  else do
    let method ← entry http.methodStrings http.methodIndex
    let uri ← http.requestUri
    addAll 0 [method.length, 1, uri.length, 1, 5, Decimal.countDigits http.versionMajor.toNat, 1,
      Decimal.countDigits http.versionMinor.toNat, crlf.length]

/-- `ezcfg_http_get_status_line_length`; the map at index zero has the code zero. -/
def httpGetStatusLineLength (http : Handle) : Option Int :=
  if http.statusCodeIndex = 0 then some (-1)
  else do
    let map ← entry http.statusCodeMaps http.statusCodeIndex
    if map.statusCode = 0 then return -1
    addAll 5 [Decimal.countDigits http.versionMajor.toNat, 1,
      Decimal.countDigits http.versionMinor.toNat, 1, 3, 1, map.reasonPhrase.length, crlf.length]

/-- `ezcfg_http_get_start_line_length` -/
def httpGetStartLineLength (http : Handle) : Option Int :=
  match http.state with
  | .request => httpGetRequestLineLength http
  | .response => httpGetStatusLineLength http

/-- What the loop of `ezcfg_http_get_headers_length` adds for a header. -/
def headerParts (header : Header) : List Nat :=
  [header.name.length, 1, header.value.elim 0 CString.length, crlf.length]

/-- `ezcfg_http_get_headers_length` -/
def httpGetHeadersLength (http : Handle) : Option Int :=
  if http.methodIndex = 0 then some (-1)
  else addAll 0 (http.headers.flatMap headerParts)

/-- `ezcfg_http_get_message_body_len` -/
def httpGetMessageBodyLen (http : Handle) : Nat := (http.messageBody.getD []).length

/-- `ezcfg_http_get_message_length` -/
def httpGetMessageLength (http : Handle) : Option Int := do
  let start ← httpGetStartLineLength http
  if start < 0 then return -1
  let headers ← httpGetHeadersLength http
  if headers < 0 then return -1
  let count ← checkedInt (start + headers)
  addAll count [crlf.length, httpGetMessageBodyLen http]

/-! ## Writers -/

/-- `snprintf` of a text at a position. The size is a size_t, so a negative int is a huge
one; a text that is too long for the result is an error. -/
def snprintf (area : List UInt8) (p : Nat) (size : Int) (text : List UInt8) :
    Option (Int × List UInt8) :=
  let n : Int := if text.length < 2 ^ 31 then text.length else -1
  if size = 0 then some (n, area)
  else
    let shown := if 0 < size then text.take (size.toNat - 1) else text
    (ByteArea.write area p (shown ++ [0])).map fun area => (n, area)

/-- The version of a start line. -/
def versionText (http : Handle) : List UInt8 :=
  [0x48, 0x54, 0x54, 0x50, 0x2f] ++ Decimal.decimal http.versionMajor.toNat ++ [0x2e] ++
    Decimal.decimal http.versionMinor.toNat

/-- The text of a request line. -/
def requestLine (http : Handle) (method uri : CString) : List UInt8 :=
  method.bytes ++ [sp] ++ uri.bytes ++ [sp] ++ versionText http ++ crlf

/-- The text of a number that is padded with spaces to three characters. -/
def padded (n : Nat) : List UInt8 :=
  List.replicate (3 - (Decimal.decimal n).length) sp ++ Decimal.decimal n

/-- The text of a status line. -/
def statusLine (http : Handle) (map : StatusCodeMap) : List UInt8 :=
  versionText http ++ [sp] ++ padded map.statusCode.toNat ++ [sp] ++ map.reasonPhrase.bytes ++
    crlf

/-- The text of a header line. -/
def headerLine (header : Header) : List UInt8 :=
  header.name.bytes ++ [colon] ++ header.value.elim [] CString.bytes ++ crlf

/-- `ezcfg_http_write_request_line` -/
def httpWriteRequestLine (http : Handle) (area : List UInt8) (p : Nat) (len : Int) :
    Option (Int × List UInt8) := do
  ensure (0 < len)
  if http.methodIndex = 0 then return (-1, area)
  let method ← entry http.methodStrings http.methodIndex
  let uri ← http.requestUri
  snprintf area p len (requestLine http method uri)

/-- `ezcfg_http_write_status_line` -/
def httpWriteStatusLine (http : Handle) (area : List UInt8) (p : Nat) (len : Int) :
    Option (Int × List UInt8) := do
  ensure (0 < len)
  if http.statusCodeIndex = 0 then return (-1, area)
  let map ← entry http.statusCodeMaps http.statusCodeIndex
  if map.statusCode = 0 then return (-1, area)
  snprintf area p len (statusLine http map)

/-- `ezcfg_http_write_start_line` -/
def httpWriteStartLine (http : Handle) (area : List UInt8) (p : Nat) (len : Int) :
    Option (Int × List UInt8) := do
  ensure (0 < len)
  match http.state with
  | .request => httpWriteRequestLine http area p len
  | .response => httpWriteStatusLine http area p len

/-- `ezcfg_http_write_crlf` -/
def httpWriteCrlf (area : List UInt8) (p : Nat) (len : Int) : Option (Int × List UInt8) := do
  ensure (0 < len)
  let (n, area) ← snprintf area p len crlf
  if n < 2 then return (-1, area)
  return (n, area)

/-- The loop of `ezcfg_http_write_headers`. -/
def writeHeaderLoop (area : List UInt8) (p : Nat) (len count : Int) :
    List Header → Option (Int × List UInt8)
  | [] => some (count, area)
  | header :: rest => do
    let (n, area) ← snprintf area (p + count.toNat) (len - count) (headerLine header)
    if n < 0 then return (-1, area)
    let count ← checkedInt (count + n)
    writeHeaderLoop area p len count rest

/-- `ezcfg_http_write_headers` -/
def httpWriteHeaders (http : Handle) (area : List UInt8) (p : Nat) (len : Int) :
    Option (Int × List UInt8) := do
  ensure (0 < len)
  if http.methodIndex = 0 then return (-1, area)
  writeHeaderLoop area p len 0 http.headers

/-- `ezcfg_http_write_message_body` -/
def httpWriteMessageBody (http : Handle) (area : List UInt8) (p : Nat) (len : Int) :
    Option (Int × List UInt8) := do
  ensure (0 < len)
  if len < httpGetMessageBodyLen http then return (-1, area)
  match http.messageBody with
  | none => return (0, area)
  | some body => (ByteArea.write area p body).map fun area => (body.length, area)

/-- The start line, the headers and the empty line as `ezcfg_http_write_message` writes
them: how much was written, and what is left of `len`. -/
def httpWriteHead (http : Handle) (area : List UInt8) (len : Int) :
    Option (Int × List UInt8) := do
  let (start, area) ← httpWriteStartLine http area 0 len
  if start < 0 then return (start, area)
  let (headers, area) ← httpWriteHeaders http area start.toNat (len - start)
  if headers < 0 then return (headers, area)
  let (crlf, area) ← httpWriteCrlf area (start + headers).toNat (len - start - headers)
  if crlf < 0 then return (crlf, area)
  return (start + headers + crlf, area)

/-- `ezcfg_http_write_message` -/
def httpWriteMessage (http : Handle) (area : List UInt8) (len : Int) :
    Option (Int × List UInt8) := do
  ensure (0 < len)
  let (head, area) ← httpWriteHead http area len
  if head < 0 then return (head, area)
  if http.messageBody = none then return (head, area)
  let (n, area) ← httpWriteMessageBody http area head.toNat (len - head)
  if n < 0 then return (n, area)
  return (head + n, area)

end Ezcfg.Http

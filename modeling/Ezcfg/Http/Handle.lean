import Ezcfg.Foundation.CString
import Ezcfg.Foundation.Decimal
import Ezcfg.Values

/-!
# HTTP handles

A handle holds the start line, the headers and the body of a request or a response.
Methods and status codes are kept as indices into the tables of the handle; index zero
means that none is set. The tables are the lists behind their first entry, which is
NULL. Memory is always granted. Not modelled: the flag for SSL, which nothing here
reads.
-/

namespace Ezcfg.Http

open Foundation

/-- The bytes of an ASCII text. -/
def ascii (text : String) : List UInt8 := text.toList.map fun c => UInt8.ofNat c.toNat

/-- A string of the source. -/
def constant (text : String) (nonul : (0 : UInt8) ∉ ascii text := by decide)
    (short : (ascii text).length + 1 < 2 ^ 31 := by decide) : CString :=
  ⟨ascii text, nonul, short⟩

/-- `status_code_reason_phrase_map` -/
structure StatusCodeMap where
  statusCode : UInt16
  reasonPhrase : CString
deriving DecidableEq

/-- `default_method_strings` -/
def defaultMethodStrings : List CString := [
  constant "OPTIONS", constant "GET", constant "HEAD", constant "POST", constant "PUT",
  constant "DELETE", constant "TRACE", constant "CONNECT", constant "M-OPTIONS",
  constant "M-GET", constant "M-HEAD", constant "M-POST", constant "M-PUT", constant "M-DELETE",
  constant "M-TRACE", constant "M-CONNECT"]

/-- `default_header_strings` -/
def defaultHeaderStrings : List CString := [
  constant "Cache-Control", constant "Connection", constant "Date", constant "Pragma",
  constant "Trailer", constant "Transfer-Encoding", constant "Upgrade", constant "Via",
  constant "Warning", constant "Accept", constant "Accept-Charset", constant "Accept-Encoding",
  constant "Accept-Language", constant "Authorization", constant "Expect", constant "From",
  constant "Host", constant "If-Match", constant "If-Modified-Since", constant "If-None-Match",
  constant "If-Range", constant "If-Unmodified-Since", constant "Max-Forwards",
  constant "Proxy-Authorization", constant "Range", constant "Referer", constant "TE",
  constant "User-Agent", constant "Accept-Ranges", constant "Age", constant "ETag",
  constant "Location", constant "Proxy-Authenticate", constant "Retry-After", constant "Server",
  constant "Vary", constant "WWW-Authenticate", constant "Allow", constant "Content-Encoding",
  constant "Content-Language", constant "Content-Length", constant "Content-Location",
  constant "Content-MD5", constant "Content-Range", constant "Content-Type", constant "Expires",
  constant "Last-Modified", constant "Man", constant "Opt", constant "C-Man", constant "C-Opt",
  constant "Ext", constant "C-Ext"]

/-- `EZCFG_HTTP_HEADER_CONTENT_LENGTH` -/
def headerContentLength : CString := constant "Content-Length"

/-- `EZCFG_HTTP_HEADER_TRANSFER_ENCODING` -/
def headerTransferEncoding : CString := constant "Transfer-Encoding"

/-- `EZCFG_HTTP_HEADER_AUTHORIZATION` -/
def headerAuthorization : CString := constant "Authorization"

/-- `default_status_code_maps` -/
def defaultStatusCodeMaps : List StatusCodeMap := [
  ⟨100, constant "Continue"⟩, ⟨101, constant "Switching Protocols"⟩,
  ⟨102, constant "Processing"⟩, ⟨200, constant "OK"⟩, ⟨201, constant "Created"⟩,
  ⟨202, constant "Accepted"⟩, ⟨203, constant "Non-Authoritative Information"⟩,
  ⟨204, constant "No Content"⟩, ⟨205, constant "Reset Content"⟩,
  ⟨206, constant "Partial Content"⟩, ⟨207, constant "Multi-Status"⟩,
  ⟨300, constant "Multiple Choices"⟩, ⟨301, constant "Moved Permanently"⟩,
  ⟨302, constant "Found"⟩, ⟨303, constant "See Other"⟩, ⟨304, constant "Not Modified"⟩,
  ⟨305, constant "Use Proxy"⟩, ⟨306, constant "(Unused)"⟩, ⟨307, constant "Temporary Redirect"⟩,
  ⟨400, constant "Bad Request"⟩, ⟨401, constant "Unauthorized"⟩,
  ⟨402, constant "Payment Required"⟩, ⟨403, constant "Forbidden"⟩, ⟨404, constant "Not Found"⟩,
  ⟨405, constant "Method Not Allowed"⟩, ⟨406, constant "Not Acceptable"⟩,
  ⟨407, constant "Proxy Authentication Required"⟩, ⟨408, constant "Request Timeout"⟩,
  ⟨409, constant "Conflict"⟩, ⟨410, constant "Gone"⟩, ⟨411, constant "Length Required"⟩,
  ⟨412, constant "Precondition Failed"⟩, ⟨413, constant "Request Entity Too Large"⟩,
  ⟨414, constant "Request-URI Too Long"⟩, ⟨415, constant "Unsupported Media Type"⟩,
  ⟨416, constant "Requested Range Not Satisfiable"⟩, ⟨417, constant "Expectation Failed"⟩,
  ⟨422, constant "Unprocessable Entity"⟩, ⟨423, constant "Locked"⟩,
  ⟨424, constant "Failed Dependency"⟩, ⟨426, constant "Upgrade Required"⟩,
  ⟨500, constant "Internal Server Error"⟩, ⟨501, constant "Not Implemented"⟩,
  ⟨502, constant "Bad Gateway"⟩, ⟨503, constant "Service Unavailable"⟩,
  ⟨504, constant "Gateway Timeout"⟩, ⟨505, constant "HTTP Version Not Supported"⟩,
  ⟨507, constant "Insufficient Storage"⟩]

/-- `http_state_t` -/
inductive HttpState where
  | request
  | response
deriving DecidableEq

/-- `http_header` -/
structure Header where
  name : CString
  value : Option CString
  isKnownHeader : Bool
deriving DecidableEq

/-- `ezcfg_http`. The body is NULL until one is set; `message_body_len` is its length. -/
structure Handle where
  state : HttpState := .request
  methodStrings : List CString := defaultMethodStrings
  methodIndex : Nat := 0
  requestUri : Option CString := none
  versionMajor : UInt16 := 0
  versionMinor : UInt16 := 0
  statusCodeMaps : List StatusCodeMap := defaultStatusCodeMaps
  statusCodeIndex : Nat := 0
  knownHeaderStrings : List CString := defaultHeaderStrings
  headers : List Header := []
  messageBody : Option (List UInt8) := none
  isExtension : Bool := false
deriving DecidableEq

/-- `ezcfg_http_new` -/
def httpNew : Handle := {}

/-- The entry of a table at an index; the entry at zero is NULL. -/
def entry {α : Type} (table : List α) (index : Nat) : Option α :=
  if index = 0 then none else table[index - 1]?

/-- A search through the entries of a table from the last one down; zero when there is no
match. -/
def searchDown {α : Type} (test : α → Bool) (table : List α) : Nat → Nat
  | 0 => 0
  | index + 1 =>
    if (table[index]?).any test then index + 1 else searchDown test table index

/-- `tolower` on ASCII. -/
def toLower (byte : UInt8) : UInt8 :=
  if 0x41 ≤ byte && byte ≤ 0x5a then byte + 0x20 else byte

/-- Whether `strcasecmp` gives zero. -/
def strcaseEq (first second : CString) : Bool :=
  first.bytes.map toLower = second.bytes.map toLower

/-- `get_http_header_value` -/
def getHttpHeaderValue (http : Handle) (name : CString) : Option CString :=
  (http.headers.find? fun h => strcaseEq name h.name).bind (·.value)

/-- `find_known_header_name` -/
def findKnownHeaderName (http : Handle) (name : CString) : Option CString :=
  entry http.knownHeaderStrings (searchDown (strcaseEq · name) http.knownHeaderStrings
    http.knownHeaderStrings.length)

/-- `find_method_index` -/
def findMethodIndex (http : Handle) (method : CString) : Nat :=
  searchDown (· = method) http.methodStrings http.methodStrings.length

/-- `find_status_code_index` -/
def findStatusCodeIndex (http : Handle) (statusCode : UInt16) : Nat :=
  searchDown (fun map => map.statusCode = statusCode) http.statusCodeMaps
    http.statusCodeMaps.length

/-- `ezcfg_http_add_header` -/
def httpAddHeader (http : Handle) (name value : CString) : Handle :=
  let value := if value.bytes = [] then none else some value
  match findKnownHeaderName http name with
  | some known => { http with headers := http.headers ++ [⟨known, value, true⟩] }
  | none => { http with headers := http.headers ++ [⟨name, value, false⟩] }

/-- `ezcfg_http_set_request_method` -/
def httpSetRequestMethod (http : Handle) (method : CString) : Handle :=
  let index := findMethodIndex http method
  if index = 0 then http
  else
    { http with
      methodIndex := index
      isExtension := http.isExtension || ([0x4d, 0x2d] : List UInt8).isPrefixOf method.bytes }

/-- `ezcfg_http_set_status_code` -/
def httpSetStatusCode (http : Handle) (statusCode : UInt16) : Handle :=
  let index := findStatusCodeIndex http statusCode
  if index = 0 then http else { http with statusCodeIndex := index }

/-- `ezcfg_http_set_message_body` -/
def httpSetMessageBody (http : Handle) (body : List UInt8) : Handle :=
  { http with messageBody := some body }

/-- `ezcfg_http_reset_attributes` -/
def httpResetAttributes (http : Handle) : Handle :=
  { http with headers := [], requestUri := none, messageBody := none }

end Ezcfg.Http

import Ezcfg.Foundation.ByteArea
import Ezcfg.Foundation.Chunked
import Ezcfg.Http.Parser
import Ezcfg.Http.Receiving

/-!
# Reading HTTP content from a socket

`ezcfg_socket_read_http_content` reads as many bytes as the header tells, or, when the
content is chunked, everything up to the end of the stream, and then puts the data of the
chunks together in place. Whether `realloc` grants a size is a parameter. Bytes behind the
terminator were never written, so a run that looks at one has no result. `seen` is the
place behind the last byte that was looked at; the source has no such variable.
-/

namespace Ezcfg.Http

open Foundation Foundation.TextCuts Foundation.Chunked

/-- `EZCFG_BUFFER_SIZE` -/
def bufferSize : Nat := 8192

/-- `EZCFG_HTTP_MAX_BUFFER_SIZE` -/
def httpMaxBufferSize : Nat := 8 * 1024 * 1024

/-- `EZCFG_HTTP_CHUNK_SIZE` -/
def httpChunkSize : Nat := 20480

/-- `EZCFG_HTTP_MAX_CHUNK_NUM` -/
def httpMaxChunkNum : Nat := 32

/-- `EZCFG_HTTP_MAX_REQUEST_SIZE` -/
def httpMaxRequestSize : Nat := httpChunkSize * httpMaxChunkNum

/-- The only transfer encoding that is known. -/
def transferCodingChunked : CString := constant "chunked"

/-- The long of the target has 32 bits; a number outside its range is cut to the range. -/
def clampLong (n : Int) : Int := max (-2 ^ 31) (min (2 ^ 31 - 1) n)

/-- The mark in front of hexadecimal digits. -/
def scanBase (text : List UInt8) : List UInt8 :=
  if text.head? = some 0x30 ∧ (text.tail.head? = some 0x78 ∨ text.tail.head? = some 0x58) then
    text.drop 2
  else text

/-- `strtol` with base 16: the number and what is behind it. -/
def strtolHex (text : List UInt8) : Int × List UInt8 :=
  let (negative, text) := scanSign (text.dropWhile isSpace)
  let text := scanBase text
  let n : Int := hexNumber (text.takeWhile isHexDigit)
  (clampLong (if negative then -n else n), text.dropWhile isHexDigit)

/-- `atoi` -/
def atoi (text : List UInt8) : Int :=
  let (negative, text) := scanSign (text.dropWhile isSpace)
  let n : Int := Decimal.readDigits (text.takeWhile Decimal.isDigit)
  clampLong (if negative then -n else n)

/-- The value of a chunk size. -/
def chunkSizeOf (text : List UInt8) : Int := (strtolHex text).1

/-- How many bytes `strtol` looks at, with the one that ends the number. -/
def lookedAt (text : List UInt8) : Nat := text.length - (strtolHex text).2.length + 1

/-- Read until the buffer is full or nothing more comes, with a bound on the turns. -/
def fillLoop (bufsiz : Nat) : Nat → Peer → List UInt8 → Option (List UInt8 × Peer)
  | 0, _, _ => none
  | turns + 1, peer, buf =>
    if buf.length < bufsiz then
      match socketRead peer (bufsiz - buf.length) with
      | ([], peer) => some (buf, peer)
      | (byte :: bytes, peer) => fillLoop bufsiz turns peer (buf ++ byte :: bytes)
    else some (buf, peer)

/-- The bytes received, the size of the buffer and the peer behind the reads; the flag says
whether no size was refused. -/
structure Received where
  complete : Bool
  buf : List UInt8
  bufLen : Nat
  peer : Peer

/-- The loop that grows the buffer until it is not full, with a bound on the turns. -/
def growLoop (realloc : Nat → Bool) : Nat → Peer → List UInt8 → Nat → Option Received
  | 0, _, _, _ => none
  | turns + 1, peer, buf, bufsiz =>
    let bufLen := if bufsiz ≤ buf.length then bufsiz + bufferSize else bufsiz
    if bufLen > httpMaxRequestSize ∨ realloc bufLen = false then some ⟨false, buf, bufsiz, peer⟩
    else
      match fillLoop bufLen (bufLen + 1) peer buf with
      | none => none
      | some (buf, peer) =>
        if buf.length = bufLen then growLoop realloc turns peer buf bufLen
        else some ⟨true, buf, bufLen, peer⟩

/-- What the loop over the chunks leaves. -/
structure Decoded where
  code : Int
  buf : List UInt8
  contentLength : Nat
  seen : Nat

/-- The loop over the chunks, with a bound on the turns. The size is read at the top of each
turn; the source does so in front of the loop and at the end of a turn. -/
def chunkLoop (headerLen : Nat) : Nat → List UInt8 → Nat → Nat → Nat → Option Decoded
  | 0, _, _, _, _ => none
  | turns + 1, buf, p, contentLength, seen => do
    let text ← ByteArea.stringAt buf p
    let chunkSize := chunkSizeOf text
    let seen := max seen (p + lookedAt text)
    if 0 < chunkSize ∧ chunkSize ≤ httpChunkSize then
      match cutPair cr lf text with
      | none => return ⟨retFail, buf, contentLength, max seen (p + text.length + 1)⟩
      | some (line, _) =>
        let q := p + line.length + 2
        let buf ← ByteArea.memmove buf (headerLen + contentLength) q chunkSize
        chunkLoop headerLen turns buf (q + chunkSize.toNat + 2) (contentLength + chunkSize.toNat)
          (max seen (q + chunkSize.toNat))
    else if chunkSize < 0 ∨ chunkSize > httpChunkSize then
      return ⟨retFail, buf, contentLength, seen⟩
    else return ⟨retOk, buf, contentLength, seen⟩

/-- What the caller gets: the result, the buffer with its size, and `*nread`. -/
structure Content where
  code : Int
  buf : List UInt8
  bufsiz : Nat
  nread : Nat
  seen : Nat

/-- The branch for content of a given length. -/
def readLength (realloc : Nat → Bool) (peer : Peer) (buf : List UInt8) (headerLen bufsiz : Nat)
    (contentLength : Int) : Option Content :=
  let got : Int := buf.length - headerLen
  if contentLength > httpMaxBufferSize then some ⟨retFail, buf, bufsiz, buf.length, 0⟩
  else if got < contentLength then do
    let bufLen := bufsiz + (contentLength - got).toNat
    if realloc bufLen = false then return ⟨retFail, buf, bufsiz, buf.length, 0⟩
    let (buf, _) ← fillLoop bufLen (bufLen + 1) peer buf
    if (buf.length : Int) - headerLen < contentLength then
      return ⟨retFail, buf, bufLen, buf.length, 0⟩
    else return ⟨retOk, buf, bufLen, buf.length, 0⟩
  else some ⟨retOk, buf, bufsiz, buf.length, 0⟩

/-- The branch for chunked content. -/
def readChunks (realloc : Nat → Bool) (peer : Peer) (buf : List UInt8) (headerLen bufsiz : Nat) :
    Option Content := do
  let received ← growLoop realloc (httpMaxRequestSize / bufferSize + 2) peer buf bufsiz
  if received.complete then
    let nread := received.buf.length
    let decoded ← chunkLoop headerLen (nread + 1) (received.buf ++ [0]) headerLen 0 0
    if decoded.code = retOk then
      return ⟨retOk, decoded.buf, received.bufLen, headerLen + decoded.contentLength, decoded.seen⟩
    else return ⟨decoded.code, decoded.buf, received.bufLen, nread, decoded.seen⟩
  else return ⟨retFail, received.buf, received.bufLen, received.buf.length, 0⟩

/-- `ezcfg_socket_read_http_content`; `buf` holds the bytes received so far. -/
def socketReadHttpContent (realloc : Nat → Bool) (http : Handle) (peer : Peer) (buf : List UInt8)
    (headerLen bufsiz : Nat) : Option Content :=
  match getHttpHeaderValue http headerContentLength with
  | some length => readLength realloc peer buf headerLen bufsiz (atoi length.bytes)
  | none =>
    match getHttpHeaderValue http headerTransferEncoding with
    | some coding =>
      if coding ≠ transferCodingChunked then some ⟨retFail, buf, bufsiz, buf.length, 0⟩
      else readChunks realloc peer buf headerLen bufsiz
    | none => some ⟨retOk, buf, bufsiz, buf.length, 0⟩

end Ezcfg.Http

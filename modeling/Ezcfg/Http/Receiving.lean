import Ezcfg.Foundation.Deliveries
import Ezcfg.Values

/-!
# Reading an HTTP header from a socket

`ezcfg_socket_read_http_header` reads until its buffer is full or the header is
complete, and looks for the end of the header anew after every read. The peer is the
list of pieces in which its bytes arrive; a read returns the next piece, cut at the
room there is. Failing reads end the loop as the end of the stream does.
-/

namespace Ezcfg.Http

open Foundation

/-- The line feed. -/
abbrev lf : UInt8 := 0x0a

/-- The carriage return. -/
abbrev cr : UInt8 := 0x0d

/-- What the peer is going to send, in the pieces in which it arrives. -/
abbrev Peer := List (List UInt8)

/-- `ezcfg_socket_read`: at most `len` bytes; none at the end of the stream. -/
def socketRead (peer : Peer) (len : Nat) : List UInt8 × Peer :=
  match peer with
  | [] => ([], [])
  | piece :: rest =>
    if piece.length ≤ len then (piece, rest) else (piece.take len, piece.drop len :: rest)

/-- `isprint` -/
def isPrint (byte : UInt8) : Bool := 0x20 ≤ byte && byte ≤ 0x7e

/-- Control characters, but for those of line ends; bytes from 128 on are none. -/
def isForbidden (byte : UInt8) : Bool :=
  !isPrint byte && byte ≠ cr && byte ≠ lf && byte < 128

/-- The loop of `get_http_header_len` over the bytes from `s` on; `pos` is `s - buf`. The
last byte received is only looked at together with the one in front of it. -/
def headerLenLoop (pos : Nat) (len : Int) : List UInt8 → Int
  | first :: second :: rest =>
    if len ≤ 0 then
      if isForbidden first then headerLenLoop (pos + 1) (-1) (second :: rest)
      else if first = lf ∧ second = lf then headerLenLoop (pos + 1) (pos + 2) (second :: rest)
      else if first = lf ∧ second = cr ∧ rest.head? = some lf then
        headerLenLoop (pos + 1) (pos + 3) (second :: rest)
      else headerLenLoop (pos + 1) len (second :: rest)
    else len
  | _ => len

/-- `get_http_header_len` on the bytes received. -/
def getHttpHeaderLen (buf : List UInt8) : Int := headerLenLoop 0 0 buf

/-- The loop of `ezcfg_socket_read_http_header`, with a bound on its turns; `*nread` is the
length of `buf`. -/
def readHeaderLoop (bufsiz : Nat) : Nat → Peer → List UInt8 → Int →
    Option (Int × List UInt8 × Peer)
  | 0, _, _, _ => none
  | turns + 1, peer, buf, len =>
    if buf.length < bufsiz ∧ len = 0 then
      match socketRead peer (bufsiz - buf.length) with
      | ([], peer) => some (len, buf, peer)
      | (byte :: bytes, peer) =>
        let buf := buf ++ byte :: bytes
        readHeaderLoop bufsiz turns peer buf (getHttpHeaderLen buf)
    else some (len, buf, peer)

/-- `ezcfg_socket_read_http_header`: the result, the bytes received and the peer. -/
def socketReadHttpHeader (peer : Peer) (buf : List UInt8) (bufsiz : Nat) :
    Option (Int × List UInt8 × Peer) :=
  readHeaderLoop bufsiz (bufsiz + 1) peer buf 0

end Ezcfg.Http

import Ezcfg.Foundation.HeapFrame
import Ezcfg.Foundation.TextCuts
import Ezcfg.Http.Content
import Ezcfg.Socket.Sending

/-!
# Building a socket from address texts

`create_socket` makes a socket for one of four domains. Each of the two addresses may be given as a
text, of which a copy is cut into a host and a port where the domain has these. Memory and
descriptors are heaps of their own; using what is not live has no result, and neither has reading
from NULL or writing behind `sun_path`. What the calls of the system give is a parameter.
-/

namespace Ezcfg.Socket

open Foundation Foundation.TextCuts

/-- Which of the two addresses. -/
inductive Side where
  | laddr
  | raddr
deriving DecidableEq, Repr

/-- `struct sockaddr_in6`, without the family. -/
structure SockaddrIn6 where
  port : UInt16
  flowinfo : UInt32
  addr : BitVec 128
  scopeId : UInt32
deriving DecidableEq

/-- The union of `struct usa`: zero, or what was written, with its family. -/
inductive Address where
  | zero
  | sun (path : List UInt8)
  | sin (port : UInt16) (addr : UInt32)
  | sin6 (found : SockaddrIn6)
  | snl (groups pid : UInt32)
deriving DecidableEq

/-- `struct usa` -/
structure Usa where
  len : Nat
  u : Address
deriving DecidableEq

/-- An address that was not written. -/
def Usa.zero : Usa := ⟨0, .zero⟩

/-- `struct ezcfg_socket`; a negative `sock` is none. -/
structure EzcfgSocket where
  sock : Option Ptr
  proto : Int
  domain : Domain
  type : Int
  lsa : Usa
  rsa : Usa
deriving DecidableEq

/-- `&(sp->lsa)` or `&(sp->rsa)` -/
def EzcfgSocket.usa (contents : EzcfgSocket) : Side → Usa
  | .laddr => contents.lsa
  | .raddr => contents.rsa

/-- One of the addresses is written. -/
def EzcfgSocket.put (contents : EzcfgSocket) (side : Side) (usa : Usa) : EzcfgSocket :=
  match side with
  | .laddr => { contents with lsa := usa }
  | .raddr => { contents with rsa := usa }

/-- What `socket` was called with. -/
structure Descriptor where
  domain : Domain
  type : Int
  protocol : Int
deriving DecidableEq

/-- What an allocated block holds. -/
inductive Block where
  | socket (contents : EzcfgSocket)
  | text (bytes : List UInt8)
  | addrinfo (first : SockaddrIn6) (others : List SockaddrIn6)
deriving DecidableEq

/-- The blocks and the open descriptors. -/
structure World where
  memory : Heap Block
  descriptors : Heap Descriptor

/-- What the calls of the system give, and whether the service for UPnP is built in. The addresses
that `getaddrinfo` finds are one and others, or it fails. -/
structure Environment where
  upnpd : Bool
  calloc : Bool
  socket : Bool
  rcvbufforce : Bool
  rcvbuf : Bool
  strdup : Side → Bool
  inetAddr : List UInt8 → UInt32
  getaddrinfo : Side → Int → List UInt8 → Option (List UInt8) →
    Option (SockaddrIn6 × List SockaddrIn6)
  getsockname : Side → Option UInt32

/-- `ezcfg_support_protocols` -/
def supportProtocols (upnpd : Bool) : List Int :=
  [1, 2, 3, 4, 5, 6, 7] ++ (if upnpd then [8, 9, 10] else []) ++ [11, 12]

/-- `sock_protocol`: `NETLINK_KOBJECT_UEVENT` for `EZCFG_PROTO_UEVENT`. -/
def sockProtocol (proto : Int) : Int := if proto = 7 then 15 else 0

/-- The size of `sun_path`. -/
def sunPathSize : Nat := 108

/-- "@" -/
abbrev atSign : UInt8 := 0x40

/-- ":" -/
abbrev colon : UInt8 := 0x3a

/-- "[" -/
abbrev leftBracket : UInt8 := 0x5b

/-- "]" -/
abbrev rightBracket : UInt8 := 0x5d

/-- "kernel" -/
def kernelName : List UInt8 := [0x6b, 0x65, 0x72, 0x6e, 0x65, 0x6c]

/-- `htons` of a target that has the low byte first. -/
def htons (n : UInt16) : UInt16 := (n <<< 8) ||| (n >>> 8)

/-- `htons((uint16_t)atoi(port))`, or `htons(0)` without a port. -/
def sinPort : Option (List UInt8) → UInt16
  | none => htons 0
  | some port => htons (UInt16.ofInt (Http.atoi port))

/-- What stands behind "]" is a port when it starts with a colon. -/
def portBehind : List UInt8 → Option (List UInt8)
  | [] => none
  | c :: port => if c = colon then some port else none

/-- The world and the pointers of a run. -/
structure Locals where
  world : World
  sp : Ptr
  addr : Option Ptr

/-- A part of `create_socket`; false goes to `fail_exit`. -/
abbrev Step := Locals → Option (Bool × Locals)

/-- One part behind the other. -/
def andThen (first second : Step) : Step := fun l => do
  match ← first l with
  | (false, l) => return (false, l)
  | (true, l) => second l

/-- A part for a text that may be absent. -/
def given (text : Option CString) (step : CString → Step) : Step :=
  match text with
  | none => fun l => some (true, l)
  | some text => step text

/-- Other blocks of memory. -/
def Locals.withMemory (l : Locals) (memory : Heap Block) : Locals :=
  { l with world := { l.world with memory := memory } }

/-- `*sp` -/
def readSocket (l : Locals) : Option EzcfgSocket := do
  match ← l.world.memory.read l.sp with
  | .socket contents => return contents
  | _ => none

/-- Members of `*sp` are written. -/
def modifySocket (l : Locals) (change : EzcfgSocket → EzcfgSocket) : Option Locals := do
  let contents ← readSocket l
  return l.withMemory (← l.world.memory.write l.sp (.socket (change contents)))

/-- `addr = strdup(text)` -/
def duplicate (l : Locals) (text : List UInt8) : Locals :=
  let (copy, memory) := l.world.memory.alloc (.text text)
  { l.withMemory memory with addr := some copy }

/-- The text of the copy. -/
def readCopy (l : Locals) : Option (List UInt8) := do
  match ← l.world.memory.read (← l.addr) with
  | .text bytes => return bytes
  | _ => none

/-- `free(addr); addr = NULL` -/
def freeCopy (l : Locals) : Option Locals := do
  let memory ← l.world.memory.free (← l.addr)
  return { l.withMemory memory with addr := none }

/-- A descriptor is opened where one is wanted. -/
def openSocket (env : Environment) (createSockfd : Bool) (descriptor : Descriptor) : Step :=
  fun l =>
    if createSockfd then
      if env.socket then do
        let (fd, descriptors) := l.world.descriptors.alloc descriptor
        let l ← modifySocket { l with world := { l.world with descriptors := descriptors } }
          fun contents => { contents with sock := some fd }
        return (true, l)
      else some (false, l)
    else some (true, l)

/-- A path is copied into `sun_path`, and "@" in front is replaced. -/
def copyPath (side : Side) (text : Option CString) : Step := fun l => do
  let text ← text
  let path ← ByteArea.write (List.replicate sunPathSize 0) 0 (text.bytes ++ [0])
  let len := 2 + (path.takeWhile (· ≠ 0)).length
  let path := if path.head? = some atSign then path.set 0 0 else path
  return (true, ← modifySocket l (·.put side ⟨len, .sun path⟩))

/-- The host, and the port behind a colon. -/
def splitPort (copy : List UInt8) : List UInt8 × Option (List UInt8) :=
  match cutAt colon copy with
  | none => (copy, none)
  | some (host, port) => (host, some port)

/-- A text of the domain `AF_INET` is decoded. -/
def decodeInet (env : Environment) (side : Side) (text : CString) : Step := fun l =>
  if env.strdup side then do
    let l := duplicate l text.bytes
    let (host, port) := splitPort (← readCopy l)
    let l ← modifySocket l (·.put side ⟨16, .sin (sinPort port) (env.inetAddr host)⟩)
    return (true, ← freeCopy l)
  else some (false, l)

/-- The copy of a text of the domain `AF_INET6` is decoded. -/
def resolve (env : Environment) (type : Int) (side : Side) : Step := fun l => do
  match cutAt rightBracket (← readCopy l) with
  | none => return (false, l)
  | some (host, behind) =>
    match env.getaddrinfo side type host (portBehind behind) with
    | none => return (false, l)
    | some (first, others) =>
      let (result, memory) := l.world.memory.alloc (.addrinfo first others)
      let l := l.withMemory memory
      if others = [] then
        let l ← modifySocket l (·.put side ⟨28, .sin6 first⟩)
        return (true, ← freeCopy (l.withMemory (← l.world.memory.free result)))
      else return (false, l.withMemory (← l.world.memory.free result))

/-- A text of the domain `AF_INET6` is decoded. The text whose first byte is compared with "[" is
`laddr` for both addresses. -/
def decodeInet6 (env : Environment) (type : Int) (side : Side) (laddr : Option CString)
    (text : CString) : Step := fun l => do
  if (← laddr).bytes.head? = some leftBracket then
    match text.bytes with
    | [] => none
    | _ :: rest =>
      if env.strdup side then resolve env type side (duplicate l rest)
      else return (false, l)
  else return (false, l)

/-- The size of the receive buffer is set. -/
def setBuffer (env : Environment) (createSockfd : Bool) : Step := fun l =>
  if createSockfd then
    if env.rcvbufforce then some (true, l)
    else if env.rcvbuf then some (true, l)
    else some (false, l)
  else some (true, l)

/-- `nl_groups` -/
def nlGroups (text : List UInt8) : UInt32 := if text = kernelName then 1 else 0

/-- `nl_pid` -/
def nlPid (env : Environment) (createSockfd : Bool) (side : Side) : UInt32 :=
  if createSockfd then (env.getsockname side).getD 0 else 0

/-- A text of the domain `AF_NETLINK` is decoded. -/
def decodeNetlink (env : Environment) (createSockfd : Bool) (side : Side) (text : CString) : Step :=
  fun l => do
    let usa := ⟨12, .snl (nlGroups text.bytes) (nlPid env createSockfd side)⟩
    return (true, ← modifySocket l (·.put side usa))

/-- The cases of the domain, behind the opening of the descriptor. -/
def fillAddresses (env : Environment) (domain : Domain) (type : Int)
    (laddr raddr : Option CString) (createSockfd : Bool) : Step :=
  match domain with
  | .afLocal => andThen (copyPath .laddr laddr) (copyPath .raddr raddr)
  | .afInet => andThen (given laddr (decodeInet env .laddr)) (given raddr (decodeInet env .raddr))
  | .afInet6 =>
    andThen (given laddr (decodeInet6 env type .laddr laddr))
      (given raddr (decodeInet6 env type .raddr laddr))
  | .afNetlink =>
    andThen (setBuffer env createSockfd)
      (andThen (given laddr (decodeNetlink env createSockfd .laddr))
        (given raddr (decodeNetlink env createSockfd .raddr)))

/-- The cases of the domain. -/
def fillSocket (env : Environment) (domain : Domain) (type : Int) (proto : Int)
    (laddr raddr : Option CString) (createSockfd : Bool) : Step :=
  andThen (openSocket env createSockfd ⟨domain, type, sockProtocol proto⟩)
    (fillAddresses env domain type laddr raddr createSockfd)

/-- `if (addr != NULL) free(addr)` -/
def freeCopyIf (l : Locals) : Option Locals :=
  match l.addr with
  | none => some l
  | some _ => freeCopy l

/-- `if (sp->sock >= 0) close(sp->sock)` -/
def closeSock (sock : Option Ptr) (descriptors : Heap Descriptor) : Option (Heap Descriptor) :=
  match sock with
  | none => some descriptors
  | some fd => descriptors.free fd

/-- `fail_exit` -/
def failExit (l : Locals) : Option World := do
  let l ← freeCopyIf l
  let contents ← readSocket l
  let descriptors ← closeSock contents.sock l.world.descriptors
  return ⟨← l.world.memory.free l.sp, descriptors⟩

/-- A new socket and its first members. -/
def callocSocket (domain : Domain) (type : Int) (proto : Int) (world : World) : Locals :=
  let (sp, memory) := world.memory.alloc (.socket ⟨none, proto, domain, type, .zero, .zero⟩)
  ⟨{ world with memory := memory }, sp, none⟩

/-- `create_socket`: the socket, or none for NULL. -/
def createSocket (env : Environment) (domain : Domain) (type : Int) (proto : Int)
    (laddr raddr : Option CString) (createSockfd : Bool) (world : World) :
    Option (Option Ptr × World) := do
  ensure (laddr.isSome ∨ raddr.isSome)
  if proto ∈ supportProtocols env.upnpd then
    if env.calloc then
      match ← fillSocket env domain type proto laddr raddr createSockfd
        (callocSocket domain type proto world) with
      | (true, l) => return (some l.sp, l.world)
      | (false, l) => return (none, ← failExit l)
    else return (none, world)
  else return (none, world)

end Ezcfg.Socket

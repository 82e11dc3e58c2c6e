import Ezcfg.Socket.Creating

/-!
# When a socket is built from its address texts

Each part of `create_socket` keeps that the socket, the copy of a text and the descriptor are all
that is live besides the world before. So what is left at the end is freed once each, and the run
has a result unless a text that is absent is read or a path does not fit.
-/

namespace Ezcfg.Socket

open Foundation Foundation.TextCuts

/-- A text is a host, or a host, a colon and a port. -/
def IsHostPort (text host : List UInt8) : Option (List UInt8) → Prop
  | none => text = host ∧ colon ∉ host
  | some port => text = host ++ colon :: port ∧ colon ∉ host

/-- What stands behind "[" has a host up to "]", and perhaps a port; one address is found for
them. -/
def Resolves (env : Environment) (type : Int) (side : Side) (rest : List UInt8)
    (found : SockaddrIn6) : Prop :=
  ∃ host behind, rest = host ++ rightBracket :: behind ∧ rightBracket ∉ host ∧
    env.getaddrinfo side type host (portBehind behind) = some (found, [])

/-- A name with "@" in front is one of the abstract namespace. -/
def abstractName (text : List UInt8) : List UInt8 :=
  if text.head? = some atSign then 0 :: text.tail else text

/-- The address of a path. -/
def pathAddress (text : List UInt8) : Usa :=
  ⟨2 + text.length, .sun (abstractName text ++ List.replicate (sunPathSize - text.length) 0)⟩

/-- The address that a text stands for. -/
def Decodes (env : Environment) (domain : Domain) (type : Int) (createSockfd : Bool)
    (side : Side) (text : List UInt8) (usa : Usa) : Prop :=
  match domain with
  | .afLocal => text.length < sunPathSize ∧ usa = pathAddress text
  | .afInet => ∃ host port, IsHostPort text host port ∧
      usa = ⟨16, .sin (sinPort port) (env.inetAddr host)⟩
  | .afInet6 => ∃ rest found, text = leftBracket :: rest ∧ Resolves env type side rest found ∧
      usa = ⟨28, .sin6 found⟩
  | .afNetlink => usa = ⟨12, .snl (nlGroups text) (nlPid env createSockfd side)⟩

/-- The address of a text that may be absent. -/
def Shows (env : Environment) (domain : Domain) (type : Int) (createSockfd : Bool)
    (side : Side) (text : Option CString) (usa : Usa) : Prop :=
  match text with
  | none => usa = .zero
  | some text => Decodes env domain type createSockfd side text.bytes usa

/-- A copy of a text is made, and one address is found for it. -/
def Found (env : Environment) (type : Int) (side : Side) (rest : List UInt8) : Prop :=
  env.strdup side = true ∧ ∃ found, Resolves env type side rest found

section Parts

variable {start : World} {l next : Locals} {contents : EzcfgSocket} {owned : List Ptr}

/-- The socket is among the blocks that are live besides those before. -/
structure Holds (start : World) (l : Locals) (contents : EzcfgSocket) (owned : List Ptr) :
    Prop where
  memory : Heap.Besides start.memory l.world.memory owned
  member : l.sp ∈ owned
  socket : l.world.memory.read l.sp = some (.socket contents)

/-- The socket, the copy and the descriptor are all that is live besides the world before. -/
structure Settled (start : World) (l : Locals) (contents : EzcfgSocket) : Prop where
  holds : Holds start l contents (l.addr.toList ++ [l.sp])
  descriptors : Heap.Besides start.descriptors l.world.descriptors contents.sock.toList

/-- The socket can be read. -/
theorem Holds.readSocket (holds : Holds start l contents owned) :
    readSocket l = some contents := by
  rw [Socket.readSocket, bind_of_some holds.socket]
  rfl

/-- The socket can be written. -/
theorem Holds.modifySocket (holds : Holds start l contents owned)
    (change : EzcfgSocket → EzcfgSocket) : ∃ memory,
      modifySocket l change = some (l.withMemory memory) ∧
        Holds start (l.withMemory memory) (change contents) owned ∧
        ∀ q, q ≠ l.sp → memory.read q = l.world.memory.read q := by
  obtain ⟨memory, written, besides, read, others⟩ :=
    holds.memory.write holds.member (.socket (change contents))
  refine ⟨memory, ?_, ⟨besides, holds.member, read⟩, others⟩
  rw [Socket.modifySocket, bind_of_some holds.readSocket, bind_of_some written]
  rfl

/-- A block is allocated besides the others. -/
theorem Holds.alloc (holds : Holds start l contents owned) (block : Block) :
    Holds start (l.withMemory (l.world.memory.alloc block).2) contents
      ((l.world.memory.alloc block).1 :: owned) where
  memory := holds.memory.alloc block
  member := List.mem_cons_of_mem _ holds.member
  socket := by
    have kept := Heap.alloc_extends l.world.memory block
    exact kept l.sp _ holds.socket

/-- A block other than the socket is freed. -/
theorem Holds.free {p : Ptr} (holds : Holds start l contents (p :: owned)) (other : l.sp ≠ p) :
    ∃ memory, l.world.memory.free p = some memory ∧
      Holds start (l.withMemory memory) contents owned ∧
      ∀ q, q ≠ p → memory.read q = l.world.memory.read q := by
  obtain ⟨memory, freed, besides, others⟩ := holds.memory.free
  refine ⟨memory, freed, ⟨besides, ?_, ?_⟩, others⟩
  · exact (List.mem_cons.mp holds.member).resolve_left other
  · have same := others l.sp other
    change memory.read l.sp = _
    rw [same]
    exact holds.socket

/-- A copy is made. -/
theorem Settled.duplicate (settled : Settled start l contents) (noCopy : l.addr = none)
    (text : List UInt8) : Settled start (duplicate l text) contents ∧
      readCopy (duplicate l text) = some text ∧ (duplicate l text).addr.isSome := by
  have holds := settled.holds.alloc (.text text)
  rw [noCopy] at holds
  refine ⟨⟨⟨holds.memory, holds.member, holds.socket⟩, settled.descriptors⟩, ?_, rfl⟩
  have read := Heap.read_alloc l.world.memory (.text text)
  exact (Option.bind_some _ _).trans (bind_of_some read)

/-- The socket is written and no copy or descriptor changes. -/
theorem Settled.modifySocket (settled : Settled start l contents)
    (change : EzcfgSocket → EzcfgSocket) (keeps : (change contents).sock = contents.sock) :
    ∃ next, modifySocket l change = some next ∧ Settled start next (change contents) ∧
      next.addr = l.addr := by
  obtain ⟨memory, done, holds, -⟩ := settled.holds.modifySocket change
  refine ⟨_, done, ⟨holds, ?_⟩, rfl⟩
  rw [keeps]
  exact settled.descriptors

/-- The copy is freed. -/
theorem Settled.freeCopy (settled : Settled start l contents) (copied : l.addr.isSome) :
    ∃ next, freeCopy l = some next ∧ Settled start next contents ∧ next.addr = none := by
  obtain ⟨p, addr⟩ := Option.isSome_iff_exists.mp copied
  have holds := settled.holds
  rw [addr] at holds
  have distinct := holds.memory.nodup
  have other : l.sp ≠ p := by
    rintro rfl
    exact (List.nodup_cons.mp distinct).1 List.mem_cons_self
  obtain ⟨memory, freed, after, -⟩ := holds.free other
  refine ⟨{ l.withMemory memory with addr := none }, ?_, ⟨?_, settled.descriptors⟩, rfl⟩
  · rw [Socket.freeCopy, addr, bind_of_some rfl, bind_of_some freed]
    rfl
  · exact ⟨after.memory, after.member, after.socket⟩

/-- What is left is freed, and the world reads as before. -/
theorem Settled.failExit (settled : Settled start l contents) : ∃ after,
    failExit l = some after ∧ (∀ p, after.memory.read p = start.memory.read p) ∧
      ∀ p, after.descriptors.read p = start.descriptors.read p := by
  have freed : ∃ next, freeCopyIf l = some next ∧ Settled start next contents ∧
      next.addr = none := by
    cases addr : l.addr with
    | none =>
      refine ⟨l, ?_, settled, addr⟩
      rw [freeCopyIf, addr]
    | some p =>
      obtain ⟨next, done, rest⟩ := settled.freeCopy (by rw [addr]; rfl)
      refine ⟨next, ?_, rest⟩
      rw [freeCopyIf, addr]
      exact done
  obtain ⟨next, copyFreed, settledNext, noCopy⟩ := freed
  have closed : ∃ descriptors, closeSock contents.sock next.world.descriptors = some descriptors ∧
      Heap.Besides start.descriptors descriptors [] := by
    have besides := settledNext.descriptors
    cases sock : contents.sock with
    | none =>
      rw [sock] at besides
      exact ⟨_, rfl, besides⟩
    | some fd =>
      rw [sock] at besides
      obtain ⟨descriptors, done, rest, -⟩ := besides.free
      exact ⟨descriptors, done, rest⟩
  obtain ⟨descriptors, closing, besides⟩ := closed
  have memory := settledNext.holds.memory
  rw [noCopy] at memory
  obtain ⟨blocks, done, rest, -⟩ := memory.free
  refine ⟨⟨blocks, descriptors⟩, ?_, rest.restored, besides.restored⟩
  rw [Socket.failExit, bind_of_some copyFreed, bind_of_some settledNext.holds.readSocket,
    bind_of_some closing, bind_of_some done]
  rfl

/-- A part is passed, and the socket has a property. -/
def Reaches (start : World) (result : Option (Bool × Locals)) (post : EzcfgSocket → Prop) : Prop :=
  ∃ next contents, result = some (true, next) ∧ next.addr = none ∧ Settled start next contents ∧
    post contents

/-- A part goes to the exit. -/
def Fails (start : World) (result : Option (Bool × Locals)) : Prop :=
  ∃ next contents, result = some (false, next) ∧ Settled start next contents

/-- A part is passed, or it goes to the exit. -/
def Ends (start : World) (result : Option (Bool × Locals)) (post : EzcfgSocket → Prop) : Prop :=
  Reaches start result post ∨ Fails start result

variable {first second : Step} {post last : EzcfgSocket → Prop}

/-- Behind a part that goes to the exit nothing is done. -/
theorem Fails.andThen (fails : Fails start (first l)) : Fails start (andThen first second l) := by
  obtain ⟨next, contents, done, settled⟩ := fails
  refine ⟨next, contents, ?_, settled⟩
  rw [Socket.andThen, done]
  rfl

/-- A part without a result. -/
theorem andThen_none (undefined : first l = none) : andThen first second l = none := by
  rw [andThen, undefined]
  rfl

/-- Behind a part that is passed the next one is run. -/
theorem andThen_passed (done : first l = some (true, next)) :
    andThen first second l = second next := by
  rw [andThen, done]
  rfl

/-- Parts behind each other end. -/
theorem Ends.andThen (ends : Ends start (first l) post)
    (later : ∀ next contents, next.addr = none → Settled start next contents → post contents →
      Ends start (second next) last) : Ends start (andThen first second l) last := by
  obtain ⟨next, contents, done, noCopy, settled, holds⟩ | fails := ends
  · rw [andThen_passed done]
    exact later next contents noCopy settled holds
  · exact .inr fails.andThen

/-- What follows from the property. -/
theorem Ends.imp {result : Option (Bool × Locals)} (ends : Ends start result post)
    (implied : ∀ contents, post contents → last contents) : Ends start result last := by
  obtain ⟨next, contents, done, noCopy, settled, holds⟩ | fails := ends
  · exact .inl ⟨next, contents, done, noCopy, settled, implied contents holds⟩
  · exact .inr fails

variable {env : Environment} {type : Int} {side : Side} {text : CString}
  {createSockfd : Bool}

/-- A descriptor is opened where one is wanted and granted. -/
def Opened (env : Environment) (createSockfd : Bool) : Prop :=
  createSockfd = true → env.socket = true

/-- A part that does nothing. -/
theorem reaches_same (settled : Settled start l contents) (noCopy : l.addr = none)
    (holds : post contents) : Reaches start (some (true, l)) post :=
  ⟨l, contents, rfl, noCopy, settled, holds⟩

/-- A descriptor is opened. -/
theorem openSocket_reaches (settled : Settled start l contents) (noCopy : l.addr = none)
    (noSock : contents.sock = none) (descriptor : Descriptor) (opened : Opened env createSockfd) :
    Reaches start (openSocket env createSockfd descriptor l) fun after =>
      ∃ sock, after = { contents with sock := sock } ∧ sock.isSome = createSockfd := by
  rw [openSocket]
  cases createSockfd with
  | false =>
    apply reaches_same settled noCopy
    refine ⟨none, ?_, rfl⟩
    rw [← noSock]
  | true =>
    have besides := settled.descriptors
    rw [noSock] at besides
    have one := besides.alloc descriptor
    rw [if_pos rfl, if_pos (opened rfl)]
    generalize l.world.descriptors.alloc descriptor = result at one ⊢
    obtain ⟨fd, descriptors⟩ := result
    dsimp only at one ⊢
    have holds : Holds start { l with world := { l.world with descriptors := descriptors } }
        contents (l.addr.toList ++ [l.sp]) :=
      ⟨settled.holds.memory, settled.holds.member, settled.holds.socket⟩
    obtain ⟨memory, done, after, -⟩ :=
      holds.modifySocket fun contents => { contents with sock := some fd }
    rw [bind_of_some done]
    exact ⟨_, _, rfl, noCopy, ⟨after, one⟩, some fd, rfl, rfl⟩

/-- No descriptor is opened. -/
theorem openSocket_fails (settled : Settled start l contents) (descriptor : Descriptor)
    (refused : ¬ Opened env createSockfd) :
    Fails start (openSocket env createSockfd descriptor l) := by
  rw [Opened, Classical.not_imp] at refused
  obtain ⟨rfl, refused⟩ := refused
  rw [openSocket, if_pos rfl, if_neg refused]
  exact ⟨l, contents, rfl, settled⟩

/-- Writing an address leaves the descriptor. -/
theorem put_sock (contents : EzcfgSocket) (side : Side) (usa : Usa) :
    (contents.put side usa).sock = contents.sock := by
  cases side with
  | laddr => rfl
  | raddr => rfl

/-- An address is written as the last thing of a part. -/
theorem Settled.put (settled : Settled start l contents) (noCopy : l.addr = none) (side : Side)
    (usa : Usa) : ∃ next, Socket.modifySocket l (·.put side usa) = some next ∧
      next.addr = none ∧ Settled start next (contents.put side usa) := by
  obtain ⟨next, done, after, addr⟩ :=
    settled.modifySocket (·.put side usa) (put_sock contents side usa)
  exact ⟨next, done, addr.trans noCopy, after⟩

/-- A text that fits is in `sun_path` with its terminator. -/
theorem write_sunPath {text : List UInt8} (fits : text.length < sunPathSize) :
    ByteArea.write (List.replicate sunPathSize 0) 0 (text ++ [0]) =
      some (text ++ List.replicate (sunPathSize - text.length) 0) := by
  have room : 0 + (text ++ [0]).length ≤ (List.replicate sunPathSize (0 : UInt8)).length := by
    rw [List.length_append, List.length_singleton, List.length_replicate]
    omega
  have more : sunPathSize - text.length = sunPathSize - (text.length + 1) + 1 := by omega
  rw [ByteArea.write, if_pos room, more, List.replicate_succ]
  simp

/-- "@" in front of a path is replaced by zero. -/
theorem abstractName_path (text zeros : List UInt8) :
    (if (text ++ 0 :: zeros).head? = some atSign then (text ++ 0 :: zeros).set 0 0
      else text ++ 0 :: zeros) = abstractName text ++ 0 :: zeros := by
  cases text with
  | nil => rfl
  | cons c rest =>
    rw [abstractName, List.cons_append, List.head?_cons, List.head?_cons]
    split
    · rfl
    · rfl

/-- A path is copied where it is given and fits. -/
theorem copyPath_reaches (side : Side) (settled : Settled start l contents) (noCopy : l.addr = none)
    (fits : text.bytes.length < sunPathSize) :
    Reaches start (copyPath side (some text) l) fun after =>
      after = contents.put side (pathAddress text.bytes) := by
  obtain ⟨next, done, addr, after⟩ := settled.put noCopy side (pathAddress text.bytes)
  refine ⟨next, _, ?_, addr, after, rfl⟩
  obtain ⟨zeros, more⟩ : ∃ zeros, sunPathSize - text.bytes.length = zeros + 1 :=
    ⟨sunPathSize - text.bytes.length - 1, by omega⟩
  have name := ByteArea.takeWhile_nonul text.bytes (List.replicate zeros 0) text.nonul
  rw [pathAddress, more, List.replicate_succ] at done
  rw [copyPath, bind_of_some rfl, bind_of_some (write_sunPath fits), more, List.replicate_succ]
  dsimp only
  rw [name, abstractName_path, bind_of_some done]
  rfl

/-- A path that is absent, or that does not fit, has no result. -/
theorem copyPath_none {text : Option CString}
    (unfit : ¬ ∃ given, text = some given ∧ given.bytes.length < sunPathSize) :
    copyPath side text l = none := by
  cases text with
  | none => rfl
  | some text =>
    have long : ¬ 0 + (text.bytes ++ [0]).length ≤
        (List.replicate sunPathSize (0 : UInt8)).length := by
      rw [List.length_append, List.length_singleton, List.length_replicate]
      intro fits
      exact unfit ⟨text, rfl, by omega⟩
    rw [copyPath, bind_of_some rfl, ByteArea.write, if_neg long]
    rfl

/-- A copy is cut into a host and a port. -/
theorem splitPort_isHostPort (text : List UInt8) :
    IsHostPort text (splitPort text).1 (splitPort text).2 := by
  by_cases present : colon ∈ text
  · obtain ⟨host, port, rfl, absent⟩ := List.eq_append_cons_of_mem present
    rw [splitPort, cutAt_mark colon host port absent]
    exact ⟨rfl, absent⟩
  · rw [splitPort, cutAt_absent present]
    exact ⟨rfl, present⟩

/-- A text of the domain `AF_INET` is decoded, unless no copy is made. -/
theorem decodeInet_ends (settled : Settled start l contents) (noCopy : l.addr = none)
    (createSockfd : Bool) : Ends start (decodeInet env side text l) fun after =>
      ∃ usa, Decodes env .afInet type createSockfd side text.bytes usa ∧
        after = contents.put side usa := by
  rw [decodeInet]
  split
  · obtain ⟨copied, read, addr⟩ := settled.duplicate noCopy text.bytes
    rw [bind_of_some read]
    have hostPort := splitPort_isHostPort text.bytes
    generalize splitPort text.bytes = parts at hostPort ⊢
    obtain ⟨host, port⟩ := parts
    dsimp only at hostPort ⊢
    obtain ⟨next, done, written, same⟩ := copied.modifySocket
      (·.put side ⟨16, .sin (sinPort port) (env.inetAddr host)⟩) (put_sock _ _ _)
    obtain ⟨final, freed, after, noCopyFinal⟩ := written.freeCopy (by rw [same]; exact addr)
    rw [bind_of_some done, bind_of_some freed]
    exact .inl ⟨final, _, rfl, noCopyFinal, after, _, ⟨host, port, hostPort, rfl⟩, rfl⟩
  · exact .inr ⟨l, contents, rfl, settled⟩

/-- A text of the domain `AF_NETLINK` is decoded. -/
theorem decodeNetlink_ends (settled : Settled start l contents) (noCopy : l.addr = none) :
    Ends start (decodeNetlink env createSockfd side text l) fun after =>
      ∃ usa, Decodes env .afNetlink type createSockfd side text.bytes usa ∧
        after = contents.put side usa := by
  obtain ⟨next, done, addr, after⟩ := settled.put noCopy side
    ⟨12, .snl (nlGroups text.bytes) (nlPid env createSockfd side)⟩
  rw [decodeNetlink, bind_of_some done]
  exact .inl ⟨next, _, rfl, addr, after, _, rfl, rfl⟩

/-- The size of the buffer is set or not. -/
theorem setBuffer_ends (settled : Settled start l contents) (noCopy : l.addr = none) :
    Ends start (setBuffer env createSockfd l) fun after => after = contents := by
  rw [setBuffer]
  split
  · split
    · exact .inl (reaches_same settled noCopy rfl)
    · split
      · exact .inl (reaches_same settled noCopy rfl)
      · exact .inr ⟨l, contents, rfl, settled⟩
  · exact .inl (reaches_same settled noCopy rfl)

/-- A result of `getaddrinfo` is freed behind its use. -/
theorem Settled.freeResult {result : Ptr} (settled : Settled start l contents) (other : Locals)
    (addr : other.addr = l.addr) (sp : other.sp = l.sp)
    (descriptors : other.world.descriptors = l.world.descriptors) {after : EzcfgSocket}
    (sock : after.sock = contents.sock)
    (holds : Holds start other after (result :: (l.addr.toList ++ [l.sp]))) :
    ∃ memory, other.world.memory.free result = some memory ∧
      Settled start (other.withMemory memory) after := by
  have distinct := (List.nodup_cons.mp holds.memory.nodup).1
  have apart : other.sp ≠ result := by
    rintro same
    apply distinct
    rw [← same, sp]
    exact List.mem_append_right _ (List.mem_singleton_self _)
  obtain ⟨memory, freed, rest, -⟩ := holds.free apart
  refine ⟨memory, freed, ?_, ?_⟩
  · change Holds start (other.withMemory memory) after (other.addr.toList ++ [other.sp])
    rw [addr, sp]
    exact rest
  · change Heap.Besides start.descriptors other.world.descriptors after.sock.toList
    rw [descriptors, sock]
    exact settled.descriptors

/-- The copy behind "[" is decoded exactly when one address is found for it. -/
theorem resolve_cases (env : Environment) (type : Int) (side : Side) (settled : Settled start l contents) (copied : l.addr.isSome)
    {rest : List UInt8} (read : readCopy l = some rest) :
    (∃ found, Resolves env type side rest found ∧
        Reaches start (resolve env type side l) fun after =>
          after = contents.put side ⟨28, .sin6 found⟩) ∨
      (¬ ∃ found, Resolves env type side rest found) ∧
        Fails start (resolve env type side l) := by
  have failing : Fails start (some (false, l)) := ⟨l, contents, rfl, settled⟩
  rw [resolve, bind_of_some read]
  by_cases present : rightBracket ∈ rest
  · obtain ⟨host, behind, rfl, absent⟩ := List.eq_append_cons_of_mem present
    -- the text can be cut in one way only
    have only : ∀ found, Resolves env type side (host ++ rightBracket :: behind) found →
        env.getaddrinfo side type host (portBehind behind) = some (found, []) := by
      rintro found ⟨hostToo, behindToo, same, absentToo, known⟩
      obtain ⟨rfl, rfl⟩ := mark_unique same absent absentToo
      exact known
    rw [cutAt_mark rightBracket host behind absent]
    dsimp only
    cases asked : env.getaddrinfo side type host (portBehind behind) with
    | none =>
      refine .inr ⟨?_, failing⟩
      rintro ⟨found, resolves⟩
      have known := only found resolves
      rw [asked] at known
      cases known
    | some list =>
      obtain ⟨first, others⟩ := list
      dsimp only
      have holds := settled.holds.alloc (.addrinfo first others)
      generalize l.world.memory.alloc (.addrinfo first others) = result at holds ⊢
      obtain ⟨result, memory⟩ := result
      dsimp only at holds ⊢
      by_cases alone : others = []
      · subst alone
        obtain ⟨blocks, done, written, -⟩ :=
          holds.modifySocket (·.put side ⟨28, .sin6 first⟩)
        obtain ⟨left, freed, settledToo⟩ :=
          settled.freeResult ((l.withMemory memory).withMemory blocks) rfl rfl rfl
            (put_sock contents side _) written
        obtain ⟨final, freedToo, after, noCopy⟩ := settledToo.freeCopy copied
        left
        refine ⟨first, ⟨host, behind, rfl, absent, asked⟩, final, _, ?_, noCopy, after, rfl⟩
        rw [if_pos rfl, bind_of_some done, bind_of_some freed, bind_of_some freedToo]
        rfl
      · obtain ⟨left, freed, settledToo⟩ := settled.freeResult (l.withMemory memory) rfl rfl rfl rfl holds
        right
        refine ⟨?_, _, contents, ?_, settledToo⟩
        · rintro ⟨found, resolves⟩
          have known := only found resolves
          rw [asked] at known
          exact alone (Prod.mk.inj (Option.some.inj known)).2
        · rw [if_neg alone, bind_of_some freed]
          rfl
  · rw [cutAt_absent present]
    refine .inr ⟨?_, failing⟩
    rintro ⟨found, host, behind, rfl, -⟩
    exact present (List.mem_append_right _ List.mem_cons_self)

/-- Behind a text that starts with "[" the other letters of a text are decoded exactly when one
address is found for them. -/
theorem decodeInet6_cases (env : Environment) (type : Int) (side : Side) (settled : Settled start l contents) (noCopy : l.addr = none)
    {tested : CString} (bracket : tested.bytes.head? = some leftBracket) {c : UInt8}
    {rest : List UInt8} (cut : text.bytes = c :: rest) :
    (Found env type side rest ∧ Reaches start (decodeInet6 env type side (some tested) text l)
        fun after => ∃ found, Resolves env type side rest found ∧
          after = contents.put side ⟨28, .sin6 found⟩) ∨
      ¬ Found env type side rest ∧
        Fails start (decodeInet6 env type side (some tested) text l) := by
  rw [decodeInet6, bind_of_some rfl, if_pos bracket, cut]
  dsimp only
  by_cases granted : env.strdup side = true
  · obtain ⟨copied, read, addr⟩ := settled.duplicate noCopy rest
    rw [if_pos granted]
    obtain ⟨found, resolves, next, after, done, noCopyToo, settledToo, rfl⟩ | ⟨absent, fails⟩ :=
      resolve_cases env type side copied addr read
    · exact .inl ⟨⟨granted, found, resolves⟩, next, _, done, noCopyToo, settledToo, found,
        resolves, rfl⟩
    · exact .inr ⟨fun known => absent known.2, fails⟩
  · rw [if_neg granted]
    exact .inr ⟨fun known => granted known.1, l, contents, rfl, settled⟩

/-- A text is refused where the tested one does not start with "[". -/
theorem decodeInet6_fails (settled : Settled start l contents) {tested : CString}
    (other : tested.bytes.head? ≠ some leftBracket) :
    Fails start (decodeInet6 env type side (some tested) text l) := by
  rw [decodeInet6, bind_of_some rfl, if_neg other]
  exact ⟨l, contents, rfl, settled⟩

/-- Behind the terminator of an empty text nothing is read. -/
theorem decodeInet6_empty {tested : CString} (bracket : tested.bytes.head? = some leftBracket)
    (empty : text.bytes = []) : decodeInet6 env type side (some tested) text l = none := by
  rw [decodeInet6, bind_of_some rfl, if_pos bracket, empty]

/-- The first text is decoded, or it is refused. -/
theorem decodeInet6_first (settled : Settled start l contents) (noCopy : l.addr = none) :
    ((∃ rest, text.bytes = leftBracket :: rest ∧ Found env type .laddr rest) ∧
        Reaches start (decodeInet6 env type .laddr (some text) text l) fun after =>
          ∃ usa, Decodes env .afInet6 type createSockfd .laddr text.bytes usa ∧
            after = contents.put .laddr usa) ∨
      (¬ ∃ rest, text.bytes = leftBracket :: rest ∧ Found env type .laddr rest) ∧
        Fails start (decodeInet6 env type .laddr (some text) text l) := by
  by_cases bracket : text.bytes.head? = some leftBracket
  · obtain ⟨rest, cut⟩ := List.head?_eq_some_iff.mp bracket
    obtain ⟨found, next, after, done, noCopyToo, settledToo, address, resolves, rfl⟩ |
        ⟨absent, fails⟩ := decodeInet6_cases env type .laddr
          settled noCopy bracket cut
    · exact .inl ⟨⟨rest, cut, found⟩, next, _, done, noCopyToo, settledToo, _,
        ⟨rest, address, cut, resolves, rfl⟩, rfl⟩
    · refine .inr ⟨?_, fails⟩
      rintro ⟨other, cutToo, found⟩
      rw [cut] at cutToo
      obtain ⟨-, rfl⟩ := List.cons.inj cutToo
      exact absent found
  · refine .inr ⟨?_, decodeInet6_fails settled bracket⟩
    rintro ⟨rest, cut, -⟩
    apply bracket
    rw [cut]
    rfl

end Parts

end Ezcfg.Socket

import Ezcfg.Socket.AddressTexts

/-!
# The socket that is built

`create_socket` returns a socket with the addresses that its texts stand for, or it leaves the
world as it was, unless a path is absent or too long, or the bracket in front of the second text of
the domain `AF_INET6` is missing or is looked for in a text that is absent.
-/

namespace Ezcfg.Socket

open Foundation

section Results

variable (env : Environment) (domain : Domain) (type : Int) (proto : Int)
  (laddr raddr : Option CString) (createSockfd : Bool) (world : World)

/-- A socket is returned with both addresses, and it and its descriptor are all that is live
besides the world before; or none is, and the world reads as before. -/
def Meets (result : Option (Option Ptr × World)) : Prop :=
  (∃ sp after sock lsa rsa, result = some (some sp, after) ∧
      after.memory.read sp = some (.socket ⟨sock, proto, domain, type, lsa, rsa⟩) ∧
      sock.isSome = createSockfd ∧ Shows env domain type createSockfd .laddr laddr lsa ∧
      Shows env domain type createSockfd .raddr raddr rsa ∧
      Heap.Besides world.memory after.memory [sp] ∧
      Heap.Besides world.descriptors after.descriptors sock.toList) ∨
    ∃ after, result = some (none, after) ∧ (∀ p, after.memory.read p = world.memory.read p) ∧
      ∀ p, after.descriptors.read p = world.descriptors.read p

/-- The cases of the domain are reached. -/
def Reached : Prop :=
  proto ∈ supportProtocols env.upnpd ∧ env.calloc = true ∧ Opened env createSockfd

/-- A path is given and fits into `sun_path`. -/
def PathFits (text : Option CString) : Prop :=
  ∃ given, text = some given ∧ given.bytes.length < sunPathSize

/-- What the texts have to be like where the cases of the domain are reached. A second text of the
domain `AF_INET6` has to have a first one in front of it. When that is decoded, the second one
starts with "[", or it has a first letter and what stands behind this is not decoded. -/
def Suitable : Prop :=
  match domain with
  | .afLocal => PathFits laddr ∧ PathFits raddr
  | .afInet => True
  | .afInet6 => ∀ second, raddr = some second → ∃ first, laddr = some first ∧
      ((∃ rest, first.bytes = leftBracket :: rest ∧ Found env type .laddr rest) →
        ∃ c rest, second.bytes = c :: rest ∧ (c = leftBracket ∨ ¬ Found env type .raddr rest))
  | .afNetlink => True

variable {env domain type proto laddr raddr createSockfd world}

/-- A new socket is settled. -/
theorem callocSocket_settled : Settled world (callocSocket domain type proto world)
    ⟨none, proto, domain, type, .zero, .zero⟩ where
  holds := {
    memory := (Heap.besides_refl world.memory).alloc _
    member := List.mem_singleton_self _
    socket := Heap.read_alloc _ _ }
  descriptors := Heap.besides_refl world.descriptors

variable {step : Step} {l : Locals}

/-- The addresses of a socket that was written twice. -/
def Filled (env : Environment) (domain : Domain) (type : Int) (proto : Int)
    (laddr raddr : Option CString) (createSockfd : Bool) (after : EzcfgSocket) : Prop :=
  ∃ sock lsa rsa, after = ⟨sock, proto, domain, type, lsa, rsa⟩ ∧ sock.isSome = createSockfd ∧
    Shows env domain type createSockfd .laddr laddr lsa ∧
    Shows env domain type createSockfd .raddr raddr rsa

/-- A part for a text that may be absent. -/
theorem given_ends {side : Side} {text : Option CString} {decode : CString → Step}
    {start : World} {contents : EzcfgSocket} (settled : Settled start l contents)
    (noCopy : l.addr = none) (zero : contents.put side .zero = contents)
    (ends : ∀ text, Ends start (decode text l) fun after =>
      ∃ usa, Decodes env domain type createSockfd side text.bytes usa ∧
        after = contents.put side usa) :
    Ends start (given text decode l) fun after =>
      ∃ usa, Shows env domain type createSockfd side text usa ∧ after = contents.put side usa := by
  cases text with
  | none => exact .inl (reaches_same settled noCopy ⟨.zero, rfl, zero.symm⟩)
  | some text => exact ends text

/-- Two parts for two texts. -/
theorem given_both {decode : Side → CString → Step} {start : World} {sock : Option Ptr}
    (settled : Settled start l ⟨sock, proto, domain, type, .zero, .zero⟩) (noCopy : l.addr = none)
    (isSome : sock.isSome = createSockfd)
    (ends : ∀ side text next contents, Settled start next contents → next.addr = none →
      Ends start (decode side text next) fun after =>
        ∃ usa, Decodes env domain type createSockfd side text.bytes usa ∧
          after = contents.put side usa) :
    Ends start (andThen (given laddr (decode .laddr)) (given raddr (decode .raddr)) l)
      (Filled env domain type proto laddr raddr createSockfd) := by
  apply (given_ends settled noCopy rfl fun text => ends .laddr text l _ settled noCopy).andThen
  rintro next contents noCopyNext settledNext ⟨lsa, first, rfl⟩
  apply (given_ends settledNext noCopyNext rfl
    fun text => ends .raddr text next _ settledNext noCopyNext).imp
  rintro after ⟨rsa, second, rfl⟩
  exact ⟨sock, lsa, rsa, rfl, isSome, first, second⟩

/-- Where the parts end the result meets what is wanted. -/
theorem meets_of_ends (supported : proto ∈ supportProtocols env.upnpd)
    (granted : env.calloc = true) (given : laddr.isSome ∨ raddr.isSome)
    (ends : Ends world (fillSocket env domain type proto laddr raddr createSockfd
      (callocSocket domain type proto world))
      (Filled env domain type proto laddr raddr createSockfd)) :
    Meets env domain type proto laddr raddr createSockfd world
      (createSocket env domain type proto laddr raddr createSockfd world) := by
  rw [createSocket, bind_of_some (ensure_of given), if_pos supported, if_pos granted]
  obtain ⟨next, contents, done, noCopy, settled, sock, lsa, rsa, rfl, filled⟩ |
    ⟨next, contents, done, settled⟩ := ends
  · rw [bind_of_some done]
    have memory := settled.holds.memory
    rw [noCopy] at memory
    exact .inl ⟨next.sp, next.world, sock, lsa, rsa, rfl, settled.holds.socket, filled.1,
      filled.2.1, filled.2.2, memory, settled.descriptors⟩
  · obtain ⟨after, exits, same⟩ := settled.failExit
    rw [bind_of_some done]
    dsimp only
    rw [bind_of_some exits]
    exact .inr ⟨after, rfl, same⟩

/-- Where the cases of the domain are not reached, nothing is returned and nothing is left. -/
theorem meets_of_not_reached (given : laddr.isSome ∨ raddr.isSome)
    (unreached : ¬ Reached env proto createSockfd) :
    Meets env domain type proto laddr raddr createSockfd world
      (createSocket env domain type proto laddr raddr createSockfd world) := by
  by_cases supported : proto ∈ supportProtocols env.upnpd
  · by_cases granted : env.calloc = true
    · apply meets_of_ends supported granted given
      right
      rw [fillSocket]
      apply Fails.andThen
      apply openSocket_fails callocSocket_settled
      exact fun opened => unreached ⟨supported, granted, opened⟩
    · rw [createSocket, bind_of_some (ensure_of given), if_pos supported, if_neg granted]
      exact .inr ⟨world, rfl, fun _ => rfl, fun _ => rfl⟩
  · rw [createSocket, bind_of_some (ensure_of given), if_neg supported]
    exact .inr ⟨world, rfl, fun _ => rfl, fun _ => rfl⟩

/-- Behind the descriptor the cases of the domain are run. -/
theorem fillSocket_opened (opened : Opened env createSockfd) :
    ∃ next sock, Settled world next ⟨sock, proto, domain, type, .zero, .zero⟩ ∧
      next.addr = none ∧ sock.isSome = createSockfd ∧
      openSocket env createSockfd ⟨domain, type, sockProtocol proto⟩
        (callocSocket domain type proto world) = some (true, next) := by
  obtain ⟨next, contents, done, noCopy, settled, sock, rfl, isSome⟩ :=
    openSocket_reaches (@callocSocket_settled domain type proto world) rfl rfl
      ⟨domain, type, sockProtocol proto⟩ opened
  exact ⟨next, sock, settled, noCopy, isSome, done⟩

/-- A path that fits is decoded. -/
theorem copyPath_shows {side : Side} {text : Option CString} {start : World}
    {contents : EzcfgSocket} (settled : Settled start l contents) (noCopy : l.addr = none)
    (fits : PathFits text) : Ends start (copyPath side text l) fun after =>
      ∃ usa, Shows env .afLocal type createSockfd side text usa ∧
        after = contents.put side usa := by
  obtain ⟨given, rfl, short⟩ := fits
  obtain ⟨next, after, done, noCopyToo, settledToo, rfl⟩ :=
    copyPath_reaches side settled noCopy short
  exact .inl ⟨next, _, done, noCopyToo, settledToo, _, ⟨short, rfl⟩, rfl⟩

/-- Both texts of the domain `AF_INET6` are decoded, or one of them is refused. -/
theorem decodeInet6_both {start : World} {sock : Option Ptr}
    (settled : Settled start l ⟨sock, proto, .afInet6, type, .zero, .zero⟩) (noCopy : l.addr = none)
    (isSome : sock.isSome = createSockfd)
    (suitable : Suitable env .afInet6 type laddr raddr) :
    Ends start (andThen (given laddr (decodeInet6 env type .laddr laddr))
      (given raddr (decodeInet6 env type .raddr laddr)) l)
      (Filled env .afInet6 type proto laddr raddr createSockfd) := by
  cases laddr with
  | none =>
    cases raddr with
    | none =>
      exact .inl (reaches_same settled noCopy ⟨sock, .zero, .zero, rfl, isSome, rfl, rfl⟩)
    | some second =>
      obtain ⟨first, absurd, -⟩ := suitable second rfl
      cases absurd
  | some first =>
    obtain ⟨decoded, next, contents, done, noCopyNext, settledNext, lsa, shows, rfl⟩ | ⟨-, fails⟩ :=
      @decodeInet6_first start l _ env type first createSockfd settled noCopy
    · have passed : given (some first) (decodeInet6 env type .laddr (some first)) l =
          some (true, next) := done
      rw [andThen_passed passed]
      cases raddr with
      | none =>
        exact .inl (reaches_same settledNext noCopyNext
          ⟨sock, lsa, .zero, rfl, isSome, shows, rfl⟩)
      | some second =>
        obtain ⟨_, ⟨⟩, fits⟩ := suitable second rfl
        obtain ⟨c, rest, cut, isBracket⟩ := fits decoded
        obtain ⟨tail, firstCut, -⟩ := decoded
        have bracket : first.bytes.head? = some leftBracket := by
          rw [firstCut]
          rfl
        obtain ⟨found, final, after, doneToo, noCopyFinal, settledFinal, address, resolves, rfl⟩ |
            ⟨-, fails⟩ := decodeInet6_cases env type .raddr
              settledNext noCopyNext bracket cut
        · obtain rfl := isBracket.resolve_right fun absent => absent found
          exact .inl ⟨final, _, doneToo, noCopyFinal, settledFinal, sock, lsa, _, rfl, isSome,
            shows, rest, address, cut, resolves, rfl⟩
        · exact .inr fails
    · exact .inr (Fails.andThen fails)

/-- Suitable texts are decoded. -/
theorem fillSocket_ends (opened : Opened env createSockfd)
    (suitable : Suitable env domain type laddr raddr) :
    Ends world (fillSocket env domain type proto laddr raddr createSockfd
      (callocSocket domain type proto world))
      (Filled env domain type proto laddr raddr createSockfd) := by
  obtain ⟨next, sock, settled, noCopy, isSome, done⟩ :=
    @fillSocket_opened env domain type proto createSockfd world opened
  rw [fillSocket, andThen_passed done]
  cases domain with
  | afLocal =>
    apply (copyPath_shows settled noCopy suitable.1).andThen
    rintro after contents noCopyAfter settledAfter ⟨lsa, first, rfl⟩
    apply (copyPath_shows settledAfter noCopyAfter suitable.2).imp
    rintro contents ⟨rsa, second, rfl⟩
    exact ⟨sock, lsa, rsa, rfl, isSome, first, second⟩
  | afInet =>
    exact given_both settled noCopy isSome
      fun side text next contents settled noCopy => decodeInet_ends settled noCopy createSockfd
  | afInet6 => exact decodeInet6_both settled noCopy isSome suitable
  | afNetlink =>
    apply (setBuffer_ends settled noCopy).andThen
    rintro after contents noCopyAfter settledAfter rfl
    exact given_both settledAfter noCopyAfter isSome
      fun side text next contents settled noCopy => decodeNetlink_ends settled noCopy

/-- What is met has a result. -/
theorem not_meets_of_none (undefined : fillSocket env domain type proto laddr raddr createSockfd
      (callocSocket domain type proto world) = none)
    (reached : Reached env proto createSockfd) (given : laddr.isSome ∨ raddr.isSome) :
    ¬ Meets env domain type proto laddr raddr createSockfd world
      (createSocket env domain type proto laddr raddr createSockfd world) := by
  rw [createSocket, bind_of_some (ensure_of given), if_pos reached.1, if_pos reached.2.1, undefined]
  rintro (⟨_, _, _, _, _, absurd, -⟩ | ⟨_, absurd, -⟩)
  · cases absurd
  · cases absurd

/-- A path that is absent or too long has no result. -/
theorem fillSocket_long (opened : Opened env createSockfd)
    (unfit : ¬ (PathFits laddr ∧ PathFits raddr)) :
    fillSocket env .afLocal type proto laddr raddr createSockfd
      (callocSocket .afLocal type proto world) = none := by
  obtain ⟨next, sock, settled, noCopy, -, done⟩ :=
    @fillSocket_opened env .afLocal type proto createSockfd world opened
  rw [fillSocket, andThen_passed done]
  by_cases fits : PathFits laddr
  · obtain ⟨first, rfl, short⟩ := fits
    obtain ⟨after, contents, copied, -⟩ := copyPath_reaches .laddr settled noCopy short
    rw [fillAddresses, andThen_passed copied]
    exact copyPath_none fun fitsToo => unfit ⟨⟨first, rfl, short⟩, fitsToo⟩
  · exact andThen_none (copyPath_none fits)

/-- When the parts are passed the socket is returned. -/
theorem createSocket_passed (supported : proto ∈ supportProtocols env.upnpd)
    (granted : env.calloc = true) (given : laddr.isSome ∨ raddr.isSome)
    (done : fillSocket env domain type proto laddr raddr createSockfd
      (callocSocket domain type proto world) = some (true, l)) :
    createSocket env domain type proto laddr raddr createSockfd world = some (some l.sp, l.world) := by
  rw [createSocket, bind_of_some (ensure_of given), if_pos supported, if_pos granted,
    bind_of_some done]
  rfl

/-- Texts of the domain `AF_INET6` that are not suitable are not decoded: a text is read that is
absent, or one behind its terminator, or an address is found without the bracket. -/
theorem not_meets_inet6 (reached : Reached env proto createSockfd)
    (given : laddr.isSome ∨ raddr.isSome) (unfit : ¬ Suitable env .afInet6 type laddr raddr) :
    ¬ Meets env .afInet6 type proto laddr raddr createSockfd world
      (createSocket env .afInet6 type proto laddr raddr createSockfd world) := by
  obtain ⟨next, sock, settled, noCopy, -, done⟩ :=
    @fillSocket_opened env .afInet6 type proto createSockfd world reached.2.2
  rw [Suitable] at unfit
  push Not at unfit
  obtain ⟨second, rfl, unfit⟩ := unfit
  cases laddr with
  | none =>
    refine not_meets_of_none ?_ reached given
    rw [fillSocket, andThen_passed done]
    rfl
  | some first =>
    obtain ⟨decoded, unfit⟩ := unfit first rfl
    obtain ⟨-, after, contents, passed, noCopyAfter, settledAfter, lsa, -, rfl⟩ | ⟨absent, -⟩ :=
      @decodeInet6_first world next _ env type first createSockfd settled noCopy
    · obtain ⟨tail, firstCut, -⟩ := decoded
      have bracket : first.bytes.head? = some leftBracket := by
        rw [firstCut]
        rfl
      have rest : fillSocket env .afInet6 type proto (some first) (some second) createSockfd
          (callocSocket .afInet6 type proto world) =
            decodeInet6 env type .raddr (some first) second after := by
        rw [fillSocket, andThen_passed done]
        exact andThen_passed passed
      cases cut : second.bytes with
      | nil =>
        refine not_meets_of_none ?_ reached given
        rw [rest]
        exact decodeInet6_empty bracket cut
      | cons c letters =>
        obtain ⟨notBracket, found⟩ := unfit c letters cut
        obtain ⟨-, final, contents, doneToo, -, settledFinal, address, -, rfl⟩ | ⟨absent, -⟩ :=
          decodeInet6_cases env type .raddr settledAfter noCopyAfter
            bracket cut
        · rw [← rest] at doneToo
          rw [createSocket_passed reached.1 reached.2.1 given doneToo]
          rintro (⟨_, _, _, _, _, -, -, -, -, shows, -⟩ | ⟨_, absurd, -⟩)
          · obtain ⟨letters, _, cutToo, -⟩ := shows
            rw [cut] at cutToo
            exact notBracket (List.cons.inj cutToo).1
          · cases (Prod.mk.inj (Option.some.inj absurd)).1
        · exact absurd found absent
    · exact absurd decoded absent

end Results

/-- `create_socket` does what is wanted exactly when the texts are suitable for the domain, or the
cases of the domain are not reached. -/
theorem createSocket_meets_iff (env : Environment) (domain : Domain) (type : Int)
    (proto : Int) (laddr raddr : Option CString) (createSockfd : Bool) (world : World)
    (given : laddr.isSome ∨ raddr.isSome) :
    Meets env domain type proto laddr raddr createSockfd world
        (createSocket env domain type proto laddr raddr createSockfd world) ↔
      (Reached env proto createSockfd → Suitable env domain type laddr raddr) := by
  constructor
  · intro meets reached
    by_contra unfit
    cases domain with
    | afLocal => exact not_meets_of_none (fillSocket_long reached.2.2 unfit) reached given meets
    | afInet => exact unfit trivial
    | afInet6 => exact not_meets_inet6 reached given unfit meets
    | afNetlink => exact unfit trivial
  · intro suitable
    by_cases reached : Reached env proto createSockfd
    · exact meets_of_ends reached.1 reached.2.1 given
        (fillSocket_ends reached.2.2 (suitable reached))
    · exact meets_of_not_reached given reached

/-- "127.0.0.1" -/
def loopback : List UInt8 := [0x31, 0x32, 0x37, 0x2e, 0x30, 0x2e, 0x30, 0x2e, 0x31]

/-- All calls are granted, but no address is found for a host. -/
def granting : Environment where
  upnpd := false
  calloc := true
  socket := true
  rcvbufforce := true
  rcvbuf := true
  strdup _ := true
  inetAddr host := if host = loopback then 0x0100007f else 0xffffffff
  getaddrinfo _ _ _ _ := none
  getsockname _ := none

/-- "127.0.0.1:80" -/
def localServer : CString := ⟨loopback ++ [colon, 0x38, 0x30], by decide, by decide⟩

/-- A server of the domain `AF_INET`. -/
theorem createSocket_meets_iff_server :
    Meets granting .afInet 1 2 (some localServer) none true ⟨[], []⟩
        (createSocket granting .afInet 1 2 (some localServer) none true ⟨[], []⟩) ↔
      (Reached granting 2 true → Suitable granting .afInet 1 (some localServer) none) :=
  createSocket_meets_iff granting .afInet 1 2 (some localServer) none true ⟨[], []⟩ (.inl rfl)

/-- "/tmp/s" -/
def localPath : CString := ⟨[0x2f, 0x74, 0x6d, 0x70, 0x2f, 0x73], by decide, by decide⟩

/-- A server of the domain `AF_LOCAL` has no second path, which is read. -/
theorem createSocket_local_not : ¬ Meets granting .afLocal 1 1 (some localPath) none false ⟨[], []⟩
    (createSocket granting .afLocal 1 1 (some localPath) none false ⟨[], []⟩) := by
  have opened : Opened granting false := fun _ => rfl
  have unfit : ¬ (PathFits (some localPath) ∧ PathFits none) := by
    rintro ⟨-, given, absurd, -⟩
    cases absurd
  exact not_meets_of_none (fillSocket_long opened unfit) ⟨by decide, rfl, opened⟩ (.inl rfl)

end Ezcfg.Socket

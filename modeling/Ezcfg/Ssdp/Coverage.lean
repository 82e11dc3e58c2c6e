import Ezcfg.Foundation.Worklist
import Ezcfg.Ssdp.Announcing
import Ezcfg.Values

/-!
# What is announced

The loop over the devices refines a walk over the forest of the root device, and the queue holds
the chains that wait. A walk leaves no chain waiting; it leaves a block when some device has
embedded ones. A function that notifies releases the block behind each walk and keeps the
pointer to it, so that the walk that follows fails; the response to a search never releases it.
-/

namespace Ezcfg.Ssdp

open Foundation Worklist

/-- The chains that wait in the cells behind the read index. -/
inductive Waits : Queue → List (List UpnpDevice) → Prop where
  | null : Waits .initial []
  | live (cells : List (Option (List UpnpDevice))) (qi : Nat) (waiting : List (List UpnpDevice))
      (read : qi ≤ cells.length) (behind : cells.drop qi = waiting.map some) :
      Waits ⟨.live cells, qi, cells.length⟩ waiting

/-- No device of a node has embedded ones. -/
def Plain (upnp : Upnp) : Prop := ∀ udp ∈ belowAll upnp.devices, udp.deviceList = []

/-- The devices below a chain are those below its devices. -/
theorem belowAll_eq (chain : List UpnpDevice) : belowAll chain = chain.flatMap below := by
  induction chain with
  | nil => rw [belowAll, List.flatMap_nil]
  | cons udp rest inductionHypothesis =>
    rw [belowAll, List.flatMap_cons, inductionHypothesis]

/-- Below a device are the device and what is below its embedded ones. -/
theorem below_unfold (udp : UpnpDevice) : below udp = udp :: udp.deviceList.flatMap below := by
  cases udp with
  | mk deviceType UDN serviceList deviceList =>
    rw [below, belowAll_eq]
    rfl

/-- Putting an embedded list into the queue. -/
theorem push_waits {queue : Queue} {waiting : List (List UpnpDevice)} (waits : Waits queue waiting)
    (deviceList : List UpnpDevice) :
    ∃ after, queue.push deviceList = some after ∧ Waits after (enqueue waiting deviceList) ∧
      (after.block = .null ↔ queue.block = .null ∧ deviceList = []) := by
  by_cases empty : deviceList = []
  · refine ⟨queue, ?_, ?_, ?_⟩
    · rw [Queue.push, if_pos empty]
    · rw [enqueue, if_pos empty]
      exact waits
    · exact ⟨fun null => ⟨null, empty⟩, fun both => both.1⟩
  · rw [enqueue, if_neg empty]
    cases waits with
    | null =>
      refine ⟨⟨.live [some deviceList], 0, 1⟩, ?_, ?_, ?_⟩
      · rw [Queue.push, if_neg empty]
        rfl
      · exact .live [some deviceList] 0 _ (Nat.zero_le _) rfl
      · constructor
        · intro null
          cases null
        · intro both
          exact absurd both.2 empty
    | live cells qi waiting read behind =>
      have grown : (cells.take (cells.length + 1) ++
          List.replicate (cells.length + 1 - cells.length) none).set cells.length
            (some deviceList) = cells ++ [some deviceList] := by
        rw [List.take_of_length_le (Nat.le_succ _), Nat.add_sub_cancel_left,
          List.set_append_right _ _ (Nat.le_refl _), Nat.sub_self]
        rfl
      have length : cells.length + 1 = (cells ++ [some deviceList]).length := by
        rw [List.length_append, List.length_singleton]
      refine ⟨⟨.live (cells ++ [some deviceList]), qi, cells.length + 1⟩, ?_, ?_, ?_⟩
      · rw [Queue.push, if_neg empty, Queue.realloc]
        dsimp only
        rw [← grown]
        rfl
      · rw [length]
        refine .live _ qi _ ?_ ?_
        · omega
        · rw [List.drop_append_of_le_length read, behind, List.map_append]
          rfl
      · constructor
        · intro null
          cases null
        · intro both
          exact absurd both.2 empty

/-- Going on to the next device. -/
theorem following_waits {queue : Queue} {waiting : List (List UpnpDevice)}
    (waits : Waits queue waiting) (siblings : List UpnpDevice) :
    ∃ after, queue.following siblings = some ((next siblings waiting).1, after) ∧
      Waits after (next siblings waiting).2 ∧ after.block = queue.block := by
  cases siblings with
  | cons udp rest =>
    refine ⟨queue, ?_, waits, rfl⟩
    rw [Queue.following, if_pos (List.cons_ne_nil _ _)]
    rfl
  | nil =>
    cases waits with
    | null => exact ⟨.initial, rfl, .null, rfl⟩
    | live cells qi waiting read behind =>
      rw [Queue.following, if_neg (not_not.mpr rfl)]
      cases waiting with
      | nil =>
        have ended : ¬ qi < cells.length :=
          Nat.not_lt.mpr (List.drop_eq_nil_iff.mp behind)
        rw [if_neg ended]
        exact ⟨_, rfl, .live cells qi [] read behind, rfl⟩
      | cons chain waiting =>
        have inside : qi < cells.length := by
          by_contra ended
          rw [List.drop_eq_nil_of_le (Nat.not_lt.mp ended)] at behind
          cases behind
        rw [List.drop_eq_getElem_cons inside] at behind
        obtain ⟨here, later⟩ := List.cons.inj behind
        rw [if_pos inside]
        refine ⟨⟨.live cells, qi + 1, cells.length⟩, ?_, ?_, rfl⟩
        · have cell : Queue.cell ⟨.live cells, qi, cells.length⟩ = some chain := by
            rw [Queue.cell]
            dsimp only
            rw [List.getElem?_eq_getElem inside, here]
            rfl
          rw [cell]
          rfl
        · exact .live cells (qi + 1) waiting inside later

/-- The loop over the devices refines the walk, and it ends with no chain waiting. -/
theorem visitDevices_walk (emit : UpnpDevice → List Message) (turns : Nat)
    (chain : List UpnpDevice) {queue : Queue} {waiting : List (List UpnpDevice)}
    (waits : Waits queue waiting) (ready : Ready chain waiting)
    (enough : ((pending chain waiting).flatMap below).length ≤ turns) :
    let visited := walk UpnpDevice.deviceList turns chain waiting
    ∃ after, visitDevices emit turns chain queue = some (after, visited.flatMap emit) ∧
      Waits after [] ∧
      (after.block = .null ↔ queue.block = .null ∧ ∀ udp ∈ visited, udp.deviceList = []) := by
  induction turns generalizing chain queue waiting with
  | zero =>
    cases chain with
    | nil =>
      obtain rfl := ready.1 rfl
      exact ⟨queue, by rw [visitDevices]; rfl, waits, by simp [walk]⟩
    | cons udp siblings =>
      have visit := (below_visit below_unfold udp siblings waiting).length_eq
      rw [List.length_cons] at visit
      omega
  | succ turns inductionHypothesis =>
    cases chain with
    | nil =>
      obtain rfl := ready.1 rfl
      exact ⟨queue, by rw [visitDevices]; rfl, waits, by simp [walk]⟩
    | cons udp siblings =>
      have visit := (below_visit below_unfold udp siblings waiting).length_eq
      rw [List.length_cons] at visit
      obtain ⟨pushed, push, waits, pushedNull⟩ := push_waits waits udp.deviceList
      obtain ⟨followed, following, waits, followedNull⟩ := following_waits waits siblings
      obtain ⟨after, visited, waits, null⟩ := inductionHypothesis _ waits
        (ready_next (enqueue_nonempty _ ready.2)) (by omega)
      refine ⟨after, ?_, waits, ?_⟩
      · rw [visitDevices, bind_of_some push, bind_of_some following]
        dsimp only
        rw [bind_of_some visited, walk, List.flatMap_cons]
        rfl
      · rw [null, followedNull, pushedNull, walk, List.forall_mem_cons, and_assoc]

/-- The messages for a node: the root device, and every device below it or a sibling of it. -/
def nodeMessages (message : CString → CString → Message) (upnp : Upnp) : List Message :=
  message rootDevice upnp.dev.UDN :: (belowAll upnp.devices).flatMap (deviceMessages message)

/-- A visit of a node sends the wanted ones of its messages. It leaves a block when there are
embedded devices. -/
theorem visitNode_covers (message : CString → CString → Message) (wanted : Message → Bool)
    (upnp : Upnp) {queue : Queue} (waits : Waits queue []) :
    ∃ after messages, visitNode message wanted upnp queue = some (after, messages) ∧
      messages.Perm ((nodeMessages message upnp).filter wanted) ∧ Waits after [] ∧
      (after.block = .null ↔ queue.block = .null ∧ Plain upnp) := by
  have ready : Ready upnp.devices [] := ⟨fun empty => absurd empty (List.cons_ne_nil _ _),
    fun _ member => absurd member List.not_mem_nil⟩
  have all : (pending upnp.devices []).flatMap below = belowAll upnp.devices := by
    rw [pending, List.flatten_nil, List.append_nil, belowAll_eq]
  have enough : ((pending upnp.devices []).flatMap below).length ≤ (belowAll upnp.devices).length :=
    Nat.le_of_eq (congrArg List.length all)
  have order := walk_perm below_unfold _ _ _ ready enough
  rw [all] at order
  obtain ⟨after, visited, waits, null⟩ := visitDevices_walk
    (fun udp => (deviceMessages message udp).filter wanted) _ upnp.devices waits ready enough
  refine ⟨after, _, by rw [visitNode, bind_of_some visited]; rfl, ?_, waits, ?_⟩
  · have split : (nodeMessages message upnp).filter wanted =
        [message rootDevice upnp.dev.UDN].filter wanted ++
          (belowAll upnp.devices).flatMap fun udp => (deviceMessages message udp).filter wanted := by
      rw [nodeMessages, ← List.singleton_append, List.filter_append, List.filter_flatMap]
    rw [split]
    exact (order.flatMap_right _).append_left _
  · rw [null, Plain]
    exact and_congr_right fun _ => forall_congr' fun udp => imp_congr_left order.mem_iff

/-- A node and an interface with its address. -/
structure Round where
  upnp : Upnp
  ifp : UpnpIf
  ip : CString

/-- The nodes in the role of a device, each with its interfaces that have an address. -/
def rounds (address : UpnpIf → Option CString) (nodes : List Upnp) : List Round :=
  (nodes.filter fun upnp => upnp.role = roleDevice).flatMap fun upnp =>
    upnp.ifs.filterMap fun ifp => (address ifp).map fun ip => ⟨upnp, ifp, ip⟩

/-- The two loops as one over the rounds. -/
def visitRounds (visit : Upnp → UpnpIf → CString → Queue → Option (Queue × List Message)) :
    List Round → Queue → Option (Queue × List Message)
  | [], queue => some (queue, [])
  | round :: later, queue => do
    let (queue, messages) ← visit round.upnp round.ifp round.ip queue
    let (queue, rest) ← visitRounds visit later queue
    return (queue, messages ++ rest)

variable {visit : Upnp → UpnpIf → CString → Queue → Option (Queue × List Message)}

/-- Rounds are visited one part behind the other. -/
theorem visitRounds_append (first later : List Round) (queue : Queue) :
    visitRounds visit (first ++ later) queue = (do
      let (queue, messages) ← visitRounds visit first queue
      let (queue, rest) ← visitRounds visit later queue
      return (queue, messages ++ rest)) := by
  induction first generalizing queue with
  | nil =>
    rw [visitRounds, List.nil_append, bind_of_some rfl]
    dsimp only
    cases visitRounds visit later queue with
    | none => rfl
    | some answer => rfl
  | cons round first inductionHypothesis =>
    rw [List.cons_append, visitRounds, visitRounds]
    simp only [inductionHypothesis, bind_assoc, pure_bind, List.append_assoc]

/-- The loop over the interfaces is one over rounds. -/
theorem visitIfs_eq (address : UpnpIf → Option CString) (upnp : Upnp) (ifs : List UpnpIf)
    (queue : Queue) :
    visitIfs address (visit upnp) ifs queue = visitRounds visit
      (ifs.filterMap fun ifp => (address ifp).map fun ip => ⟨upnp, ifp, ip⟩) queue := by
  induction ifs generalizing queue with
  | nil => rfl
  | cons ifp ifs inductionHypothesis =>
    rw [visitIfs, List.filterMap_cons]
    cases address ifp with
    | none => exact inductionHypothesis queue
    | some ip =>
      dsimp only [Option.map_some]
      rw [visitRounds]
      simp only [inductionHypothesis]

/-- The loops over the nodes and their interfaces are one over rounds. -/
theorem visitNodes_eq (address : UpnpIf → Option CString) (nodes : List Upnp) (queue : Queue) :
    visitNodes address visit nodes queue = visitRounds visit (rounds address nodes) queue := by
  induction nodes generalizing queue with
  | nil => rfl
  | cons upnp nodes inductionHypothesis =>
    rw [visitNodes, rounds]
    by_cases device : upnp.role = roleDevice
    · have kept : (upnp :: nodes).filter (fun upnp => decide (upnp.role = roleDevice)) =
          upnp :: nodes.filter fun upnp => decide (upnp.role = roleDevice) :=
        List.filter_cons_of_pos (decide_eq_true device)
      rw [if_neg (not_not.mpr device), kept, List.flatMap_cons, visitRounds_append, visitIfs_eq]
      simp only [inductionHypothesis, rounds]
    · have dropped : (upnp :: nodes).filter (fun upnp => decide (upnp.role = roleDevice)) =
          nodes.filter fun upnp => decide (upnp.role = roleDevice) :=
        List.filter_cons_of_neg (by rwa [decide_eq_true_iff])
      rw [if_pos device, dropped]
      exact inductionHypothesis queue

/-- A released block stays released as long as the loop over the devices has a result. -/
theorem visitDevices_released {emit : UpnpDevice → List Message} (turns : Nat)
    (chain : List UpnpDevice) {queue after : Queue} {messages : List Message}
    (released : queue.block = .released)
    (visited : visitDevices emit turns chain queue = some (after, messages)) :
    after.block = .released := by
  induction turns generalizing chain queue messages with
  | zero =>
    cases chain with
    | nil =>
      rw [visitDevices] at visited
      cases visited
      exact released
    | cons udp siblings => cases visited
  | succ turns inductionHypothesis =>
    cases chain with
    | nil =>
      rw [visitDevices] at visited
      cases visited
      exact released
    | cons udp siblings =>
      rw [visitDevices] at visited
      obtain ⟨pushed, push, visited⟩ := Option.bind_eq_some_iff.mp visited
      obtain ⟨⟨next, followed⟩, following, visited⟩ := Option.bind_eq_some_iff.mp visited
      obtain ⟨⟨_, _⟩, later, same⟩ := Option.bind_eq_some_iff.mp visited
      cases same
      have kept : pushed.block = .released := by
        rw [Queue.push] at push
        split at push
        · obtain rfl := Option.some.inj push
          exact released
        · rw [released] at push
          cases push
      have still : followed.block = .released := by
        rw [Queue.following] at following
        split at following
        · cases following
          exact kept
        · split at following
          · rw [Queue.cell, kept] at following
            cases following
          · cases following
            exact kept
      exact inductionHypothesis next still later

/-- A function that notifies fails behind the release of the block. -/
theorem notifyNode_released (send : Send) (NTS : CString) (upnp : Upnp) (ifp : UpnpIf)
    (ip : CString) {queue : Queue} (released : queue.block = .released) :
    notifyNode send NTS upnp ifp ip queue = none := by
  rw [Option.eq_none_iff_forall_ne_some]
  intro answer done
  rw [notifyNode] at done
  obtain ⟨⟨visited, _⟩, walked, done⟩ := Option.bind_eq_some_iff.mp done
  obtain ⟨freed, release, -⟩ := Option.bind_eq_some_iff.mp done
  rw [visitNode] at walked
  obtain ⟨⟨_, _⟩, loop, same⟩ := Option.bind_eq_some_iff.mp walked
  cases same
  rw [Queue.release, visitDevices_released _ _ released loop] at release
  cases release

/-- What is to be sent for a round. -/
def roundMessages (send : Send) (NTS : Option CString) (round : Round) : List Message :=
  nodeMessages (fun target UDN =>
    .mk send (deviceParam round.upnp round.ifp round.ip NTS target UDN)) round.upnp

/-- A function has a result, sends each of the messages once, and leaves no block behind. -/
def Announces (result : Option (Queue × List Message)) (messages : List Message) : Prop :=
  ∃ queue sent, result = some (queue, sent) ∧ sent.Perm messages ∧
    ∀ cells, queue.block ≠ .live cells

/-- A queue without a block in which no chain waits is the one at the start. -/
theorem waits_null {queue : Queue} (waits : Waits queue []) (null : queue.block = .null) :
    queue = .initial := by
  cases waits with
  | null => rfl
  | live cells qi waiting read behind => cases null

/-- Notifying for a node without embedded devices leaves the queue as it is at the start. -/
theorem notifyNode_plain (send : Send) (NTS : CString) (round : Round) (plain : Plain round.upnp) :
    ∃ sent, notifyNode send NTS round.upnp round.ifp round.ip .initial = some (.initial, sent) ∧
      sent.Perm (roundMessages send (some NTS) round) := by
  obtain ⟨after, sent, visited, order, waits, null⟩ := visitNode_covers
    (fun target UDN => .mk send (deviceParam round.upnp round.ifp round.ip (some NTS) target UDN))
    (fun _ => true) round.upnp .null
  obtain rfl := waits_null waits (null.mpr ⟨rfl, plain⟩)
  rw [List.filter_true] at order
  refine ⟨sent, ?_, order⟩
  rw [notifyNode]
  dsimp only
  rw [bind_of_some visited]
  rfl

/-- Notifying for a node with embedded devices releases the block. -/
theorem notifyNode_embedded (send : Send) (NTS : CString) (round : Round)
    (embedded : ¬ Plain round.upnp) :
    ∃ after sent, notifyNode send NTS round.upnp round.ifp round.ip .initial = some (after, sent) ∧
      sent.Perm (roundMessages send (some NTS) round) ∧ after.block = .released := by
  obtain ⟨after, sent, visited, order, waits, null⟩ := visitNode_covers
    (fun target UDN => .mk send (deviceParam round.upnp round.ifp round.ip (some NTS) target UDN))
    (fun _ => true) round.upnp .null
  rw [List.filter_true] at order
  cases waits with
  | null => exact absurd (null.mp rfl).2 embedded
  | live cells qi waiting read behind =>
    refine ⟨⟨.released, qi, cells.length⟩, sent, ?_, order, rfl⟩
    rw [notifyNode]
    dsimp only
    rw [bind_of_some visited]
    rfl

/-- A function that notifies announces the rounds exactly when only the last one has embedded
devices. -/
theorem notify_announces_iff (send : Send) (NTS : CString) (list : List Round) :
    Announces (visitRounds (notifyNode send NTS) list .initial)
        (list.flatMap (roundMessages send (some NTS))) ↔
      ∀ round ∈ list.dropLast, Plain round.upnp := by
  induction list with
  | nil =>
    constructor
    · intro _ round member
      cases member
    · intro _
      refine ⟨.initial, [], rfl, .nil, ?_⟩
      intro cells live
      cases live
  | cons round later inductionHypothesis =>
    by_cases plain : Plain round.upnp
    · obtain ⟨sent, notified, order⟩ := notifyNode_plain send NTS round plain
      have rest : (∀ other ∈ (round :: later).dropLast, Plain other.upnp) ↔
          ∀ other ∈ later.dropLast, Plain other.upnp := by
        cases later with
        | nil => rfl
        | cons other later =>
          rw [List.dropLast_cons_cons, List.forall_mem_cons]
          exact and_iff_right plain
      rw [rest, ← inductionHypothesis, visitRounds, bind_of_some notified, List.flatMap_cons]
      constructor
      · rintro ⟨queue, all, done, whole, free⟩
        obtain ⟨⟨_, remaining⟩, visited, same⟩ := Option.bind_eq_some_iff.mp done
        cases same
        exact ⟨queue, remaining, visited,
          (List.perm_append_left_iff _).mp ((order.symm.append_right _).trans whole), free⟩
      · rintro ⟨queue, remaining, visited, whole, free⟩
        refine ⟨queue, sent ++ remaining, ?_, order.append whole, free⟩
        dsimp only
        rw [bind_of_some visited]
        rfl
    · obtain ⟨after, sent, notified, order, released⟩ :=
        notifyNode_embedded send NTS round plain
      cases later with
      | nil =>
        constructor
        · intro _ other member
          cases member
        · intro _
          refine ⟨after, sent ++ [], ?_, order.append .nil, ?_⟩
          · rw [visitRounds, bind_of_some notified]
            rfl
          · intro cells live
            rw [released] at live
            cases live
      | cons other later =>
        constructor
        · rintro ⟨queue, all, done, -⟩
          rw [visitRounds, bind_of_some notified] at done
          dsimp only at done
          rw [visitRounds, notifyNode_released _ _ _ _ _ released] at done
          cases done
        · intro others
          exact absurd (others round List.mem_cons_self) plain

/-- The response to a search for all sends the messages of the rounds, and leaves a block
exactly when some round has embedded devices. -/
theorem respond_covers (list : List Round) {queue : Queue} (waits : Waits queue []) :
    ∃ after sent, visitRounds (respondNode ssdpAll) list queue = some (after, sent) ∧
      sent.Perm (list.flatMap (roundMessages .respond none)) ∧ Waits after [] ∧
      (after.block = .null ↔ queue.block = .null ∧ ∀ round ∈ list, Plain round.upnp) := by
  induction list generalizing queue with
  | nil => exact ⟨queue, [], rfl, .nil, waits, by simp⟩
  | cons round list inductionHypothesis =>
    obtain ⟨visited, sent, responded, order, waits, null⟩ := visitNode_covers
      (fun target UDN => .mk .respond (deviceParam round.upnp round.ifp round.ip none target UDN))
      (fun message =>
        decide (strcmp ssdpAll ssdpAll = .eq ∨ strcmp ssdpAll message.param.target = .eq))
      round.upnp waits
    have wanted : (fun message : Message =>
        decide (strcmp ssdpAll ssdpAll = .eq ∨ strcmp ssdpAll message.param.target = .eq)) =
        fun _ => true := by
      funext message
      rw [strcmp_self]
      exact decide_eq_true (Or.inl rfl)
    rw [wanted, List.filter_true] at order
    obtain ⟨after, rest, done, whole, waits, later⟩ := inductionHypothesis waits
    refine ⟨after, sent ++ rest, ?_, order.append whole, waits, ?_⟩
    · rw [visitRounds, respondNode, bind_of_some responded]
      dsimp only
      rw [bind_of_some done]
      rfl
    · rw [later, null, List.forall_mem_cons, and_assoc]

/-- The response to a search for all announces the rounds exactly when none of them has embedded
devices. -/
theorem respond_announces_iff (list : List Round) :
    Announces (visitRounds (respondNode ssdpAll) list .initial)
        (list.flatMap (roundMessages .respond none)) ↔
      ∀ round ∈ list, Plain round.upnp := by
  obtain ⟨after, sent, done, order, waits, null⟩ := respond_covers list .null
  have plain : after.block = .null ↔ ∀ round ∈ list, Plain round.upnp :=
    null.trans (and_iff_right rfl)
  rw [← plain]
  constructor
  · rintro ⟨queue, all, same, -, free⟩
    cases done.symm.trans same
    cases waits with
    | null => rfl
    | live cells qi waiting read behind => exact absurd rfl (free cells)
  · intro empty
    refine ⟨after, sent, done, order, ?_⟩
    intro cells live
    rw [empty] at live
    cases live

/-- An interface has the address of the socket. -/
def addressOf (ipaddr : CString → Option CString) (ifIp : CString) (ifp : UpnpIf) :
    Option CString :=
  (ipaddr ifp.ifname).filter fun ip => strcmp ifIp ip = .eq

/-- The notifications and the response to a search for all announce the trees of the nodes on
their interfaces, and leave no block behind, exactly when at most the last interface that is
notified, and no interface with the address of the socket, is one of a node with embedded
devices. -/
theorem announces_iff (ipaddr : CString → Option CString) (ifIp : CString) (nodes : List Upnp) :
    (Announces (notifyAlive ipaddr nodes)
        ((rounds (fun ifp => ipaddr ifp.ifname) nodes).flatMap
          (roundMessages .alive (some ssdpAlive))) ∧
      Announces (notifyByebye ipaddr nodes)
        ((rounds (fun ifp => ipaddr ifp.ifname) nodes).flatMap
          (roundMessages .byebye (some ssdpByebye))) ∧
      Announces (msearchResponse ipaddr ifIp ssdpAll nodes)
        ((rounds (addressOf ipaddr ifIp) nodes).flatMap (roundMessages .respond none))) ↔
    (∀ round ∈ (rounds (fun ifp => ipaddr ifp.ifname) nodes).dropLast, Plain round.upnp) ∧
      ∀ round ∈ rounds (addressOf ipaddr ifIp) nodes, Plain round.upnp := by
  rw [notifyAlive, notifyByebye, msearchResponse, visitNodes_eq, visitNodes_eq, visitNodes_eq,
    aliveNode, byebyeNode, notify_announces_iff, notify_announces_iff]
  have responds := respond_announces_iff (rounds (addressOf ipaddr ifIp) nodes)
  unfold addressOf at responds ⊢
  rw [responds, ← and_assoc, and_self_iff]

/-- A node with the interfaces "e" and "f" and one embedded device. -/
def gateway : Upnp where
  role := roleDevice
  deviceType := 1
  ifs := [⟨.single 0x65 (by decide), 1800⟩, ⟨.single 0x66 (by decide), 1800⟩]
  versionMajor := 1
  versionMinor := 0
  dev := .mk (.single 0x74 (by decide)) (.single 0x67 (by decide)) []
    [.mk (.single 0x74 (by decide)) (.single 0x68 (by decide)) [] []]
  siblings := []

/-- When both interfaces have an address, the second walk grows the block that the first one has
released. -/
theorem not_announces :
    ¬ (Announces (notifyAlive (fun ifname => some ifname) [gateway])
        ((rounds (fun ifp => some ifp.ifname) [gateway]).flatMap
          (roundMessages .alive (some ssdpAlive))) ∧
      Announces (notifyByebye (fun ifname => some ifname) [gateway])
        ((rounds (fun ifp => some ifp.ifname) [gateway]).flatMap
          (roundMessages .byebye (some ssdpByebye))) ∧
      Announces (msearchResponse (fun ifname => some ifname) (.single 0x65 (by decide)) ssdpAll
          [gateway])
        ((rounds (addressOf (fun ifname => some ifname) (.single 0x65 (by decide)))
          [gateway]).flatMap (roundMessages .respond none))) := by
  rintro ⟨⟨queue, sent, done, -⟩, -⟩
  have failed : notifyAlive (fun ifname => some ifname) [gateway] = none := rfl
  rw [failed] at done
  cases done

end Ezcfg.Ssdp

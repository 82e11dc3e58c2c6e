import Ezcfg.Foundation.LinkedCells
import Ezcfg.Socket.Creating

/-!
# Deleting a socket from a list

`ezcfg_socket_list_delete_socket` looks for a pointer in a list, unlinks the socket and releases
what belongs to it: the descriptor with the node of the filesystem, the buffer, the block and the
reference to the context. The head has a branch of its own; behind it the function goes from the
first socket to the second without asking whether there is a first one.
-/

namespace Ezcfg.Socket

open Foundation
open Foundation.LinkedList (Segment segment_append)

/-- What `ezcfg_socket_del` reads of a `struct ezcfg_socket`. -/
structure SocketData where
  ezcfg : Ptr
  contents : EzcfgSocket
  needUnlink : Bool
  buffer : Option Ptr
deriving DecidableEq

/-- The list with the blocks of the sockets, their buffers and descriptors, the paths that `unlink`
was called with, and the context with its counter of references. -/
structure Sockets where
  list : Option Ptr
  cells : Heap (LinkedCell SocketData)
  buffers : Heap (List UInt8)
  descriptors : Heap Descriptor
  unlinked : List (List UInt8)
  thisEzcfg : Option Ptr
  refCounter : Int
deriving DecidableEq

/-- `sp->lsa.u.sun.sun_path`, where a local address or none was written. -/
def sunPath (usa : Usa) : Option (List UInt8) :=
  match usa.u with
  | .zero => some []
  | .sun path => some path
  | _ => none

/-- The node of the filesystem that goes with an open socket: the paths `unlink` is called with. -/
def nodePaths (data : SocketData) : Option (List (List UInt8)) :=
  if data.contents.sock.isSome ∧ data.contents.domain = .afLocal ∧ data.needUnlink = true then
    (sunPath data.contents.lsa).map fun path => [path]
  else some []

/-- `if (sp->buffer != NULL) free(sp->buffer)` -/
def freeBuffer (buffer : Option Ptr) (buffers : Heap (List UInt8)) : Option (Heap (List UInt8)) :=
  match buffer with
  | none => some buffers
  | some p => buffers.free p

/-- `ezcfg_dec_ref`; its assertion fails for another context. -/
def ezcfgDecRef (world : Sockets) (ezcfg : Ptr) : Option Sockets :=
  if world.thisEzcfg = some ezcfg then
    if world.refCounter > 1 then some { world with refCounter := world.refCounter - 1 }
    else some world
  else none

/-- `ezcfg_socket_del` -/
def ezcfgSocketDel (world : Sockets) (sp : Ptr) : Option Sockets := do
  let cell ← world.cells.read sp
  let descriptors ← closeSock cell.data.contents.sock world.descriptors
  let paths ← nodePaths cell.data
  let buffers ← freeBuffer cell.data.buffer world.buffers
  let cells ← world.cells.free sp
  let unlinked := world.unlinked ++ paths
  ezcfgDecRef { world with cells, buffers, descriptors, unlinked } cell.data.ezcfg

/-- `prev->next = cur->next; ezcfg_socket_del(cur)` -/
def unlinkSocket (world : Sockets) (prev cur : Ptr) : Option Sockets := do
  let cell ← world.cells.read cur
  let before ← world.cells.read prev
  let cells ← world.cells.write prev { before with next := cell.next }
  ezcfgSocketDel { world with cells := cells } cur

/-- The loop of `ezcfg_socket_list_delete_socket`, with a bound on its turns. -/
def deleteLoop (sp : Ptr) (world : Sockets) : Nat → Ptr → Option Ptr → Option (Bool × Sockets)
  | _, _, none => some (false, world)
  | 0, _, some _ => none
  | turns + 1, prev, some cur =>
    if sp = cur then do
      let world ← unlinkSocket world prev cur
      return (true, world)
    else do
      let cell ← world.cells.read cur
      deleteLoop sp world turns cur cell.next

/-- `ezcfg_socket_list_delete_socket`; a list has no more sockets than there are blocks. -/
def ezcfgSocketListDeleteSocket (world : Sockets) (sp : Option Ptr) : Option (Bool × Sockets) :=
  match sp with
  | none => some (true, world)
  | some sp =>
    if world.list = some sp then do
      let cell ← world.cells.read sp
      let world ← ezcfgSocketDel { world with list := cell.next } sp
      return (true, world)
    else do
      -- `cur->next`, where cur is NULL for the empty list
      let prev ← world.list
      let cell ← world.cells.read prev
      deleteLoop sp world world.cells.length prev cell.next

/-! ## Lists of sockets -/

/-- The cells are live, and each is named once. -/
def Owned {α : Type} (heap : Heap α) (ps : List Ptr) : Prop :=
  ps.Nodup ∧ ∀ p ∈ ps, (heap.read p).isSome

/-- A cell that may be missing is freed, and no other one changes. -/
def Dropped {α : Type} (heap after : Heap α) (p : Option Ptr) : Prop :=
  ∀ q, after.read q = if p = some q then none else heap.read q

/-- The sockets of the list, first to last: each has a block, a buffer and a descriptor of its own,
where it has these, and belongs to the context; and a local one has a local address. -/
structure Listed (world : Sockets) (entries : List (Ptr × SocketData)) : Prop where
  chain : Segment world.cells world.list entries none
  distinct : (entries.map Prod.fst).Nodup
  buffers : Owned world.buffers (entries.filterMap fun entry => entry.2.buffer)
  descriptors : Owned world.descriptors (entries.filterMap fun entry => entry.2.contents.sock)
  context : ∀ entry ∈ entries, world.thisEzcfg = some entry.2.ezcfg
  paths : ∀ entry ∈ entries, entry.2.contents.domain = .afLocal →
    (sunPath entry.2.contents.lsa).isSome

/-- All that belongs to the socket is released, and nothing else. -/
structure Released (world after : Sockets) (sp : Ptr) (data : SocketData) : Prop where
  block : after.cells.read sp = none
  buffer : Dropped world.buffers after.buffers data.buffer
  descriptor : Dropped world.descriptors after.descriptors data.contents.sock
  unlinked : ∃ paths, nodePaths data = some paths ∧ after.unlinked = world.unlinked ++ paths
  context : after.thisEzcfg = world.thisEzcfg
  counted : after.refCounter =
    if world.refCounter > 1 then world.refCounter - 1 else world.refCounter

/-- A socket of the list is taken out and released, and for another pointer nothing changes. -/
def Deletes (world : Sockets) (entries : List (Ptr × SocketData)) (sp : Ptr) : Prop :=
  (∃ after front data back,
    ezcfgSocketListDeleteSocket world (some sp) = some (true, after) ∧
    entries = front ++ (sp, data) :: back ∧ Listed after (front ++ back) ∧
    Released world after sp data ∧
    ∀ q, q ∉ entries.map Prod.fst → after.cells.read q = world.cells.read q) ∨
  ezcfgSocketListDeleteSocket world (some sp) = some (false, world) ∧ sp ∉ entries.map Prod.fst

/-! ## Releasing a socket -/

section Release

variable {α : Type} {heap after : Heap α} {front back : List Ptr} {owner : Option Ptr}

/-- What is left is owned. -/
theorem Owned.drop (owned : Owned heap (front ++ (owner.toList ++ back)))
    (dropped : Dropped heap after owner) : Owned after (front ++ back) := by
  obtain ⟨distinct, live⟩ := owned
  have others : (front ++ back).Sublist (front ++ (owner.toList ++ back)) :=
    List.Sublist.append_left (List.sublist_append_right _ _) front
  refine ⟨distinct.sublist others, fun p member => ?_⟩
  have apart : owner ≠ some p := by
    rintro rfl
    have moved : (front ++ ([p] ++ back)).Perm (p :: (front ++ back)) := List.perm_middle
    exact (List.nodup_cons.mp (moved.nodup_iff.mp distinct)).1 member
  rw [dropped p, if_neg apart]
  exact live p (others.subset member)

/-- A cell of its own is freed. -/
theorem dropped_of_free {p : Ptr} (live : (heap.read p).isSome) :
    ∃ after, heap.free p = some after ∧ Dropped heap after (some p) := by
  obtain ⟨cell, live⟩ := Option.isSome_iff_exists.mp live
  obtain ⟨after, done, -, gone, kept⟩ := Heap.free_live live
  refine ⟨after, done, fun q => ?_⟩
  by_cases same : q = p
  · rw [same, gone, if_pos rfl]
  · rw [kept q same, if_neg fun other => same (Option.some.inj other).symm]

/-- Where there is nothing to be freed, nothing changes. -/
theorem dropped_none (heap : Heap α) : Dropped heap heap none := by
  intro q
  rw [if_neg (Option.some_ne_none q).symm]

/-- What belongs to a socket in the middle. -/
theorem filterMap_middle {β : Type} (f : β → Option Ptr) (first second : List β) (entry : β) :
    (first ++ entry :: second).filterMap f =
      first.filterMap f ++ ((f entry).toList ++ second.filterMap f) := by
  rw [List.filterMap_append, List.filterMap_cons]
  cases f entry <;> rfl

end Release

section Delete

variable {world : Sockets} {data : SocketData} {sp : Ptr}

/-- The descriptor of its own is closed. -/
theorem closeSock_done {sock : Option Ptr} {descriptors : Heap Descriptor}
    (isOpen : ∀ fd, sock = some fd → (descriptors.read fd).isSome) :
    ∃ after, closeSock sock descriptors = some after ∧ Dropped descriptors after sock := by
  cases sock with
  | none => exact ⟨descriptors, rfl, dropped_none descriptors⟩
  | some fd => exact dropped_of_free (isOpen fd rfl)

/-- The buffer of its own is freed. -/
theorem freeBuffer_done {buffer : Option Ptr} {buffers : Heap (List UInt8)}
    (live : ∀ p, buffer = some p → (buffers.read p).isSome) :
    ∃ after, freeBuffer buffer buffers = some after ∧ Dropped buffers after buffer := by
  cases buffer with
  | none => exact ⟨buffers, rfl, dropped_none buffers⟩
  | some p => exact dropped_of_free (live p rfl)

/-- A local socket has a path. -/
theorem nodePaths_done (path : data.contents.domain = .afLocal →
    (sunPath data.contents.lsa).isSome) : ∃ paths, nodePaths data = some paths := by
  rw [nodePaths]
  by_cases removes : data.contents.sock.isSome ∧ data.contents.domain = .afLocal ∧
      data.needUnlink = true
  · obtain ⟨text, here⟩ := Option.isSome_iff_exists.mp (path removes.2.1)
    rw [if_pos removes, here]
    exact ⟨[text], rfl⟩
  · exact ⟨[], if_neg removes⟩

/-- A socket with what belongs to it is released. -/
theorem ezcfgSocketDel_done {next : Option Ptr} (cell : world.cells.read sp = some ⟨data, next⟩)
    (isOpen : ∀ fd, data.contents.sock = some fd → (world.descriptors.read fd).isSome)
    (live : ∀ p, data.buffer = some p → (world.buffers.read p).isSome)
    (path : data.contents.domain = .afLocal → (sunPath data.contents.lsa).isSome)
    (context : world.thisEzcfg = some data.ezcfg) :
    ∃ after, ezcfgSocketDel world sp = some after ∧ Released world after sp data ∧
      after.list = world.list ∧ ∀ q, q ≠ sp → after.cells.read q = world.cells.read q := by
  obtain ⟨descriptors, closed, descriptor⟩ := closeSock_done isOpen
  obtain ⟨paths, removed⟩ := nodePaths_done path
  obtain ⟨buffers, freed, buffer⟩ := freeBuffer_done live
  obtain ⟨cells, released, -, gone, kept⟩ := Heap.free_live cell
  rw [ezcfgSocketDel, bind_of_some cell, bind_of_some closed, bind_of_some removed,
    bind_of_some freed, bind_of_some released, ezcfgDecRef, if_pos context]
  by_cases many : world.refCounter > 1
  · rw [if_pos many]
    exact ⟨_, rfl, ⟨gone, buffer, descriptor, ⟨paths, removed, rfl⟩, rfl, (if_pos many).symm⟩,
      rfl, kept⟩
  · rw [if_neg many]
    exact ⟨_, rfl, ⟨gone, buffer, descriptor, ⟨paths, removed, rfl⟩, rfl, (if_neg many).symm⟩,
      rfl, kept⟩

end Delete

/-! ## Taking a socket out -/

section Lists

variable {world after : Sockets} {entries front back : List (Ptr × SocketData)} {sp : Ptr}
  {data : SocketData}

/-- A socket of the list can be released, whatever becomes of the list and the links. -/
theorem Listed.del (listed : Listed world (front ++ (sp, data) :: back)) (list next : Option Ptr)
    {cells : Heap (LinkedCell SocketData)} (cell : cells.read sp = some ⟨data, next⟩) :
    ∃ after, ezcfgSocketDel { world with list := list, cells := cells } sp = some after ∧
      Released world after sp data ∧ after.list = list ∧
      ∀ q, q ≠ sp → after.cells.read q = cells.read q := by
  have member : (sp, data) ∈ front ++ (sp, data) :: back :=
    List.mem_append_right front List.mem_cons_self
  have isOpen : ∀ fd, data.contents.sock = some fd → (world.descriptors.read fd).isSome := by
    intro fd sock
    exact listed.descriptors.2 fd (List.mem_filterMap.mpr ⟨_, member, sock⟩)
  have live : ∀ p, data.buffer = some p → (world.buffers.read p).isSome := by
    intro p buffer
    exact listed.buffers.2 p (List.mem_filterMap.mpr ⟨_, member, buffer⟩)
  have there : ({ world with list := list, cells := cells } : Sockets).cells.read sp =
      some ⟨data, next⟩ := cell
  obtain ⟨after, done, released, same, kept⟩ :=
    ezcfgSocketDel_done there isOpen live (listed.paths _ member) (listed.context _ member)
  exact ⟨after, done, ⟨released.block, released.buffer, released.descriptor, released.unlinked,
    released.context, released.counted⟩, same, kept⟩

/-- What is left is a list of sockets. -/
theorem Listed.without (listed : Listed world (front ++ (sp, data) :: back))
    (released : Released world after sp data)
    (chain : Segment after.cells after.list (front ++ back) none) :
    Listed after (front ++ back) := by
  have fewer : (front ++ back).Sublist (front ++ (sp, data) :: back) :=
    List.Sublist.append_left (List.sublist_cons_self _ _) front
  have buffers := listed.buffers
  rw [filterMap_middle] at buffers
  have descriptors := listed.descriptors
  rw [filterMap_middle] at descriptors
  constructor
  · exact chain
  · exact listed.distinct.sublist (fewer.map Prod.fst)
  · rw [List.filterMap_append]
    exact buffers.drop released.buffer
  · rw [List.filterMap_append]
    exact descriptors.drop released.descriptor
  · intro entry member
    rw [released.context]
    exact listed.context entry (fewer.subset member)
  · intro entry member
    exact listed.paths entry (fewer.subset member)

/-- The pointer of a socket is that of no other. -/
theorem Listed.apart (listed : Listed world (front ++ (sp, data) :: back)) :
    (∀ q ∈ front.map Prod.fst, q ≠ sp) ∧ ∀ q ∈ back.map Prod.fst, q ≠ sp := by
  have distinct := listed.distinct
  rw [List.map_append, List.map_cons] at distinct
  obtain ⟨-, behind, across⟩ := List.pairwise_append.mp distinct
  obtain ⟨first, -⟩ := List.pairwise_cons.mp behind
  constructor
  · intro q member
    exact across q member sp List.mem_cons_self
  · intro q member same
    exact first q member same.symm

/-- The first socket is taken out. -/
theorem Listed.unlinkHead (listed : Listed world ((sp, data) :: back)) :
    ∃ after, ezcfgSocketListDeleteSocket world (some sp) = some (true, after) ∧
      Listed after back ∧ Released world after sp data ∧
      ∀ q, q ≠ sp → after.cells.read q = world.cells.read q := by
  have whole : Listed world ([] ++ (sp, data) :: back) := listed
  have apart := whole.apart.2
  obtain ⟨here, next, cell, rest⟩ := listed.chain
  obtain ⟨after, done, released, list, kept⟩ := whole.del next next cell
  refine ⟨after, ?_, ?_, released, kept⟩
  · rw [ezcfgSocketListDeleteSocket, if_pos here, bind_of_some cell, bind_of_some done]
    rfl
  · apply whole.without released
    rw [list]
    exact rest.frame fun q member => kept q (apart q member)

/-- A socket behind another is taken out. -/
theorem Listed.unlinkBehind {prev : Ptr} {other : SocketData}
    (listed : Listed world (front ++ (prev, other) :: (sp, data) :: back)) :
    ∃ after, unlinkSocket world prev sp = some after ∧
      Listed after (front ++ (prev, other) :: back) ∧ Released world after sp data ∧
      ∀ q, q ≠ prev → q ≠ sp → after.cells.read q = world.cells.read q := by
  have regrouped : ∀ tail, front ++ (prev, other) :: tail = front ++ [(prev, other)] ++ tail := by
    intro tail
    rw [List.append_assoc]
    rfl
  obtain ⟨frontPrev, backPrev⟩ := listed.apart
  have listed' := listed
  rw [regrouped] at listed'
  obtain ⟨frontSp, backSp⟩ := listed'.apart
  have apart : prev ≠ sp := frontSp prev (by simp)
  obtain ⟨_, first, rfl, _, before, rfl, next, cell, second⟩ := segment_append.mp listed.chain
  obtain ⟨cells, write, -, written, others⟩ :=
    Heap.write_live before (⟨other, next⟩ : LinkedCell SocketData)
  obtain ⟨after, done, released, list, kept⟩ := listed'.del world.list next
    ((others sp apart.symm).trans cell)
  refine ⟨after, ?_, ?_, released, ?_⟩
  · rw [unlinkSocket, bind_of_some cell, bind_of_some before, bind_of_some write]
    exact done
  · rw [regrouped]
    apply listed'.without released
    rw [list, ← regrouped]
    refine segment_append.mpr ⟨some prev, ?_, rfl, next, ?_, ?_⟩
    · refine first.frame fun q member => ?_
      rw [kept q (frontSp q (by simp [List.mem_map.mp member])), others q (frontPrev q member)]
    · rw [kept prev apart, written]
    · refine second.frame fun q member => ?_
      rw [kept q (backSp q member), others q (backPrev q (List.mem_cons_of_mem sp member))]
  · intro q notPrev notSp
    rw [kept q notSp, others q notPrev]

/-- Where no later socket is meant, the loop comes to the end. -/
theorem deleteLoop_absent {start : Option Ptr} (segment : Segment world.cells start entries none)
    (absent : sp ∉ entries.map Prod.fst) (prev : Ptr) {turns : Nat}
    (enough : entries.length ≤ turns) :
    deleteLoop sp world turns prev start = some (false, world) := by
  induction entries generalizing start turns prev with
  | nil =>
    obtain rfl : start = none := segment
    rw [deleteLoop]
  | cons entry rest inductionHypothesis =>
    obtain ⟨cur, other⟩ := entry
    obtain ⟨rfl, next, cell, later⟩ := segment
    rw [List.map_cons, List.mem_cons, not_or] at absent
    obtain _ | turns := turns
    · cases enough
    · rw [deleteLoop, if_neg absent.1, bind_of_some cell]
      exact inductionHypothesis later absent.2 cur (Nat.le_of_succ_le_succ enough)

/-- The loop stops at the socket that is meant, with the one in front of it. -/
theorem deleteLoop_found (prev : Ptr) (other : SocketData) {start : Option Ptr}
    (segment : Segment world.cells start (front ++ (sp, data) :: back) none)
    (earlier : sp ∉ front.map Prod.fst) {turns : Nat} (enough : front.length < turns) :
    ∃ before last lastData, (prev, other) :: front = before ++ [(last, lastData)] ∧
      deleteLoop sp world turns prev start =
        (unlinkSocket world last sp).map fun after => (true, after) := by
  induction front generalizing start turns prev other with
  | nil =>
    obtain ⟨rfl, -⟩ := segment
    obtain _ | turns := turns
    · cases enough
    · refine ⟨[], prev, other, rfl, ?_⟩
      rw [deleteLoop, if_pos rfl]
      cases unlinkSocket world prev sp <;> rfl
  | cons entry rest inductionHypothesis =>
    obtain ⟨cur, between⟩ := entry
    obtain ⟨rfl, next, cell, later⟩ := segment
    rw [List.map_cons, List.mem_cons, not_or] at earlier
    obtain _ | turns := turns
    · cases enough
    · obtain ⟨before, last, lastData, same, found⟩ :=
        inductionHypothesis cur between later earlier.2 (Nat.lt_of_succ_lt_succ enough)
      refine ⟨(prev, other) :: before, last, lastData, ?_, ?_⟩
      · rw [same]
        rfl
      · rw [deleteLoop, if_neg earlier.1, bind_of_some cell]
        exact found

/-- No more sockets than blocks. -/
theorem Listed.length_le (listed : Listed world entries) : entries.length ≤ world.cells.length := by
  have live : ∀ {list : List (Ptr × SocketData)} {start : Option Ptr},
      Segment world.cells start list none → ∀ p ∈ list.map Prod.fst, p < world.cells.length := by
    intro list
    induction list with
    | nil =>
      intro start _ p member
      cases member
    | cons entry rest inductionHypothesis =>
      obtain ⟨q, other⟩ := entry
      rintro start ⟨-, next, cell, later⟩ p member
      obtain rfl | behind := List.mem_cons.mp member
      · exact Heap.live_bound cell
      · exact inductionHypothesis later p behind
  have bounded : entries.map Prod.fst ⊆ List.range world.cells.length :=
    fun p member => List.mem_range.mpr (live listed.chain p member)
  have shorter := List.Nodup.length_le_of_subset listed.distinct bounded
  rwa [List.length_map, List.length_range] at shorter

/-- Deleting does what it should do exactly when the list has a socket. -/
theorem deletes_iff (listed : Listed world entries) (sp : Ptr) :
    Deletes world entries sp ↔ entries ≠ [] := by
  cases entries with
  | nil =>
    apply iff_of_false _ (fun some => some rfl)
    have faults : ezcfgSocketListDeleteSocket world (some sp) = none := by
      have empty : world.list = none := listed.chain
      rw [ezcfgSocketListDeleteSocket, empty, if_neg (Option.some_ne_none sp).symm]
      rfl
    rw [Deletes, faults]
    rintro (⟨_, _, _, _, done, -⟩ | ⟨done, -⟩)
    · cases done
    · cases done
  | cons entry rest =>
    refine iff_of_true ?_ (List.cons_ne_nil entry rest)
    obtain ⟨head, other⟩ := entry
    by_cases first : sp = head
    · subst first
      obtain ⟨after, done, left, released, kept⟩ := listed.unlinkHead
      refine .inl ⟨after, [], other, rest, done, rfl, left, released, ?_⟩
      intro q outside
      exact kept q fun same => outside (same ▸ List.mem_cons_self)
    · obtain ⟨here, next, cell, later⟩ := listed.chain
      have enough := listed.length_le
      rw [List.length_cons] at enough
      have searched : ezcfgSocketListDeleteSocket world (some sp) =
          deleteLoop sp world world.cells.length head next := by
        have otherHead : ¬ world.list = some sp := by
          rw [here]
          exact fun same => first (Option.some.inj same).symm
        rw [ezcfgSocketListDeleteSocket, if_neg otherHead, bind_of_some here, bind_of_some cell]
      by_cases present : sp ∈ rest.map Prod.fst
      · obtain ⟨⟨sp, data⟩, member, rfl⟩ := List.mem_map.mp present
        obtain ⟨front, back, rfl⟩ := List.append_of_mem member
        have whole : Listed world (((head, other) :: front) ++ (sp, data) :: back) := listed
        have earlier : sp ∉ front.map Prod.fst := fun inside =>
          whole.apart.1 sp (List.mem_cons_of_mem head inside) rfl
        rw [List.length_append, List.length_cons] at enough
        have fuel : front.length < world.cells.length := by omega
        obtain ⟨before, last, lastData, same, found⟩ :=
          deleteLoop_found head other later earlier fuel
        have regrouped : (head, other) :: (front ++ (sp, data) :: back) =
            before ++ (last, lastData) :: (sp, data) :: back := by
          rw [← List.cons_append, same, List.append_assoc]
          rfl
        rw [regrouped] at listed
        obtain ⟨after, done, left, released, kept⟩ := listed.unlinkBehind
        rw [regrouped, Deletes, searched, found, done]
        refine .inl ⟨after, before ++ [(last, lastData)], data, back, rfl, ?_, ?_, released, ?_⟩
        · rw [List.append_assoc]
          rfl
        · rw [List.append_assoc]
          exact left
        · intro q outside
          apply kept q
          · rintro rfl
            exact outside (by simp)
          · rintro rfl
            exact outside (by simp)
      · refine .inr ⟨?_, ?_⟩
        · rw [searched]
          exact deleteLoop_absent later present head (by omega)
        · rw [List.map_cons, List.mem_cons, not_or]
          exact ⟨first, present⟩

end Lists

/-- A local socket with a node of the filesystem. -/
def localData : SocketData where
  ezcfg := 0
  contents := ⟨some 0, 3, .afLocal, 1, ⟨3, .sun [0x73]⟩, .zero⟩
  needUnlink := true
  buffer := some 0

/-- A list of this socket. -/
def oneSocket : Sockets where
  list := some 0
  cells := [some ⟨localData, none⟩]
  buffers := [some [0x62]]
  descriptors := [some ⟨.afLocal, 1, 0⟩]
  unlinked := []
  thisEzcfg := some 0
  refCounter := 2

/-- The list without sockets. -/
def noSockets : Sockets where
  list := none
  cells := []
  buffers := []
  descriptors := []
  unlinked := []
  thisEzcfg := some 0
  refCounter := 1

/-- The socket is listed. -/
theorem oneSocket_listed : Listed oneSocket [(0, localData)] where
  chain := ⟨rfl, none, rfl, rfl⟩
  distinct := List.nodup_singleton 0
  buffers := ⟨List.nodup_singleton 0, List.forall_mem_singleton.mpr rfl⟩
  descriptors := ⟨List.nodup_singleton 0, List.forall_mem_singleton.mpr rfl⟩
  context := List.forall_mem_singleton.mpr rfl
  paths := List.forall_mem_singleton.mpr fun _ => rfl

/-- No socket is listed. -/
theorem noSockets_listed : Listed noSockets [] where
  chain := rfl
  distinct := List.nodup_nil
  buffers := ⟨List.nodup_nil, List.forall_mem_nil _⟩
  descriptors := ⟨List.nodup_nil, List.forall_mem_nil _⟩
  context := List.forall_mem_nil _
  paths := List.forall_mem_nil _

/-- The only socket is deleted. -/
theorem deletes_iff_one : Deletes oneSocket [(0, localData)] 0 ↔ [(0, localData)] ≠ [] :=
  deletes_iff oneSocket_listed 0

/-- In the empty list NULL is followed. -/
theorem not_deletes : ¬ ∀ (world : Sockets) (entries : List (Ptr × SocketData)) (sp : Ptr),
    Listed world entries → Deletes world entries sp := by
  intro deletes
  have faults : ezcfgSocketListDeleteSocket noSockets (some 0) = none := rfl
  have done := deletes noSockets [] 0 noSockets_listed
  rw [Deletes, faults] at done
  obtain ⟨_, _, _, _, done, -⟩ | ⟨done, -⟩ := done
  · cases done
  · cases done

end Ezcfg.Socket

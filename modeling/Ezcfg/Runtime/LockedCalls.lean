import Ezcfg.Runtime.Locking

/-!
# The mutexes of each call

Each part of the library is steady when the mutexes that it takes are not held. The two that take
a mutex themselves, instead of in a body between its lock and its unlock, are followed step by
step: `local_nvram_new` and the parent behind `fork`.
-/

namespace Ezcfg.Runtime

open Foundation Foundation.Asking

variable {held : List Mutex}

/-! ## The context and the stores -/

theorem steady_raiseCounter : Steady held raiseCounter := by
  apply triple_look
  intro world calm
  split
  · exact fun _ => ⟨calm.held, calm.childless⟩
  · exact fun _ => calm

theorem steady_lowerCounter : Steady held lowerCounter := by
  apply triple_look
  intro world calm
  split
  · exact fun _ => ⟨calm.held, calm.childless⟩
  · exact fun _ => calm

theorem steady_incRef (free : .ezcfgRef ∉ held) : Steady held ezcfgIncRef :=
  steady_bind steady_context fun _ => steady_locked free steady_raiseCounter

theorem steady_decRef (free : .ezcfgRef ∉ held) : Steady held ezcfgDecRef :=
  steady_bind steady_context fun _ => steady_locked free steady_lowerCounter

theorem steady_localNvramDel (free : .nvram ∉ held) : Steady held localNvramDel := by
  apply steady_locked free
  apply steady_bind
  · exact steady_change (fun _ => rfl) fun _ => rfl
  · intro _
    exact steady_pure _

theorem steady_localNvramNew (free : .nvram ∉ held) : Steady held localNvramNew := by
  apply steady_succeeds
  intro setting
  apply steady_ite (steady_pure _)
  apply steady_succeeds
  intro positive
  apply steady_ite (steady_pure _)
  apply steady_succeeds
  intro nodeList
  apply steady_ite (steady_pure _)
  apply steady_succeeds
  intro nvram
  apply steady_ite (steady_pure _)
  apply steady_lock free
  apply triple_look
  intro world calm
  split
  · exact fun _ ofMutex => ofMutex
  · apply meets_become
    apply steady_unlock (steady_pure true)
    exact ⟨calm.held, calm.childless⟩

theorem steady_releaseContext (free : .nvram ∉ held) (ezcfg : Context) :
    Steady held (releaseContext ezcfg) := by
  apply triple_look
  intro world calm
  split
  · exact fun _ => calm
  · apply meets_become
    apply steady_ite
    · exact steady_bind (steady_localNvramDel free) fun _ => steady_pure _
    · exact steady_pure retOk
    · exact ⟨calm.held, calm.childless⟩

theorem steady_del (freeRef : .ezcfgRef ∉ held) (freeNvram : .nvram ∉ held) :
    Steady held ezcfgDel := by
  apply steady_bind steady_context
  intro ezcfg
  apply steady_locked freeRef
  apply steady_releaseContext
  simpa using freeNvram

theorem steady_fillContext (freeRef : .ezcfgRef ∉ held) (freeNvram : .nvram ∉ held) (text : Bool) :
    Steady held (fillContext text) := by
  apply steady_ite
  · apply steady_succeeds
    intro handle
    apply steady_ite (steady_del freeRef freeNvram)
    apply steady_succeeds
    intro parsed
    apply steady_ite (steady_del freeRef freeNvram)
    apply steady_succeeds
    intro buffer
    apply steady_ite (steady_del freeRef freeNvram)
    apply steady_succeeds
    intro filled
    apply steady_ite (steady_del freeRef freeNvram)
    apply steady_bind (steady_localNvramNew freeNvram)
    intro nvram
    apply steady_bind
    · exact steady_change (fun _ => rfl) fun _ => rfl
    · intro _
      exact steady_pure _
  · apply steady_bind
    · exact steady_change (fun _ => rfl) fun _ => rfl
    · intro _
      exact steady_pure _

theorem steady_new (freeRef : .ezcfgRef ∉ held) (freeNvram : .nvram ∉ held) (text : Bool) :
    Steady held (ezcfgNew text) := by
  apply steady_look
  intro before
  apply steady_ite steady_aborted
  apply steady_succeeds
  intro granted
  apply steady_ite (steady_pure _)
  apply steady_lock freeRef
  apply triple_look
  intro world calm
  split
  · exact steady_release (fun _ => steady_pure retFail) world calm
  · apply meets_become
    apply steady_unlock (steady_fillContext freeRef freeNvram text)
    exact ⟨calm.held, calm.childless⟩

theorem steady_localNvramCall (free : .nvram ∉ held) (ezcfg : Context) :
    Steady held (localNvramCall ezcfg) :=
  steady_ite (steady_lockedLeniently free steady_outcome) steady_aborted

theorem steady_localNvramGetVersionString (free : .nvram ∉ held) (ezcfg : Context) :
    Steady held (localNvramGetVersionString ezcfg) :=
  steady_ite (steady_locked free steady_outcome) steady_aborted

theorem steady_localMetaNvramGetEntryValue (ezcfg : Context) :
    Steady held (localMetaNvramGetEntryValue ezcfg) :=
  steady_ite steady_outcome steady_aborted

theorem steady_commonGetNvramEntryValue (free : .nvram ∉ held) :
    Steady held ezcfgCommonGetNvramEntryValue := by
  apply steady_bind steady_readContext
  intro ezcfg
  apply steady_bind
  · exact steady_ite (steady_localNvramCall free ezcfg) (steady_pure retFail)
  · intro ret
    exact steady_ite (steady_localMetaNvramGetEntryValue ezcfg) (steady_pure _)

/-- The mutex that a loop over pairs holds. -/
def withNvram (nvramMutexLocked : Bool) (held : List Mutex) : List Mutex :=
  if nvramMutexLocked then .nvram :: held else held

/-- A part that ends with the mutex given back. -/
def Finishes (nvramMutexLocked : Bool) (held : List Mutex) {α : Type} (program : Run α) : Prop :=
  Triple (Calm (withNvram nvramMutexLocked held)) program Quiet fun _ => Calm held

theorem finishes_finish (nvramMutexLocked : Bool) (ret : Int) :
    Finishes nvramMutexLocked held (finish nvramMutexLocked ret) := by
  cases nvramMutexLocked with
  | false => exact steady_pure ret
  | true => exact steady_release fun _ => triple_pure fun _ calm => calm

theorem steady_restrictedNvramCall (ezcfg : Context) : Steady held (restrictedNvramCall ezcfg) :=
  steady_ite steady_outcome steady_aborted

theorem finishes_getEntriesLoop (ezcfg : Context) (nvramMutexLocked : Bool) (pairs : Nat) :
    Finishes nvramMutexLocked held (getEntriesLoop ezcfg nvramMutexLocked pairs) := by
  induction pairs with
  | zero => exact finishes_finish nvramMutexLocked retOk
  | succ pairs inductionHypothesis =>
    apply triple_succeeds
    intro data
    apply triple_ite (fun _ => finishes_finish nvramMutexLocked retFail)
    intro _
    apply triple_succeeds
    intro name
    apply triple_ite (fun _ => finishes_finish nvramMutexLocked retFail)
    intro _
    apply triple_bind (steady_restrictedNvramCall ezcfg)
    intro ret
    apply triple_ite
    · intro _
      apply triple_bind (steady_localMetaNvramGetEntryValue ezcfg)
      intro ret
      apply triple_ite (fun _ => finishes_finish nvramMutexLocked retFail)
      intro _
      exact inductionHypothesis
    · intro _
      exact inductionHypothesis

theorem finishes_setEntriesLoop (ezcfg : Context) (nvramMutexLocked : Bool) (pairs : Nat) :
    Finishes nvramMutexLocked held (setEntriesLoop ezcfg nvramMutexLocked pairs) := by
  induction pairs with
  | zero => exact finishes_finish nvramMutexLocked retOk
  | succ pairs inductionHypothesis =>
    apply triple_succeeds
    intro data
    apply triple_ite (fun _ => finishes_finish nvramMutexLocked retFail)
    intro _
    apply triple_succeeds
    intro name
    apply triple_ite (fun _ => finishes_finish nvramMutexLocked retFail)
    intro _
    apply triple_bind (steady_restrictedNvramCall ezcfg)
    intro ret
    apply triple_ite (fun _ => finishes_finish nvramMutexLocked retFail)
    intro _
    exact inductionHypothesis

theorem steady_overPairs (free : .nvram ∉ held) {loop : Context → Bool → Nat → Run Int}
    (finishes : ∀ ezcfg nvramMutexLocked pairs,
      Finishes nvramMutexLocked held (loop ezcfg nvramMutexLocked pairs)) (pairs : Nat) :
    Steady held (overPairs loop pairs) := by
  apply steady_bind steady_readContext
  intro ezcfg
  apply steady_ite
  · apply steady_lock free
    exact finishes ezcfg true pairs
  · exact finishes ezcfg false pairs

theorem steady_commonGetNvramEntries (free : .nvram ∉ held) (pairs : Nat) :
    Steady held (ezcfgCommonGetNvramEntries pairs) :=
  steady_overPairs free finishes_getEntriesLoop pairs

theorem steady_commonSetNvramEntries (free : .nvram ∉ held) (pairs : Nat) :
    Steady held (ezcfgCommonSetNvramEntries pairs) :=
  steady_overPairs free finishes_setEntriesLoop pairs

/-! ## Lists and authentications -/

theorem steady_newWithReference (free : .ezcfgRef ∉ held) {object : Object}
    (without : ∀ processes, object = .list processes → processes = []) :
    Steady held (newWithReference object) := by
  apply steady_bind (steady_incRef free)
  intro ret
  apply steady_ite (steady_pure _)
  apply steady_bind (steady_calloc without)
  intro p
  cases p with
  | some p => exact steady_pure _
  | none => exact steady_bind (steady_decRef free) fun _ => steady_pure _

theorem steady_freeWithReference (free : .ezcfgRef ∉ held) (p : Ptr) :
    Steady held (freeWithReference p) := by
  apply steady_bind steady_freeObject
  intro _
  exact steady_bind (steady_decRef free) fun _ => steady_pure _

theorem steady_linkedListNew (free : .ezcfgRef ∉ held) : Steady held ezcfgLinkedListNew := by
  apply steady_newWithReference free
  intro processes is
  exact (Object.list.inj is).symm

theorem steady_linkedListDelSettings (free : .ezcfgRef ∉ held) (list : Ptr) :
    Steady held (linkedListDelSettings list) := by
  apply steady_bind steady_readObject
  intro object
  split
  · exact steady_freeWithReference free list
  · exact steady_undefined

theorem steady_authNew (free : .ezcfgRef ∉ held) : Steady held ezcfgAuthNew := by
  apply steady_newWithReference free
  intro processes is
  cases is

theorem steady_authDelete (free : .ezcfgRef ∉ held) (auth : Ptr) :
    Steady held (ezcfgAuthDelete auth) := by
  apply steady_bind steady_readObject
  intro object
  split
  · exact steady_freeWithReference free auth
  · exact steady_undefined

theorem steady_metaScan (ezcfg : Context) : Steady held (metaScan ezcfg) := by
  apply steady_ite
  · apply steady_ask
    intro n
    split
    · exact steady_pure _
    · exact steady_endless
    · exact steady_undefined
    · exact steady_pure _
  · exact steady_aborted

theorem steady_nvramScan : Steady held nvramScan := by
  apply steady_ask
  intro n
  split
  · exact steady_pure _
  · exact steady_undefined
  · exact steady_pure _

theorem finishes_byNsFail (freeRef : .ezcfgRef ∉ held) (list : Ptr) (nvramMutexLocked : Bool) :
    Finishes nvramMutexLocked held (byNsFail list nvramMutexLocked) := by
  have free : Mutex.ezcfgRef ∉ withNvram nvramMutexLocked held := by
    cases nvramMutexLocked <;> simpa [withNvram] using freeRef
  apply triple_bind (steady_linkedListDelSettings free list)
  intro _
  apply triple_bind (finishes_finish nvramMutexLocked retFail)
  intro _
  exact steady_pure _

theorem finishes_byNsScans (freeRef : .ezcfgRef ∉ held) (ezcfg : Context) (list : Ptr)
    (nvramMutexLocked : Bool) :
    Finishes nvramMutexLocked held (byNsScans ezcfg list nvramMutexLocked) := by
  have fails := finishes_byNsFail freeRef list nvramMutexLocked
  have returns : Finishes nvramMutexLocked held (do
      let _ ← finish nvramMutexLocked retOk
      return some list) := by
    apply triple_bind (finishes_finish nvramMutexLocked retOk)
    intro _
    exact steady_pure _
  apply triple_bind (steady_metaScan ezcfg)
  intro ret
  apply triple_ite (fun _ => fails)
  intro _
  apply triple_ite
  · intro _
    apply triple_bind steady_nvramScan
    intro ret
    exact triple_ite (fun _ => fails) fun _ => returns
  · intro _
    exact returns

theorem steady_byNs (freeRef : .ezcfgRef ∉ held) (freeNvram : .nvram ∉ held) :
    Steady held ezcfgCommonGetNvramEntriesByNs := by
  apply steady_bind (steady_linkedListNew freeRef)
  intro list
  cases list with
  | none => exact steady_pure _
  | some list =>
    apply steady_bind steady_readContext
    intro ezcfg
    apply steady_ite
    · apply steady_lock freeNvram
      exact finishes_byNsScans freeRef ezcfg list true
    · exact finishes_byNsScans freeRef ezcfg list false

/-! ## Threads and sockets -/

theorem steady_askSettings (settings : Nat) : Steady held (askSettings settings) := by
  induction settings with
  | zero => exact steady_pure _
  | succ settings inductionHypothesis =>
    apply steady_succeeds
    intro fits
    apply steady_ite (steady_pure _)
    apply steady_succeeds
    intro made
    apply steady_ite (steady_pure _)
    apply steady_succeeds
    intro appended
    exact steady_ite (steady_pure _) inductionHypothesis

theorem steady_readSettings (settings : Nat) : Steady held (readSettings settings) := by
  induction settings with
  | zero => exact steady_pure _
  | succ settings inductionHypothesis =>
    apply steady_succeeds
    intro data
    apply steady_ite (steady_pure _)
    apply steady_succeeds
    intro value
    exact steady_ite steady_undefined inductionHypothesis

theorem steady_delListIf (free : .ezcfgRef ∉ held) (list : Option Ptr) :
    Steady held (delListIf list) := by
  cases list with
  | none => exact steady_pure _
  | some list => exact steady_bind (steady_linkedListDelSettings free list) fun _ => steady_pure _

theorem steady_freeIf (p : Option Ptr) : Steady held (freeIf p) := by
  cases p with
  | none => exact steady_pure _
  | some p => exact steady_freeObject

theorem steady_newFail (free : .ezcfgRef ∉ held) (list block : Option Ptr) :
    Steady held (newFail list block) := by
  apply steady_bind (steady_delListIf free list)
  intro _
  apply steady_bind (steady_freeIf block)
  intro _
  exact steady_bind (steady_decRef free) fun _ => steady_pure _

theorem steady_setAttributes (free : .ezcfgRef ∉ held) (thread : Ptr) :
    Steady held (setAttributes thread) := by
  have fails := steady_newFail free none (some thread)
  apply steady_succeeds
  intro init
  apply steady_ite fails
  apply steady_succeeds
  intro detach
  apply steady_ite fails
  apply steady_succeeds
  intro zero
  apply steady_ite (steady_pure _)
  apply steady_succeeds
  intro stacksize
  exact steady_ite fails (steady_pure _)

theorem steady_setUpThread (freeRef : .ezcfgRef ∉ held) (freeNvram : .nvram ∉ held)
    (thread list : Ptr) : Steady held (setUpThread thread list) := by
  have fails := steady_newFail freeRef (some list) (some thread)
  apply steady_bind (steady_askSettings 2)
  intro asked
  apply steady_ite fails
  apply steady_bind (steady_commonGetNvramEntries freeNvram 2)
  intro ret
  apply steady_ite fails
  apply steady_bind (steady_readSettings 2)
  intro read
  apply steady_ite fails
  apply steady_bind (steady_linkedListDelSettings freeRef list)
  intro _
  exact steady_setAttributes freeRef thread

theorem steady_threadNew (freeRef : .ezcfgRef ∉ held) (freeNvram : .nvram ∉ held) :
    Steady held ezcfgThreadNew := by
  apply steady_bind (steady_incRef freeRef)
  intro ret
  apply steady_ite (steady_pure _)
  apply steady_bind (steady_calloc without_thread)
  intro thread
  cases thread with
  | none => exact steady_newFail freeRef none none
  | some thread =>
    apply steady_bind (steady_linkedListNew freeRef)
    intro list
    cases list with
    | none => exact steady_newFail freeRef none (some thread)
    | some list => exact steady_setUpThread freeRef freeNvram thread list

theorem steady_releaseThread (p : Ptr) : Steady held (releaseThread p) := by
  have releases : Steady held (do
      freeObject p
      return retOk) :=
    steady_bind steady_freeObject fun _ => steady_pure _
  apply steady_bind steady_readThread
  intro thread
  apply steady_ite (steady_pure _)
  apply steady_ite
  · apply steady_bind
    · exact steady_ite steady_outcome (steady_pure _)
    · intro ret
      exact steady_ite (steady_pure _) releases
  · exact releases

theorem steady_createThread (p : Ptr) : Steady held (createThread p) := by
  apply steady_bind steady_readThread
  intro thread
  apply steady_ite (steady_pure _)
  apply steady_succeeds
  intro created
  apply steady_ite (steady_pure _)
  exact steady_bind steady_writeThread fun _ => steady_pure _

theorem steady_stopThread (p : Ptr) : Steady held (stopThread p) := by
  apply steady_bind steady_readThread
  intro thread
  apply steady_ite (steady_pure _)
  apply steady_ite (steady_pure _)
  apply steady_ite
  · apply steady_bind steady_outcome
    intro ret
    apply steady_ite
    · exact steady_bind steady_writeThread fun _ => steady_pure _
    · exact steady_pure _
  · exact steady_pure _

theorem steady_threadDel (free : .threadState ∉ held) (p : Ptr) : Steady held (ezcfgThreadDel p) :=
  steady_lockedLeniently free (steady_releaseThread p)

theorem steady_threadStart (free : .threadState ∉ held) (p : Ptr) :
    Steady held (ezcfgThreadStart p) := by
  apply steady_bind steady_readThread
  intro thread
  exact steady_ite (steady_lockedLeniently free (steady_createThread p)) steady_aborted

theorem steady_threadStop (free : .threadState ∉ held) (p : Ptr) :
    Steady held (ezcfgThreadStop p) :=
  steady_lockedLeniently free (steady_stopThread p)

theorem steady_threadSet (p : Ptr) {update : Thread → Thread} : Steady held (do
    let thread ← readThread p
    writeObject p (.thread (update thread))
    return retOk) := by
  apply steady_bind steady_readThread
  intro thread
  exact steady_bind steady_writeThread fun _ => steady_pure _

theorem steady_createSocket (laddr raddr : Bool) : Steady held (createSocket laddr raddr) := by
  apply steady_ite
  · apply steady_calloc
    intro processes is
    cases is
  · exact steady_aborted

theorem steady_readAddresses (addresses : Nat) : Steady held (readAddresses addresses) := by
  induction addresses with
  | zero => exact steady_pure _
  | succ addresses inductionHypothesis =>
    apply steady_succeeds
    intro data
    apply steady_ite (steady_pure _)
    apply steady_succeeds
    intro value
    apply steady_ite steady_undefined
    apply steady_succeeds
    intro nonempty
    apply steady_ite
    · exact steady_bind inductionHypothesis fun _ => steady_pure _
    · apply steady_succeeds
      intro copied
      apply steady_ite (steady_pure _)
      exact steady_bind inductionHypothesis fun _ => steady_pure _

theorem steady_setUpSocket (freeRef : .ezcfgRef ∉ held) (freeNvram : .nvram ∉ held) (list : Ptr) :
    Steady held (setUpSocket list) := by
  have fails := steady_newFail freeRef (some list) none
  apply steady_bind (steady_askSettings 5)
  intro asked
  apply steady_ite fails
  apply steady_bind (steady_commonGetNvramEntries freeNvram 5)
  intro ret
  apply steady_ite fails
  apply steady_bind (steady_readSettings 3)
  intro read
  apply steady_ite fails
  apply steady_bind (steady_readAddresses 2)
  intro addresses
  cases addresses with
  | none => exact fails
  | some addresses =>
    apply steady_bind (steady_linkedListDelSettings freeRef list)
    intro _
    apply steady_bind (steady_createSocket _ _)
    intro sp
    cases sp with
    | some sp => exact steady_pure _
    | none => exact steady_bind (steady_decRef freeRef) fun _ => steady_pure _

theorem steady_socketNew (freeRef : .ezcfgRef ∉ held) (freeNvram : .nvram ∉ held) :
    Steady held ezcfgSocketNew := by
  apply steady_bind (steady_incRef freeRef)
  intro ret
  apply steady_ite (steady_pure _)
  apply steady_bind (steady_linkedListNew freeRef)
  intro list
  cases list with
  | none => exact steady_newFail freeRef none none
  | some list => exact steady_setUpSocket freeRef freeNvram list

theorem steady_socketNewAcceptedSocket (listener : Ptr) :
    Steady held (ezcfgSocketNewAcceptedSocket listener) := by
  apply steady_bind steady_readSocket
  intro _
  apply steady_calloc
  intro processes is
  cases is

theorem steady_socketDel (free : .ezcfgRef ∉ held) (sp : Ptr) : Steady held (ezcfgSocketDel sp) :=
  steady_bind steady_readSocket fun _ => steady_freeWithReference free sp

end Ezcfg.Runtime

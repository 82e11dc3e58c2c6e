import Ezcfg.Runtime.World

/-!
# The calls of the library

What the public functions do with the mutexes, the counter of references and the objects: the
context itself, the stores, and the constructors and destructors of lists, authentications,
threads, sockets and processes, each with every path that ends it early.

A handler or a routine that the caller gives is code of the caller; it gives an outcome.
-/

namespace Ezcfg.Runtime

open Foundation Foundation.Asking

/-- A result that nothing here decides. -/
def outcome : Run Int := do
  if ← succeeds then return retOk else return retFail

/-! ## The stores and the context -/

/-- `local_nvram_del` -/
def localNvramDel : Run Int :=
  locked .nvram do
    change fun world => { world with thisNvram := false }
    return retOk

/-- `local_nvram_new`: whether there is a RAM store. -/
def localNvramNew : Run Bool := do
  -- the setting is found, its value is positive, and both blocks are granted
  if ¬ (← succeeds) then return false
  if ¬ (← succeeds) then return false
  if ¬ (← succeeds) then return false
  if ¬ (← succeeds) then return false
  if (← lockMutex .nvram) ≠ retOk then
    let _ ← localNvramDel
    return false
  else
    let world ← look
    if world.thisNvram then stop .aborted
    else
      become { world with thisNvram := true }
      if (← unlockMutex .nvram) ≠ retOk then
        change fun world => { world with thisNvram := false }
        return false
      else return true

/-- The part of `ezcfg_del` between its lock and its unlock: waiting does not change the counter. -/
def releaseContext (ezcfg : Context) : Run Int := do
  let world ← look
  if world.refCounter ≠ 1 then return retFail
  else
    become { world with refCounter := world.refCounter - 1, thisEzcfg := none }
    if ezcfg.nvram then
      let _ ← localNvramDel
      return retOk
    else return retOk

/-- `ezcfg_del` -/
def ezcfgDel : Run Int := do
  let ezcfg ← context
  locked .ezcfgRef (releaseContext ezcfg)

/-- The part of `ezcfg_new` behind the counter. -/
def fillContext (text : Bool) : Run Int := do
  if text then
    -- the handle, the parser, the META buffer and its settings; `fail_out` comes to `ezcfg_del`
    if ¬ (← succeeds) then ezcfgDel
    else if ¬ (← succeeds) then ezcfgDel
    else if ¬ (← succeeds) then ezcfgDel
    else if ¬ (← succeeds) then ezcfgDel
    else
      let nvram ← localNvramNew
      change fun world => { world with thisEzcfg := some ⟨true, nvram⟩ }
      return retOk
  else
    change fun world => { world with thisEzcfg := some ⟨false, false⟩ }
    return retOk

/-- `ezcfg_new`; a context is retOk, NULL is retFail. -/
def ezcfgNew (text : Bool) : Run Int := do
  if (← look).thisEzcfg.isSome then stop .aborted
  else if ¬ (← succeeds) then return retFail
  else if (← lockMutex .ezcfgRef) ≠ retOk then return retFail
  else
    let world ← look
    if world.refCounter ≠ 0 then
      let _ ← unlockMutex .ezcfgRef
      return retFail
    else
      become { world with refCounter := world.refCounter + 1 }
      if (← unlockMutex .ezcfgRef) ≠ retOk then return retFail
      else fillContext text

/-- `*ezcfg`; a context that is released cannot be read. -/
def readContext : Run Context := do
  match (← look).thisEzcfg with
  | some ezcfg => return ezcfg
  | none => stop .undefined

/-- `local_nvram_get_entry_value`, and `local_nvram_set_entry`, `local_nvram_unset_entry`,
`local_nvram_commit`, `local_nvram_match_entry` and `local_nvram_match_entry_value`, which are
written alike. -/
def localNvramCall (ezcfg : Context) : Run Int := do
  if ezcfg.nvram then lockedLeniently .nvram outcome else stop .aborted

/-- `local_nvram_get_version_string` -/
def localNvramGetVersionString (ezcfg : Context) : Run Int := do
  if ezcfg.nvram then locked .nvram outcome else stop .aborted

/-- `local_meta_nvram_get_entry_value` -/
def localMetaNvramGetEntryValue (ezcfg : Context) : Run Int := do
  if ezcfg.metaNvram then outcome else stop .aborted

/-- The lookup in the RAM store; without the store it fails. -/
def getNvramValue (ezcfg : Context) : Run Int := do
  if ezcfg.nvram then localNvramCall ezcfg else return retFail

/-- `ezcfg_common_get_nvram_entry_value` -/
def ezcfgCommonGetNvramEntryValue : Run Int := do
  let ezcfg ← readContext
  let ret ← getNvramValue ezcfg
  if ret ≠ retOk then localMetaNvramGetEntryValue ezcfg else return ret

/-- `if (nvram_mutex_locked) _local_nvram_mutex_unlock(nvram)`, and a result -/
def finish (nvramMutexLocked : Bool) (ret : Int) : Run Int := do
  if nvramMutexLocked then
    let _ ← unlockMutex .nvram
    return ret
  else return ret

/-- `_local_nvram_get_entry_value`, `_local_nvram_set_entry` or `_local_nvram_unset_entry` -/
def restrictedNvramCall (ezcfg : Context) : Run Int := do
  if ezcfg.nvram then outcome else stop .aborted

/-- The loop of `ezcfg_common_get_nvram_entries` over as many pairs. -/
def getEntriesLoop (ezcfg : Context) (nvramMutexLocked : Bool) : Nat → Run Int
  | 0 => finish nvramMutexLocked retOk
  | pairs + 1 => do
    -- the pair and its name
    if ¬ (← succeeds) then finish nvramMutexLocked retFail
    else if ¬ (← succeeds) then finish nvramMutexLocked retFail
    else if (← restrictedNvramCall ezcfg) ≠ retOk then
      if (← localMetaNvramGetEntryValue ezcfg) ≠ retOk then finish nvramMutexLocked retFail
      else getEntriesLoop ezcfg nvramMutexLocked pairs
    else getEntriesLoop ezcfg nvramMutexLocked pairs

/-- The loop of `ezcfg_common_set_nvram_entries` over as many pairs. -/
def setEntriesLoop (ezcfg : Context) (nvramMutexLocked : Bool) : Nat → Run Int
  | 0 => finish nvramMutexLocked retOk
  | pairs + 1 => do
    if ¬ (← succeeds) then finish nvramMutexLocked retFail
    else if ¬ (← succeeds) then finish nvramMutexLocked retFail
    else if (← restrictedNvramCall ezcfg) ≠ retOk then finish nvramMutexLocked retFail
    else setEntriesLoop ezcfg nvramMutexLocked pairs

/-- A loop over a list of pairs, with the mutex of the RAM store if there is one. -/
def overPairs (loop : Context → Bool → Nat → Run Int) (pairs : Nat) : Run Int := do
  let ezcfg ← readContext
  if 0 < pairs ∧ ezcfg.nvram then
    if (← lockMutex .nvram) ≠ retOk then return retFail
    else loop ezcfg true pairs
  else loop ezcfg false pairs

/-- `ezcfg_common_get_nvram_entries` -/
def ezcfgCommonGetNvramEntries (pairs : Nat) : Run Int := overPairs getEntriesLoop pairs

/-- `ezcfg_common_set_nvram_entries` -/
def ezcfgCommonSetNvramEntries (pairs : Nat) : Run Int := overPairs setEntriesLoop pairs

/-! ## Lists and authentications -/

/-- A constructor that takes a reference, and gives it back when the block is refused. -/
def newWithReference (object : Object) : Run (Option Ptr) := do
  if (← ezcfgIncRef) ≠ retOk then return none
  else
    match ← calloc object with
    | some p => return some p
    | none =>
      let _ ← ezcfgDecRef
      return none

/-- The end of a destructor: the block and the reference. -/
def freeWithReference (p : Ptr) : Run Int := do
  freeObject p
  let _ ← ezcfgDecRef
  return retOk

/-- `ezcfg_linked_list_new` -/
def ezcfgLinkedListNew : Run (Option Ptr) := newWithReference (.list [])

/-- `ezcfg_linked_list_del` of a list of settings, which has no objects in it. -/
def linkedListDelSettings (list : Ptr) : Run Int := do
  match ← readObject list with
  | .list _ => freeWithReference list
  | _ => stop .undefined

/-- `ezcfg_auth_new` -/
def ezcfgAuthNew : Run (Option Ptr) := newWithReference .auth

/-- `ezcfg_auth_delete` -/
def ezcfgAuthDelete (auth : Ptr) : Run Int := do
  match ← readObject auth with
  | .auth => freeWithReference auth
  | _ => stop .undefined

/-- `_local_meta_nvram_get_entries_by_ns`: it may go on without end, or use what is released. -/
def metaScan (ezcfg : Context) : Run Int := do
  if ezcfg.metaNvram then
    match ← ask with
    | 0 => return retOk
    | 1 => stop .endless
    | 2 => stop .undefined
    | _ => return retFail
  else stop .aborted

/-- `_local_nvram_get_entries_by_ns`: it may use what is released. -/
def nvramScan : Run Int := do
  match ← ask with
  | 0 => return retOk
  | 1 => stop .undefined
  | _ => return retFail

/-- `exit_fail` of `ezcfg_common_get_nvram_entries_by_ns` -/
def byNsFail (list : Ptr) (nvramMutexLocked : Bool) : Run (Option Ptr) := do
  let _ ← linkedListDelSettings list
  let _ ← finish nvramMutexLocked retFail
  return none

/-- Both scans of `ezcfg_common_get_nvram_entries_by_ns`. -/
def byNsScans (ezcfg : Context) (list : Ptr) (nvramMutexLocked : Bool) : Run (Option Ptr) := do
  if (← metaScan ezcfg) ≠ retOk then byNsFail list nvramMutexLocked
  else if ezcfg.nvram then
    if (← nvramScan) ≠ retOk then byNsFail list nvramMutexLocked
    else
      let _ ← finish nvramMutexLocked retOk
      return some list
  else
    let _ ← finish nvramMutexLocked retOk
    return some list

/-- `ezcfg_common_get_nvram_entries_by_ns`: the list, when it returns OK. -/
def ezcfgCommonGetNvramEntriesByNs : Run (Option Ptr) := do
  match ← ezcfgLinkedListNew with
  | none => return none
  | some list =>
    let ezcfg ← readContext
    if ezcfg.nvram then
      if (← lockMutex .nvram) ≠ retOk then byNsFail list false
      else byNsScans ezcfg list true
    else byNsScans ezcfg list false

/-! ## Threads and sockets -/

/-- The settings that are wanted: the name fits, a pair is made, and it is appended. -/
def askSettings : Nat → Run Bool
  | 0 => return true
  | settings + 1 => do
    if ¬ (← succeeds) then return false
    else if ¬ (← succeeds) then return false
    else if ¬ (← succeeds) then return false
    else askSettings settings

/-- The values of the settings. Without one the pair is released, and then again with the list. -/
def readSettings : Nat → Run Bool
  | 0 => return true
  | settings + 1 => do
    if ¬ (← succeeds) then return false
    else if ¬ (← succeeds) then stop .undefined
    else readSettings settings

/-- `if (list) ezcfg_linked_list_del(list)` -/
def delListIf (list : Option Ptr) : Run Unit := do
  match list with
  | some list =>
    let _ ← linkedListDelSettings list
    return ()
  | none => return ()

/-- `if (p) free(p)` -/
def freeIf (p : Option Ptr) : Run Unit := do
  match p with
  | some p => freeObject p
  | none => return ()

/-- `exit_fail` of a constructor: the list, the block and the reference. -/
def newFail (list block : Option Ptr) : Run (Option Ptr) := do
  delListIf list
  freeIf block
  let _ ← ezcfgDecRef
  return none

/-- `ezcfg_thread_new` behind the settings: the attributes. -/
def setAttributes (thread : Ptr) : Run (Option Ptr) := do
  if ¬ (← succeeds) then newFail none (some thread)
  else if ¬ (← succeeds) then newFail none (some thread)
  -- a stack size of zero is not set
  else if ¬ (← succeeds) then return some thread
  else if ¬ (← succeeds) then newFail none (some thread)
  else return some thread

/-- `ezcfg_thread_new` behind its list. -/
def setUpThread (thread list : Ptr) : Run (Option Ptr) := do
  if ¬ (← askSettings 2) then newFail (some list) (some thread)
  else if (← ezcfgCommonGetNvramEntries 2) ≠ retOk then newFail (some list) (some thread)
  else if ¬ (← readSettings 2) then newFail (some list) (some thread)
  else
    let _ ← linkedListDelSettings list
    setAttributes thread

/-- `ezcfg_thread_new` -/
def ezcfgThreadNew : Run (Option Ptr) := do
  if (← ezcfgIncRef) ≠ retOk then return none
  else
    match ← calloc (.thread ⟨.stopped, false, false, false, false⟩) with
    | none => newFail none none
    | some thread =>
      match ← ezcfgLinkedListNew with
      | none => newFail none (some thread)
      | some list => setUpThread thread list

/-- `*thread` -/
def readThread (p : Ptr) : Run Thread := do
  match ← readObject p with
  | .thread thread => return thread
  | _ => stop .undefined

/-- The argument of a thread is released; without a handler `free` is called, which does not
fail. -/
def delArg (thread : Thread) : Run Int := do
  if thread.argDelHandler then outcome else return retOk

/-- The part of `ezcfg_thread_del` between its lock and its unlock; no reference is given back. -/
def releaseThread (p : Ptr) : Run Int := do
  let thread ← readThread p
  if thread.state ≠ .stopped then return retFail
  else if thread.arg then
    if (← delArg thread) ≠ retOk then return retFail
    else
      freeObject p
      return retOk
  else
    freeObject p
    return retOk

/-- `ezcfg_thread_del` -/
def ezcfgThreadDel (p : Ptr) : Run Int := lockedLeniently .threadState (releaseThread p)

/-- `ezcfg_thread_set_start_routine` -/
def ezcfgThreadSetStartRoutine (p : Ptr) : Run Int := do
  let thread ← readThread p
  writeObject p (.thread { thread with startRoutine := true })
  return retOk

/-- `ezcfg_thread_set_arg_del_handler` -/
def ezcfgThreadSetArgDelHandler (p : Ptr) : Run Int := do
  let thread ← readThread p
  writeObject p (.thread { thread with argDelHandler := true })
  return retOk

/-- `ezcfg_thread_set_stop` -/
def ezcfgThreadSetStop (p : Ptr) : Run Int := do
  let thread ← readThread p
  writeObject p (.thread { thread with stop := true })
  return retOk

/-- The part of `ezcfg_thread_start` between its lock and its unlock. -/
def createThread (p : Ptr) : Run Int := do
  let thread ← readThread p
  if thread.state ≠ .stopped then return retFail
  else if ¬ (← succeeds) then return retFail
  else
    writeObject p (.thread { thread with state := .running })
    return retOk

/-- `ezcfg_thread_start` -/
def ezcfgThreadStart (p : Ptr) : Run Int := do
  let thread ← readThread p
  if thread.startRoutine then lockedLeniently .threadState (createThread p)
  else stop .aborted

/-- The part of `ezcfg_thread_stop` between its lock and its unlock. -/
def stopThread (p : Ptr) : Run Int := do
  let thread ← readThread p
  if thread.state = .stopped then return retOk
  else if thread.state ≠ .running then return retFail
  else if thread.stop then
    if (← outcome) = retOk then
      writeObject p (.thread { thread with state := .stopping })
      return retOk
    else return retFail
  else return retFail

/-- `ezcfg_thread_stop` -/
def ezcfgThreadStop (p : Ptr) : Run Int := lockedLeniently .threadState (stopThread p)

/-- `create_socket`: one of the addresses is asserted; the reference is left to the caller. -/
def createSocket (laddr raddr : Bool) : Run (Option Ptr) := do
  if laddr ∨ raddr then calloc .socket else stop .aborted

/-- `ezcfg_socket_fake_new` -/
def ezcfgSocketFakeNew (laddr raddr : Bool) : Run (Option Ptr) := createSocket laddr raddr

/-- The addresses: whether each is there, or its copy is refused. -/
def readAddresses : Nat → Run (Option (List Bool))
  | 0 => return some []
  | addresses + 1 => do
    if ¬ (← succeeds) then return none
    else if ¬ (← succeeds) then stop .undefined
    -- an empty text is no address
    else if ¬ (← succeeds) then
      let others ← readAddresses addresses
      return others.map (false :: ·)
    else if ¬ (← succeeds) then return none
    else
      let others ← readAddresses addresses
      return others.map (true :: ·)

/-- `ezcfg_socket_new` behind its list. -/
def setUpSocket (list : Ptr) : Run (Option Ptr) := do
  if ¬ (← askSettings 5) then newFail (some list) none
  else if (← ezcfgCommonGetNvramEntries 5) ≠ retOk then newFail (some list) none
  else if ¬ (← readSettings 3) then newFail (some list) none
  else
    match ← readAddresses 2 with
    | none => newFail (some list) none
    | some addresses =>
      let _ ← linkedListDelSettings list
      match ← createSocket (addresses.headD false) (addresses.getLastD false) with
      | some sp => return some sp
      | none =>
        let _ ← ezcfgDecRef
        return none

/-- `ezcfg_socket_new` -/
def ezcfgSocketNew : Run (Option Ptr) := do
  if (← ezcfgIncRef) ≠ retOk then return none
  else
    match ← ezcfgLinkedListNew with
    | none => newFail none none
    | some list => setUpSocket list

/-- `*sp` -/
def readSocket (sp : Ptr) : Run Unit := do
  match ← readObject sp with
  | .socket => return ()
  | _ => stop .undefined

/-- `ezcfg_socket_new_accepted_socket`: no reference is taken. -/
def ezcfgSocketNewAcceptedSocket (listener : Ptr) : Run (Option Ptr) := do
  readSocket listener
  calloc .socket

/-- `ezcfg_socket_del` -/
def ezcfgSocketDel (sp : Ptr) : Run Int := do
  readSocket sp
  freeWithReference sp

end Ezcfg.Runtime

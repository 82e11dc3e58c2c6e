import Ezcfg.Runtime.Calls

/-!
# Processes, and the calls of a run

`ezcfg_process_new` forks, and the parent keeps the child in a list; `ezcfg_process_del` releases
that list with every process in it. The child goes on with a copy of everything, a new mutex and
no list, until another program is run or that has failed.
-/

namespace Ezcfg.Runtime

open Foundation Foundation.Asking

/-- The processes in a list. -/
def readList (p : Ptr) : Run (List Ptr) := do
  match ← readObject p with
  | .list processes => return processes
  | _ => stop .undefined

/-- The state and the number of a process. -/
def readProcess (p : Ptr) : Run (RunState × Int) := do
  match ← readObject p with
  | .process state processId => return (state, processId)
  | _ => stop .undefined

mutual

/-- `ezcfg_linked_list_del`, with a bound on its rounds and those of what it calls. -/
def ezcfgLinkedListDel : Nat → Ptr → Run Int
  | 0, _ => stop .endless
  | rounds + 1, list => do
    match ← readList list with
    | [] => freeWithReference list
    | process :: others =>
      writeObject list (.list others)
      let _ ← ezcfgProcessDel rounds process
      ezcfgLinkedListDel rounds list

/-- `ezcfg_process_del`, which is the handler of the list too; no reference is given back. -/
def ezcfgProcessDel : Nat → Ptr → Run Int
  | 0, _ => stop .endless
  | rounds + 1, process => do
    if (← lockMutex .process) ≠ retOk then return retFail
    else
      let (state, _) ← readProcess process
      if state ≠ .stopped then
        let _ ← unlockMutex .process
        return retFail
      else
        -- the list of the children
        match (← look).childProcessList with
        | some list =>
          let _ ← ezcfgLinkedListDel rounds list
          freeObject process
          let _ ← unlockMutex .process
          return retOk
        | none =>
          freeObject process
          let _ ← unlockMutex .process
          return retOk

end

/-- The walk of `ezcfg_linked_list_append` with `ezcfg_process_cmp_handler`: a process of the same
number is released and replaced. -/
def appendProcess (rounds : Nat) (list : Ptr) (process : Ptr) (processId : Int) (before : List Ptr) :
    List Ptr → Run Int
  | [] => do
    if ← succeeds then
      writeObject list (.list (before ++ [process]))
      return retOk
    else return retFail
  | p :: others => do
    let (_, other) ← readProcess p
    if other = processId then
      let _ ← ezcfgProcessDel rounds p
      writeObject list (.list (before ++ process :: others))
      return retOk
    else appendProcess rounds list process processId (before ++ [p]) others

/-- `exit_fail` of `ezcfg_process_new`: a reference is given back that was not taken. -/
def processFail (list newList process : Option Ptr) : Run Int := do
  delListIf list
  delListIf newList
  freeIf process
  let _ ← ezcfgDecRef
  return retFail

/-- The settings of the child are collected. Without the copy of the filename the pair is released,
and then again with the list. -/
def collectSettings : Nat → Run Bool
  | 0 => return true
  | settings + 1 => do
    if ¬ (← succeeds) then return false
    else
      match ← ask with
      -- neither the filename nor a setting of the META buffer
      | 0 => collectSettings settings
      -- the filename
      | 1 => if ← succeeds then collectSettings settings else stop .undefined
      | _ =>
        if ¬ (← succeeds) then return false
        else if ¬ (← succeeds) then return false
        else collectSettings settings

/-- The list of the children, which is made when there is none. -/
def childList : Run (Option Ptr) := do
  match (← look).childProcessList with
  | some list => return some list
  | none =>
    match ← ezcfgLinkedListNew with
    | none => return none
    | some list =>
      change fun world => { world with childProcessList := some list }
      return some list

/-- The parent after `fork`. The mutex is not given back when the child has been kept. -/
def parent (rounds : Nat) (list process : Ptr) (cpid : Int) : Run Int := do
  writeObject process (.process .stopped cpid)
  if (← lockMutex .process) ≠ retOk then processFail (some list) none (some process)
  else
    match ← childList with
    | none =>
      let _ ← unlockMutex .process
      processFail (some list) none (some process)
    | some children =>
      let processes ← readList children
      if (← appendProcess rounds children process cpid [] processes) ≠ retOk then
        let _ ← unlockMutex .process
        processFail (some list) none (some process)
      else return retOk

/-- The child after `fork`: `pthread_mutex_init`, and `execve`, which returns only when it fails. -/
def child : Run Int := do
  change fun world =>
    { world with held := world.held.erase .process, childProcessList := none }
  if ← succeeds then stop .replaced else return -1

/-- `ezcfg_process_new` behind the settings of the child. -/
def forkProcess (rounds : Nat) (list newList : Ptr) : Run Int := do
  -- the text of the settings
  if ¬ (← succeeds) then processFail (some list) (some newList) none
  else
    let _ ← linkedListDelSettings newList
    match ← calloc (.process .stopped 0) with
    | none => processFail (some list) none none
    | some process =>
      match ← ask with
      | -1 => processFail (some list) none (some process)
      | 0 => child
      | cpid => parent rounds list process cpid

/-- `ezcfg_process_new` -/
def ezcfgProcessNew (rounds : Nat) : Run Int := do
  if ¬ (← succeeds) then processFail none none none
  else
    match ← ezcfgCommonGetNvramEntriesByNs with
    | none => processFail none none none
    | some list =>
      match ← ezcfgLinkedListNew with
      | none => processFail (some list) none none
      | some newList =>
        if ¬ (← collectSettings (← ask).toNat) then processFail (some list) (some newList) none
        else forkProcess rounds list newList

/-! ## Runs of calls -/

/-- A call of a public function. A number of rounds bounds the loops that release processes. -/
inductive Call where
  | new (text : Bool)
  | del
  | getNvramEntryValue
  | getNvramEntries (pairs : Nat)
  | setNvramEntries (pairs : Nat)
  | getNvramEntriesByNs
  | localNvram
  | localNvramVersion
  | linkedListNew
  | linkedListDel (rounds : Nat) (list : Ptr)
  | authNew
  | authDelete (auth : Ptr)
  | threadNew
  | threadDel (thread : Ptr)
  | threadSetStartRoutine (thread : Ptr)
  | threadSetArgDelHandler (thread : Ptr)
  | threadSetStop (thread : Ptr)
  | threadStart (thread : Ptr)
  | threadStop (thread : Ptr)
  | socketNew
  | socketFakeNew (laddr raddr : Bool)
  | socketNewAcceptedSocket (listener : Ptr)
  | socketDel (sp : Ptr)
  | processNew (rounds : Nat)
  | processDel (rounds : Nat) (process : Ptr)
deriving DecidableEq, Repr

/-- What a call returns: a code, or a pointer. -/
inductive Answer where
  | code (ret : Int)
  | object (p : Option Ptr)
deriving DecidableEq, Repr

/-- A code is returned. -/
def code (program : Run Int) : Run Answer := do return .code (← program)

/-- A pointer is returned. -/
def object (program : Run (Option Ptr)) : Run Answer := do return .object (← program)

/-- Perform one call. -/
def perform : Call → Run Answer
  | .new text => code (ezcfgNew text)
  | .del => code ezcfgDel
  | .getNvramEntryValue => code ezcfgCommonGetNvramEntryValue
  | .getNvramEntries pairs => code (ezcfgCommonGetNvramEntries pairs)
  | .setNvramEntries pairs => code (ezcfgCommonSetNvramEntries pairs)
  | .getNvramEntriesByNs => object ezcfgCommonGetNvramEntriesByNs
  | .localNvram => code do localNvramCall (← readContext)
  | .localNvramVersion => code do localNvramGetVersionString (← readContext)
  | .linkedListNew => object ezcfgLinkedListNew
  | .linkedListDel rounds list => code (ezcfgLinkedListDel rounds list)
  | .authNew => object ezcfgAuthNew
  | .authDelete auth => code (ezcfgAuthDelete auth)
  | .threadNew => object ezcfgThreadNew
  | .threadDel thread => code (ezcfgThreadDel thread)
  | .threadSetStartRoutine thread => code (ezcfgThreadSetStartRoutine thread)
  | .threadSetArgDelHandler thread => code (ezcfgThreadSetArgDelHandler thread)
  | .threadSetStop thread => code (ezcfgThreadSetStop thread)
  | .threadStart thread => code (ezcfgThreadStart thread)
  | .threadStop thread => code (ezcfgThreadStop thread)
  | .socketNew => object ezcfgSocketNew
  | .socketFakeNew laddr raddr => object (ezcfgSocketFakeNew laddr raddr)
  | .socketNewAcceptedSocket listener => object (ezcfgSocketNewAcceptedSocket listener)
  | .socketDel sp => code (ezcfgSocketDel sp)
  | .processNew rounds => code (ezcfgProcessNew rounds)
  | .processDel rounds process => code (ezcfgProcessDel rounds process)

/-- A run: the calls, each with the outcomes it is given. -/
abbrev Script : Type := List (Call × List Int)

end Ezcfg.Runtime

import Ezcfg.Foundation.Asking
import Ezcfg.Foundation.HeapCount
import Ezcfg.Values

/-!
# The mutexes, the context and its references

The library has four mutexes, one context with a counter of references, and the objects that are
made for it. What texts and settings hold is left out: what a test of them finds is an outcome, as
is what an allocation or a call of the system gives.

The pthread functions report an error with a positive number, so that the loops that try again
while the result is negative are never entered. A free mutex is granted; one that is held already
is waited for without end.
-/

namespace Ezcfg.Runtime

open Foundation Foundation.Asking

/-- `ezcfg_ref_mutex`, `nvram_mutex`, `thread_state_mutex` and `process_mutex` -/
inductive Mutex where
  | ezcfgRef
  | nvram
  | threadState
  | process
deriving DecidableEq, Repr

/-- `THREAD_STATE_STOPPED` and the others, for threads and for processes. -/
inductive RunState where
  | stopped
  | running
  | stopping
deriving DecidableEq, Repr

/-- What is read of a `struct ezcfg_thread`; the argument of a new thread is NULL and is never
set. -/
structure Thread where
  state : RunState
  startRoutine : Bool
  arg : Bool
  argDelHandler : Bool
  stop : Bool
deriving DecidableEq, Repr

/-- What is allocated with a reference to the context. The data of a list are the processes in it;
settings in a list have no references. -/
inductive Object where
  | list (processes : List Ptr)
  | auth
  | thread (thread : Thread)
  | socket
  | process (state : RunState) (processId : Int)
deriving DecidableEq, Repr

/-- Which stores a `struct ezcfg` has. -/
structure Context where
  metaNvram : Bool
  nvram : Bool
deriving DecidableEq, Repr

/-- The mutexes that are held, the last one first; and what the library keeps between calls. -/
structure World where
  held : List Mutex
  refCounter : Int
  thisEzcfg : Option Context
  thisNvram : Bool
  childProcessList : Option Ptr
  objects : Heap Object
deriving DecidableEq, Repr

/-- Nothing has been made. -/
def World.fresh : World := ⟨[], 0, none, false, none, []⟩

/-- The number of objects that are not released. -/
def World.live (world : World) : Nat := world.objects.count

/-- Why a call does not return: it waits for a mutex that it holds, or gives one back that it does
not hold; an assertion fails; released memory is used; a loop goes on; another program is run. -/
inductive Stop where
  | deadlock (mutex : Mutex)
  | notHeld (mutex : Mutex)
  | aborted
  | undefined
  | endless
  | replaced
deriving DecidableEq, Repr

/-- A mutex is the reason. -/
def Stop.OfMutex : Stop → Prop
  | .deadlock _ | .notHeld _ => True
  | _ => False

/-- A part of the library that runs. -/
abbrev Run : Type → Type := Asking Stop World

/-- `lock_ezcfg_ref_mutex` and its siblings -/
def lockMutex (mutex : Mutex) : Run Int := do
  let world ← look
  if mutex ∈ world.held then stop (.deadlock mutex)
  else
    become { world with held := mutex :: world.held }
    return retOk

/-- `unlock_ezcfg_ref_mutex` and its siblings -/
def unlockMutex (mutex : Mutex) : Run Int := do
  let world ← look
  if mutex ∈ world.held then
    become { world with held := world.held.erase mutex }
    return retOk
  else stop (.notHeld mutex)

/-- What is done with a mutex: without the lock it is not done, and without the unlock it has
failed. -/
def locked (mutex : Mutex) (body : Run Int) : Run Int := do
  if (← lockMutex mutex) ≠ retOk then return retFail
  let ret ← body
  if (← unlockMutex mutex) ≠ retOk then return retFail else return ret

/-- What is done with a mutex, whose unlock may fail. -/
def lockedLeniently (mutex : Mutex) (body : Run Int) : Run Int := do
  if (← lockMutex mutex) ≠ retOk then return retFail
  let ret ← body
  let _ ← unlockMutex mutex
  return ret

/-- The context; `ASSERT (this_ezcfg == ezcfg)`. -/
def context : Run Context := do
  match (← look).thisEzcfg with
  | some ezcfg => return ezcfg
  | none => stop .aborted

/-- `malloc` or `calloc` -/
def calloc (object : Object) : Run (Option Ptr) := do
  if ← succeeds then
    let world ← look
    become { world with objects := (world.objects.alloc object).2 }
    return some (world.objects.alloc object).1
  else return none

/-- What a pointer points to. -/
def readObject (p : Ptr) : Run Object := do
  match (← look).objects.read p with
  | some object => return object
  | none => stop .undefined

/-- `free` -/
def freeObject (p : Ptr) : Run Unit := do
  let world ← look
  match world.objects.free p with
  | some objects => become { world with objects }
  | none => stop .undefined

/-- An object is written. -/
def writeObject (p : Ptr) (object : Object) : Run Unit := do
  let world ← look
  match world.objects.write p object with
  | some objects => become { world with objects }
  | none => stop .undefined

/-- The reference counter is raised, when the context has been made. -/
def raiseCounter : Run Int := do
  let world ← look
  if world.refCounter > 0 then
    become { world with refCounter := world.refCounter + 1 }
    return retOk
  else return retFail

/-- The reference counter is lowered, when there is a reference besides that of the context. -/
def lowerCounter : Run Int := do
  let world ← look
  if world.refCounter > 1 then
    become { world with refCounter := world.refCounter - 1 }
    return retOk
  else return retFail

/-- `ezcfg_inc_ref` -/
def ezcfgIncRef : Run Int := do
  let _ ← context
  locked .ezcfgRef raiseCounter

/-- `ezcfg_dec_ref` -/
def ezcfgDecRef : Run Int := do
  let _ ← context
  locked .ezcfgRef lowerCounter

end Ezcfg.Runtime

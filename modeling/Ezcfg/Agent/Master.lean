import Ezcfg.Foundation.Runs
import Ezcfg.Values
import Mathlib.Data.List.Basic

/-!
# The master of an agent, its workers and the socket queue

The master thread puts accepted sockets into a queue, and worker threads take them out.
What a thread does between locking and unlocking the mutex is one step; waiting for a
condition gives the mutex away, and a thread that wakes looks at the condition again. A
step belongs to one thread, and the steps of a run come in any order. What a step does not
decide itself is said with it: whether a worker could be created, what the stop flag was,
and whether a wait ended with a timeout.

A worker is known by its place in the list of the workers; it is put there in the step
that starts its thread, and taken out in its last step. The counters are ints that stay
below twice the length of the array, so their arithmetic is that of the integers. A failed
assertion, a cell outside the array and a loop that does not end have no result. Not
modelled: what a worker does with a socket, and the condition variables, since a thread
may wake without a signal.
-/

namespace Ezcfg.Agent

open Foundation

variable {Socket : Type}

/-- Where a worker is in `ezcfg_agent_worker_routine`. -/
inductive Phase (Socket : Type) where
  /-- In front of the condition of the loop. -/
  | loop
  /-- The stop flag was not set; in front of the lock of `ezcfg_agent_master_get_socket`. -/
  | entering
  /-- In `pthread_cond_timedwait`. -/
  | waiting
  /-- Busy with the socket it was given. -/
  | processing (sp : Socket)
  /-- Behind the loop, in front of the lock of `ezcfg_agent_master_stop_worker`. -/
  | leaving
deriving DecidableEq

/-- `ezcfg_agent_master` -/
structure Master (Socket : Type) where
  threadsMax : Int
  numThreads : Int
  numIdle : Int
  queue : List Socket
  sqLen : Int
  sqHead : Int
  sqTail : Int
  workers : List (Phase Socket)
deriving DecidableEq

/-- The part of `put_socket` that starts a worker when there is none that is idle. -/
def startWorker (created : Bool) (master : Master Socket) : Master Socket :=
  if master.numIdle = 0 ∧ master.numThreads < master.threadsMax then
    if created then
      { master with numThreads := master.numThreads + 1, workers := .loop :: master.workers }
    else master
  else master

/-- `put_socket` behind the wait. -/
def putSocket (created : Bool) (sp : Socket) (master : Master Socket) :
    Option (Master Socket) := do
  ensure (master.sqHead - master.sqTail < master.sqLen)
  let pos := (master.sqHead.tmod master.sqLen).toNat
  ensure (pos < master.queue.length)
  let master :=
    { master with queue := master.queue.set pos sp, sqHead := master.sqHead + 1 }
  return startWorker created master

/-- The loop that wraps the counters, with a bound on its turns. -/
def wrapCounters : Nat → Master Socket → Option (Master Socket)
  | 0, _ => none
  | turns + 1, master =>
    if master.sqTail ≥ master.sqLen then
      wrapCounters turns { master with
        sqTail := master.sqTail - master.sqLen, sqHead := master.sqHead - master.sqLen }
    else some master

/-- `ezcfg_agent_master_get_socket` behind the wait. Each turn of the loop makes the tail
smaller, so there are at most as many as it says. -/
def takeSocket (master : Master Socket) : Option (Socket × Master Socket) := do
  ensure (master.sqHead > master.sqTail)
  let master := { master with numIdle := master.numIdle - 1 }
  let sp ← master.queue[(master.sqTail.tmod master.sqLen).toNat]?
  let master := { master with sqTail := master.sqTail + 1 }
  let master ← wrapCounters (master.sqTail.toNat + 1) master
  return (sp, master)

/-- `ezcfg_agent_master_stop_worker`. -/
def stopWorker (worker : Nat) (master : Master Socket) : Option (Master Socket) := do
  let master := { master with workers := master.workers.eraseIdx worker }
  let master :=
    { master with numThreads := master.numThreads - 1, numIdle := master.numIdle - 1 }
  ensure (master.numThreads ≥ 0)
  return master

/-- The master, and the socket with which the master thread waits in `put_socket`. The
history of the run is kept beside them: the sockets put into the queue, and the sockets
given to workers. -/
structure System (Socket : Type) where
  master : Master Socket
  producer : Option Socket
  accepted : List Socket
  handed : List Socket
deriving DecidableEq

/-- A step of a thread. -/
inductive Op (Socket : Type) where
  /-- The master thread calls `put_socket`. -/
  | put (sp : Socket) (created : Bool)
  /-- The master thread wakes in `put_socket`. -/
  | resume (created : Bool)
  /-- A worker reads the stop flag. -/
  | test (worker : Nat) (stop : Bool)
  /-- A worker calls `ezcfg_agent_master_get_socket`. -/
  | get (worker : Nat)
  /-- A worker wakes there. -/
  | wake (worker : Nat)
  /-- The wait of a worker ends with a timeout. -/
  | timeout (worker : Nat)
  /-- A worker is done with its socket. -/
  | finish (worker : Nat)
  /-- A worker calls `ezcfg_agent_master_stop_worker`. -/
  | stop (worker : Nat)
deriving DecidableEq

namespace Master

/-- The condition in front of which the master thread waits. -/
def Full (master : Master Socket) : Prop :=
  master.sqHead - master.sqTail ≥ master.sqLen

instance (master : Master Socket) : Decidable master.Full :=
  inferInstanceAs (Decidable (_ ≥ _))

/-- The condition in front of which a worker waits. -/
def Empty (master : Master Socket) : Prop := master.sqHead = master.sqTail

instance (master : Master Socket) : Decidable master.Empty :=
  inferInstanceAs (Decidable (_ = _))

/-- A worker is now in another phase. -/
def setPhase (master : Master Socket) (worker : Nat) (phase : Phase Socket) : Master Socket :=
  { master with workers := master.workers.set worker phase }

end Master

/-- The master thread looks at the queue. -/
def tryPut (created : Bool) (sp : Socket) (system : System Socket) : Option (System Socket) :=
  if system.master.Full then some { system with producer := some sp }
  else do
    let master ← putSocket created sp system.master
    return { system with master, producer := none, accepted := system.accepted ++ [sp] }

/-- A worker looks at the queue. -/
def tryTake (worker : Nat) (system : System Socket) : Option (System Socket) :=
  if system.master.Empty then
    some { system with master := system.master.setPhase worker .waiting }
  else do
    let (sp, master) ← takeSocket system.master
    return { system with
      master := master.setPhase worker (.processing sp), handed := system.handed ++ [sp] }

/-- One step. A step of a thread that is elsewhere does not happen. -/
def perform (system : System Socket) : Op Socket → Option (System Socket)
  | .put sp created => if system.producer.isNone then tryPut created sp system else some system
  | .resume created =>
    match system.producer with
    | some sp => tryPut created sp system
    | none => some system
  | .test worker stop =>
    match system.master.workers[worker]? with
    | some .loop =>
      let phase := if stop then .leaving else .entering
      some { system with master := system.master.setPhase worker phase }
    | _ => some system
  | .get worker =>
    match system.master.workers[worker]? with
    | some .entering =>
      let master := { system.master with numIdle := system.master.numIdle + 1 }
      tryTake worker { system with master }
    | _ => some system
  | .wake worker =>
    match system.master.workers[worker]? with
    | some .waiting => tryTake worker system
    | _ => some system
  | .timeout worker =>
    match system.master.workers[worker]? with
    | some .waiting => some { system with master := system.master.setPhase worker .leaving }
    | _ => some system
  | .finish worker =>
    match system.master.workers[worker]? with
    | some (.processing _) => some { system with master := system.master.setPhase worker .loop }
    | _ => some system
  | .stop worker =>
    match system.master.workers[worker]? with
    | some .leaving => do
      let master ← stopWorker worker system.master
      return { system with master }
    | _ => some system

/-- A step as a machine that answers nothing. -/
def step (system : System Socket) (op : Op Socket) : Option (Unit × System Socket) :=
  (perform system op).map ((), ·)

/-- The master that `master_new` creates, with the array that is allocated for the queue. -/
def masterNew (threadsMax : Int) (queue : List Socket) : Master Socket where
  threadsMax := threadsMax
  numThreads := 0
  numIdle := 0
  queue := queue
  sqLen := queue.length
  sqHead := 0
  sqTail := 0
  workers := []

/-- The system before any step. -/
def start (master : Master Socket) : System Socket where
  master := master
  producer := none
  accepted := []
  handed := []

end Ezcfg.Agent

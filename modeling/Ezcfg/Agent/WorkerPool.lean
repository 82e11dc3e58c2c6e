import Ezcfg.Agent.SocketQueue

/-!
# The pool of workers

A worker counts itself idle when it calls for a socket. When its wait ends with a timeout it
stays counted until it has stopped, although it will not take another socket; when it leaves
because of the stop flag it is not counted, and stopping counts it off all the same. The
master thread starts a worker when none is counted idle. So a socket can be left in the queue
while the only worker that counts as idle is about to stop. In runs in which this does not
happen, and in which no worker sees the stop flag, the accounts are right and every socket in
the queue has a worker that may take it.
-/

namespace Ezcfg.Agent

open Foundation

variable {Socket : Type}

/-- A worker that counts as idle, unless the stop flag made it leave. -/
def Phase.idle : Phase Socket → Bool
  | .waiting => true
  | .leaving => true
  | _ => false

/-- A worker that has not left its last call for a socket. -/
def Phase.stays : Phase Socket → Bool
  | .leaving => false
  | _ => true

/-- The workers that have not left their last call for a socket. -/
def Master.staying (master : Master Socket) : Nat := master.workers.countP Phase.stays

/-- The accounts are right, and a socket in the queue has a worker. -/
def System.Accounted (system : System Socket) : Prop :=
  0 ≤ system.master.numIdle ∧ system.master.numIdle ≤ system.master.numThreads ∧
    system.master.numThreads ≤ system.master.threadsMax ∧
    system.master.numThreads = system.master.workers.length ∧
    (¬ system.master.Empty → ∃ worker ∈ system.master.workers, worker.stays = true)

instance (system : System Socket) : Decidable system.Accounted :=
  inferInstanceAs (Decidable (_ ∧ _ ∧ _ ∧ _ ∧ (_ → _)))

/-- A socket that is put finds a worker that may take it, or no worker at all; then one is
started. -/
def Served (system : System Socket) : Prop :=
  0 < system.master.staying ∨ system.master.workers = []

instance (system : System Socket) : Decidable (Served system) :=
  decidable_of_iff (0 < system.master.staying ∨ system.master.workers.isEmpty = true)
    (by rw [Served, List.isEmpty_iff])

/-- The steps that keep the accounts. A worker that is to be started is created, and no
worker sees the stop flag. -/
def Allowed (system : System Socket) : Op Socket → Prop
  | .put _ created => created = true ∧ Served system
  | .resume created => created = true ∧ (system.producer.isSome = true → Served system)
  | .test _ stop => stop = false
  | .timeout _ => system.master.Empty ∨ 1 < system.master.staying
  | _ => True

instance (system : System Socket) : ∀ op, Decidable (Allowed system op)
  | .put _ _ => inferInstanceAs (Decidable (_ ∧ _))
  | .resume _ => inferInstanceAs (Decidable (_ ∧ (_ → _)))
  | .test _ _ => inferInstanceAs (Decidable (_ = _))
  | .timeout _ => inferInstanceAs (Decidable (_ ∨ _))
  | .get _ => .isTrue trivial
  | .wake _ => .isTrue trivial
  | .finish _ => .isTrue trivial
  | .stop _ => .isTrue trivial

section Counting

universe u
variable {α : Type u} {entries : List α} {i : Nat} {here : α}

/-- Replacing an entry counts the new one and not the old one. -/
theorem countP_set_add (p : α → Bool) (present : entries[i]? = some here) (next : α) :
    (entries.set i next).countP p + (p here).toNat = entries.countP p + (p next).toNat := by
  induction entries generalizing i with
  | nil => cases present
  | cons first rest inductionHypothesis =>
    cases i with
    | zero =>
      obtain rfl : first = here := Option.some.inj present
      rw [List.set_cons_zero, List.countP_cons, List.countP_cons]
      cases p first <;> cases p next <;> simp
    | succ i =>
      have later := inductionHypothesis (i := i) present
      rw [List.set_cons_succ, List.countP_cons, List.countP_cons]
      omega

/-- Taking out an entry does not count it. -/
theorem countP_eraseIdx_add (p : α → Bool) (present : entries[i]? = some here) :
    (entries.eraseIdx i).countP p + (p here).toNat = entries.countP p := by
  induction entries generalizing i with
  | nil => cases present
  | cons first rest inductionHypothesis =>
    cases i with
    | zero =>
      obtain rfl : first = here := Option.some.inj present
      rw [List.eraseIdx_cons_zero, List.countP_cons]
      cases p first <;> rfl
    | succ i =>
      have later := inductionHypothesis (i := i) present
      rw [List.eraseIdx_cons_succ, List.countP_cons, List.countP_cons]
      omega

end Counting

namespace System

/-- The accounts of a consistent system are right: the idle workers are those that wait or
leave. -/
structure Pool (system : System Socket) : Prop where
  consistent : system.Consistent
  idle : system.master.numIdle = system.master.workers.countP Phase.idle
  limit : system.master.numThreads ≤ system.master.threadsMax
  positive : 1 ≤ system.master.threadsMax
  served : ¬ system.master.Empty → 0 < system.master.staying

variable {system : System Socket}

/-- A pool is accounted. -/
theorem Pool.accounted (pool : system.Pool) : system.Accounted := by
  have part : system.master.workers.countP Phase.idle ≤ system.master.workers.length :=
    List.countP_le_length
  have counted := pool.consistent.threads
  have idle := pool.idle
  refine ⟨?_, ?_, pool.limit, counted, ?_⟩
  · omega
  · omega
  · intro queued
    exact List.countP_pos_iff.mp (pool.served queued)

/-- A socket that is put keeps the pool: where no worker could take it, there is none, and
one is started. -/
theorem Pool.puts (pool : system.Pool) (served : Served system) (sp : Socket)
    {after : System Socket} (consistent : after.Consistent)
    (put : after.master = startWorker true (system.master.stored sp)) : after.Pool := by
  have idle := pool.idle
  have limit := pool.limit
  have counted := pool.consistent.threads
  by_cases starts : system.master.numIdle = 0 ∧ system.master.numThreads < system.master.threadsMax
  · have started : after.master = { system.master.stored sp with
        numThreads := system.master.numThreads + 1, workers := .loop :: system.master.workers } :=
      put.trans ((if_pos starts).trans (if_pos rfl))
    refine ⟨consistent, ?_, ?_, ?_, ?_⟩ <;> rw [started]
    · exact idle
    · show system.master.numThreads + 1 ≤ system.master.threadsMax
      omega
    · exact pool.positive
    · intro _
      exact List.countP_pos_iff.mpr ⟨.loop, List.mem_cons_self, rfl⟩
  · have kept : after.master = system.master.stored sp := put.trans (if_neg starts)
    refine ⟨consistent, ?_, ?_, ?_, ?_⟩ <;> rw [kept]
    · exact idle
    · exact limit
    · exact pool.positive
    · intro _
      obtain staying | none := served
      · exact staying
      · have free : system.master.numIdle = 0 := by rw [idle, none]; rfl
        have few : system.master.numThreads = 0 := by rw [counted, none]; rfl
        have positive := pool.positive
        exact absurd ⟨free, by omega⟩ starts

/-- A worker that is in a phase in which it may take a socket is such a worker. -/
theorem staying_of_next {worker : Nat} {here next : Phase Socket}
    (present : system.master.workers[worker]? = some here) (stays : next.stays = true) :
    0 < (system.master.workers.set worker next).countP Phase.stays :=
  List.countP_pos_iff.mpr
    ⟨next, List.mem_set (List.getElem?_eq_some_iff.mp present).1 next, stays⟩

/-- A worker that goes to another phase keeps the pool, when the count of the idle workers
is changed with it, and when a worker stays for the sockets in the queue. -/
theorem Pool.moves (pool : system.Pool) {worker : Nat} {here next : Phase Socket}
    (present : system.master.workers[worker]? = some here) {after : System Socket}
    (consistent : after.Consistent)
    (workers : after.master.workers = system.master.workers.set worker next)
    (threads : after.master.numThreads = system.master.numThreads)
    (max : after.master.threadsMax = system.master.threadsMax)
    (numIdle : after.master.numIdle + here.idle.toNat = system.master.numIdle + next.idle.toNat)
    (served : ¬ after.master.Empty →
      0 < (system.master.workers.set worker next).countP Phase.stays) : after.Pool where
  consistent := consistent
  idle := by
    have idle := countP_set_add Phase.idle present next
    have before := pool.idle
    rw [workers]
    omega
  limit := by
    rw [threads, max]
    exact pool.limit
  positive := by
    rw [max]
    exact pool.positive
  served := by
    rw [Master.staying, workers]
    exact served

/-- A worker that stops keeps the pool. -/
theorem Pool.leaves (pool : system.Pool) {worker : Nat}
    (present : system.master.workers[worker]? = some .leaving) {after : System Socket}
    (consistent : after.Consistent)
    (left : after.master = { system.master with
      workers := system.master.workers.eraseIdx worker
      numThreads := system.master.numThreads - 1
      numIdle := system.master.numIdle - 1 }) : after.Pool := by
  have idle := countP_eraseIdx_add Phase.idle present
  have staying := countP_eraseIdx_add Phase.stays present
  have before := pool.idle
  have limit := pool.limit
  refine ⟨consistent, ?_, ?_, ?_, ?_⟩ <;> rw [left]
  · show system.master.numIdle - 1 = (system.master.workers.eraseIdx worker).countP Phase.idle
    have one : (Phase.idle (.leaving : Phase Socket)).toNat = 1 := rfl
    omega
  · show system.master.numThreads - 1 ≤ system.master.threadsMax
    omega
  · exact pool.positive
  · intro queued
    have some := pool.served queued
    have none : (Phase.stays (.leaving : Phase Socket)).toNat = 0 := rfl
    rw [Master.staying] at some
    show 0 < (system.master.workers.eraseIdx worker).countP Phase.stays
    omega

/-- Allowed steps keep the pool. -/
theorem Pool.step (pool : system.Pool) {op : Op Socket} (allowed : Allowed system op) :
    ∃ answer after, step system op = some (answer, after) ∧ after.Pool := by
  obtain ⟨answer, after, performed, consistent⟩ := pool.consistent.step op
  obtain ⟨threads, tail, queued, represents, history⟩ := pool.consistent
  obtain ⟨after', performed', effect⟩ := perform_effect threads represents op
  obtain rfl : after' = after := by
    rw [Agent.step, performed'] at performed
    exact (Prod.mk.inj (Option.some.inj performed)).2
  refine ⟨answer, after', performed, ?_⟩
  cases effect with
  | nothing => exact pool
  | waits => exact ⟨consistent, pool.idle, pool.limit, pool.positive, pool.served⟩
  | puts called room stored =>
    obtain ⟨sp, rfl, -⟩ | ⟨rfl, waits⟩ := called
    · obtain ⟨rfl, served⟩ := allowed
      exact pool.puts served _ consistent rfl
    · obtain ⟨rfl, served⟩ := allowed
      exact pool.puts (served (Option.isSome_iff_ne_none.mpr waits)) _ consistent rfl
  | @moves _ worker here next present goes =>
    have kept : here.idle = next.idle →
        (¬ system.master.Empty → 0 < (system.master.workers.set worker next).countP Phase.stays) →
        System.Pool { system with master := system.master.setPhase worker next } := by
      intro same served
      exact pool.moves present consistent rfl rfl rfl (by rw [same]; rfl) served
    cases goes with
    | enters => exact kept rfl fun _ => staying_of_next present rfl
    | stops => cases allowed
    | sleepsAgain => exact kept rfl fun _ => staying_of_next present rfl
    | givesUp =>
      refine kept rfl fun queued => ?_
      have others := countP_set_add Phase.stays present .leaving
      have one : (Phase.stays (.waiting : Phase Socket)).toNat = 1 := rfl
      obtain empty | more := allowed
      · exact absurd empty queued
      · rw [Master.staying] at more
        omega
    | finishes => exact kept rfl fun _ => staying_of_next present rfl
  | sleeps present =>
    refine pool.moves present consistent rfl rfl rfl ?_ fun _ => staying_of_next present rfl
    show system.master.numIdle + 1 + 0 = system.master.numIdle + 1
    omega
  | takes present goes first remaining =>
    refine pool.moves present consistent rfl rfl rfl ?_ fun _ => staying_of_next present rfl
    cases goes with
    | arrives => show system.master.numIdle - 0 + 0 = system.master.numIdle + 0; omega
    | wakes => show system.master.numIdle - 1 + 1 = system.master.numIdle + 0; omega
  | leaves present => exact pool.leaves present consistent rfl

end System

/-- In every run whose steps are allowed no step fails, the accounts are right, and a socket
in the queue has a worker that may take it. -/
theorem accounted_of_allowed {threadsMax : Int} (positive : 1 ≤ threadsMax) (queue : List Socket)
    (ops : List (Op Socket))
    (allowed : Guarded step Allowed (start (masterNew threadsMax queue)) ops) :
    Always step System.Accounted (start (masterNew threadsMax queue)) ops := by
  have pool : (start (masterNew threadsMax queue)).Pool :=
    ⟨start_consistent ⟨rfl, rfl, rfl, rfl⟩, rfl, show 0 ≤ threadsMax by omega, positive,
      fun queued => absurd rfl queued⟩
  exact always_mono (fun _ => System.Pool.accounted) ops _
    (always_of_guarded System.Pool (fun _ _ pool allowed => pool.step allowed) ops _ pool allowed)

/-- A run in which the only worker takes a socket, waits for another one and gives up. -/
theorem accounted_one :
    Always step System.Accounted (start (masterNew 1 [0, 0]))
      [.put 7 true, .test 0 false, .get 0, .finish 0, .test 0 false, .get 0, .timeout 0, .stop 0,
        .put 8 true] :=
  accounted_of_allowed (by decide) _ _ (by decide)

/-- When the second socket is put before this worker has stopped, no worker is there for it. -/
theorem workers_not_accounted :
    ¬ Always step System.Accounted (start (masterNew 1 [0, 0]))
      [.put 7 true, .test 0 false, .get 0, .finish 0, .test 0 false, .get 0, .timeout 0,
        .put 8 true] := by
  decide

end Ezcfg.Agent

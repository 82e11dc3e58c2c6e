import Ezcfg.Runtime.LockedCalls

/-!
# The lock discipline of runs

A run keeps the lock discipline when each call that returns leaves every mutex free, and none stops
for a mutex. `ezcfg_process_new` returns OK in the parent with the mutex of the processes held, and
that is all that can go wrong: a run keeps the discipline exactly when no call of it returns so.
-/

namespace Ezcfg.Runtime

open Foundation Foundation.Asking

/-- Every mutex is free after each call that returns, and no call stops for a mutex. -/
def KeepsLocks : World → Script → Prop
  | _, [] => True
  | world, (call, outcomes) :: rest =>
    match perform call outcomes world with
    | .error stopped => Quiet stopped
    | .ok (_, _, after) => after.held = [] ∧ KeepsLocks after rest

/-- A child is made and kept: `ezcfg_process_new` returns OK. -/
def KeepsChild (call : Call) (answer : Answer) : Prop :=
  ∃ rounds, call = .processNew rounds ∧ answer = .code retOk

/-- No child is kept by a call of the run, up to one that does not return. -/
def KeepsNoChild : World → Script → Prop
  | _, [] => True
  | world, (call, outcomes) :: rest =>
    match perform call outcomes world with
    | .error _ => True
    | .ok (answer, _, after) => ¬KeepsChild call answer ∧ KeepsNoChild after rest

section Processes

variable {held : List Mutex}

theorem steady_linkedListDel (free : .ezcfgRef ∉ held) (rounds : Nat) (list : Ptr) :
    Steady held (ezcfgLinkedListDel rounds list) := by
  cases rounds with
  | zero => exact steady_endless
  | succ rounds =>
    rw [ezcfgLinkedListDel]
    apply triple_bind readList_calm
    intro processes world both
    obtain ⟨rfl, calm⟩ := both
    exact steady_freeWithReference free list world calm

theorem steady_processDel (freeRef : .ezcfgRef ∉ held) (freeProcess : .process ∉ held)
    (rounds : Nat) (process : Ptr) : Steady held (ezcfgProcessDel rounds process) := by
  have free : Mutex.ezcfgRef ∉ Mutex.process :: held := by simpa using freeRef
  have releases : Triple (Calm (.process :: held)) (do
      freeObject process
      let _ ← unlockMutex .process
      return retOk) Quiet fun _ => Calm held := by
    apply triple_bind steady_freeObject
    intro _
    exact steady_release fun _ => steady_pure _
  cases rounds with
  | zero => exact steady_endless
  | succ rounds =>
    rw [ezcfgProcessDel]
    apply steady_lock freeProcess
    apply triple_bind steady_readProcess
    rintro ⟨state, processId⟩
    apply triple_ite
    · intro _
      exact steady_release fun _ => steady_pure _
    · intro _
      apply triple_look
      intro world calm
      split
      · rename_i list is
        apply triple_bind (steady_linkedListDel free rounds list)
        · intro _
          exact releases
        · exact calm
      · exact releases world calm

theorem fail_calm (free : .ezcfgRef ∉ held) (list newList process : Option Ptr) :
    Triple (Calm held) (processFail list newList process) Quiet fun ret world =>
      ret = retFail ∧ Calm held world := by
  apply triple_bind (steady_delListIf free list)
  intro _
  apply triple_bind (steady_delListIf free newList)
  intro _
  apply triple_bind (steady_freeIf process)
  intro _
  apply triple_bind (steady_decRef free)
  intro _
  exact triple_pure fun _ calm => ⟨rfl, calm⟩

theorem steady_collectSettings (settings : Nat) : Steady held (collectSettings settings) := by
  induction settings with
  | zero => exact steady_pure _
  | succ settings inductionHypothesis =>
    apply steady_succeeds
    intro data
    apply steady_ite (steady_pure _)
    apply steady_ask
    intro n
    split
    · exact inductionHypothesis
    · apply steady_succeeds
      intro copied
      exact steady_ite inductionHypothesis steady_undefined
    · apply steady_succeeds
      intro made
      apply steady_ite (steady_pure _)
      apply steady_succeeds
      intro appended
      exact steady_ite (steady_pure _) inductionHypothesis

theorem steady_childList (free : .ezcfgRef ∉ held) : Steady held childList := by
  apply steady_look
  intro world
  split
  · exact steady_pure _
  · apply steady_bind (steady_linkedListNew free)
    intro list
    cases list with
    | none => exact steady_pure _
    | some list =>
      apply steady_bind
      · exact steady_change (fun _ => rfl) fun _ => rfl
      · intro _
        exact steady_pure _

/-- A process in a list that had none. -/
theorem append_calm (rounds : Nat) (list process : Ptr) (processId : Int) :
    Triple (Calm held) (appendProcess rounds list process processId [] []) Quiet
      fun ret world => (ret = retOk ∧ world.held = held) ∨ (ret = retFail ∧ Calm held world) := by
  apply triple_succeeds
  intro granted
  apply triple_ite
  · intro _
    apply triple_via (fun _ world => world.held = held)
    · apply triple_look
      intro world calm
      split
      · exact fun _ => calm.held
      · exact fun _ ofMutex => ofMutex
    · intro _
      exact triple_pure fun _ same => .inl ⟨rfl, same⟩
  · intro _
    exact triple_pure fun _ calm => .inr ⟨rfl, calm⟩

/-- How `ezcfg_process_new` leaves the mutexes: that of the processes held when it returns OK. -/
def Left (ret : Int) (world : World) : Prop :=
  (ret = retOk ∧ world.held = [.process]) ∨ (ret = retFail ∧ Calm [] world)

/-- `exit_fail` of `ezcfg_process_new` -/
theorem fail_left (list newList process : Option Ptr) :
    Triple (Calm []) (processFail list newList process) Quiet Left :=
  fun world calm => (fail_calm List.not_mem_nil list newList process world calm).mono
    (fun _ quiet => quiet) fun _ _ failed => .inr failed

theorem parent_left (rounds : Nat) (list process : Ptr) (cpid : Int) :
    Triple (Calm []) (parent rounds list process cpid) Quiet Left := by
  have fails : Triple (Calm [.process]) (do
      let _ ← unlockMutex .process
      processFail (some list) none (some process)) Quiet Left :=
    steady_release fun _ => fail_left (some list) none (some process)
  apply triple_via (fun _ => Calm [])
  · apply steady_writeObject
    intro processes is
    cases is
  · intro _
    apply steady_lock List.not_mem_nil
    apply triple_bind (steady_childList (by decide))
    intro children
    cases children with
    | none => exact fails
    | some children =>
      apply triple_bind readList_calm
      intro processes world both
      obtain ⟨rfl, calm⟩ := both
      apply triple_bind (append_calm rounds children process cpid)
      · intro ret
        apply triple_ite
        · intro failed world left
          rcases left with ⟨rfl, -⟩ | ⟨-, calm⟩
          · exact absurd rfl failed
          · exact fails world calm
        · intro done
          apply triple_pure
          intro world left
          rcases left with ⟨-, same⟩ | ⟨rfl, -⟩
          · exact .inl ⟨rfl, same⟩
          · exact absurd (by decide) done
      · exact calm

theorem child_left : Triple (Calm []) child Quiet Left := by
  apply triple_via (fun _ => Calm [])
  · apply triple_change
    intro world calm
    refine ⟨?_, calm.childless⟩
    change world.held.erase .process = []
    rw [calm.held]
    rfl
  · intro _
    apply triple_succeeds
    intro ran
    apply triple_ite
    · intro _
      exact triple_stop fun ofMutex => ofMutex
    · intro _
      exact triple_pure fun _ calm => .inr ⟨rfl, calm⟩

theorem forkProcess_left (rounds : Nat) (list newList : Ptr) :
    Triple (Calm []) (forkProcess rounds list newList) Quiet Left := by
  apply triple_succeeds
  intro text
  apply triple_ite (fun _ => fail_left (some list) (some newList) none)
  intro _
  apply triple_bind (steady_linkedListDelSettings List.not_mem_nil newList)
  intro _
  apply triple_via (fun _ => Calm [])
  · apply steady_calloc
    intro processes is
    cases is
  · intro process
    cases process with
    | none => exact fail_left (some list) none none
    | some process =>
      apply triple_ask
      intro cpid
      split
      · exact fail_left (some list) none (some process)
      · exact child_left
      · exact parent_left rounds list process cpid

theorem processNew_left (rounds : Nat) :
    Triple (Calm []) (ezcfgProcessNew rounds) Quiet Left := by
  apply triple_succeeds
  intro fits
  apply triple_ite (fun _ => fail_left none none none)
  intro _
  apply triple_bind (steady_byNs List.not_mem_nil List.not_mem_nil)
  intro list
  cases list with
  | none => exact fail_left none none none
  | some list =>
    apply triple_bind (steady_linkedListNew List.not_mem_nil)
    intro newList
    cases newList with
    | none => exact fail_left (some list) none none
    | some newList =>
      apply triple_ask
      intro settings
      apply triple_bind (steady_collectSettings settings.toNat)
      intro collected
      apply triple_ite (fun _ => fail_left (some list) (some newList) none)
      intro _
      exact forkProcess_left rounds list newList

end Processes

/-- Every call but one is steady when no mutex is held. -/
theorem steady_perform (call : Call) (other : ∀ rounds, call ≠ .processNew rounds) :
    Steady [] (perform call) := by
  have code {program : Run Int} (steady : Steady [] program) : Steady [] (code program) :=
    steady_bind steady fun _ => steady_pure _
  have object {program : Run (Option Ptr)} (steady : Steady [] program) :
      Steady [] (object program) :=
    steady_bind steady fun _ => steady_pure _
  have free (mutex : Mutex) : mutex ∉ ([] : List Mutex) := List.not_mem_nil
  cases call with
  | new text => exact code (steady_new (free _) (free _) text)
  | del => exact code (steady_del (free _) (free _))
  | getNvramEntryValue => exact code (steady_commonGetNvramEntryValue (free _))
  | getNvramEntries pairs => exact code (steady_commonGetNvramEntries (free _) pairs)
  | setNvramEntries pairs => exact code (steady_commonSetNvramEntries (free _) pairs)
  | getNvramEntriesByNs => exact object (steady_byNs (free _) (free _))
  | localNvram =>
    exact code (steady_bind steady_readContext (steady_localNvramCall (free _)))
  | localNvramVersion =>
    exact code (steady_bind steady_readContext (steady_localNvramGetVersionString (free _)))
  | linkedListNew => exact object (steady_linkedListNew (free _))
  | linkedListDel rounds list => exact code (steady_linkedListDel (free _) rounds list)
  | authNew => exact object (steady_authNew (free _))
  | authDelete auth => exact code (steady_authDelete (free _) auth)
  | threadNew => exact object (steady_threadNew (free _) (free _))
  | threadDel thread => exact code (steady_threadDel (free _) thread)
  | threadSetStartRoutine thread => exact code (steady_threadSet thread)
  | threadSetArgDelHandler thread => exact code (steady_threadSet thread)
  | threadSetStop thread => exact code (steady_threadSet thread)
  | threadStart thread => exact code (steady_threadStart (free _) thread)
  | threadStop thread => exact code (steady_threadStop (free _) thread)
  | socketNew => exact object (steady_socketNew (free _) (free _))
  | socketFakeNew laddr raddr => exact object (steady_createSocket laddr raddr)
  | socketNewAcceptedSocket listener => exact object (steady_socketNewAcceptedSocket listener)
  | socketDel sp => exact code (steady_socketDel (free _) sp)
  | processNew rounds => exact absurd rfl (other rounds)
  | processDel rounds process => exact code (steady_processDel (free _) (free _) rounds process)

/-- A call with every mutex free leaves the mutex of the processes held when it keeps a child, and
every mutex free when it does not. -/
theorem perform_left (call : Call) :
    Triple (Calm []) (perform call) Quiet fun answer world =>
      (KeepsChild call answer ∧ world.held ≠ []) ∨ (¬KeepsChild call answer ∧ Calm [] world) := by
  by_cases isNew : ∃ rounds, call = .processNew rounds
  · obtain ⟨rounds, rfl⟩ := isNew
    apply triple_bind (processNew_left rounds)
    intro ret
    apply triple_pure
    rintro world (⟨rfl, same⟩ | ⟨rfl, calm⟩)
    · left
      refine ⟨⟨rounds, rfl, rfl⟩, ?_⟩
      rw [same]
      exact List.cons_ne_nil _ _
    · right
      refine ⟨?_, calm⟩
      rintro ⟨_, -, same⟩
      cases same
  · have other : ∀ rounds, call ≠ .processNew rounds := fun rounds is => isNew ⟨rounds, is⟩
    intro world calm
    apply (steady_perform call other world calm).mono (fun _ quiet => quiet)
    intro answer after kept
    exact .inr ⟨fun ⟨rounds, is, _⟩ => other rounds is, kept⟩

/-- From a state with every mutex free and no process in a list. -/
theorem keepsLocks_of_calm {world : World} (calm : Calm [] world) (script : Script) :
    KeepsLocks world script ↔ KeepsNoChild world script := by
  induction script generalizing world with
  | nil => exact Iff.rfl
  | cons step rest inductionHypothesis =>
    obtain ⟨call, outcomes⟩ := step
    rw [KeepsLocks, KeepsNoChild]
    cases run : perform call outcomes world with
    | error stopped => exact iff_of_true ((perform_left call).of_error calm run) trivial
    | ok result =>
      obtain ⟨answer, left, after⟩ := result
      rcases (perform_left call).of_ok calm run with ⟨keeps, taken⟩ | ⟨keeps, calm⟩
      · exact iff_of_false (fun both => taken both.1) fun both => both.1 keeps
      · exact and_congr (iff_of_true calm.held keeps) (inductionHypothesis calm)

/-- Of every run from the start, whatever is granted, found and given: the mutexes are free after
each call, and none is waited for in vain or given back without being held, exactly when no child
is kept. -/
theorem keepsLocks_iff (script : Script) :
    KeepsLocks .fresh script ↔ KeepsNoChild .fresh script := by
  apply keepsLocks_of_calm
  constructor
  · rfl
  · intro processes member
    exact absurd member List.not_mem_nil

end Ezcfg.Runtime

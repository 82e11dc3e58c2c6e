import Ezcfg.Runtime.Processes

/-!
# The mutexes over a run

A part of the library is steady when it gives back every mutex that it takes, takes none that is
held, and leaves the lists without processes. All of the library is steady except
`ezcfg_process_new` where it keeps a child. So a run has the mutexes free after each call exactly
when no child is kept.
-/

namespace Ezcfg.Runtime

open Foundation Foundation.Asking

/-- Another reason than a mutex. -/
def Quiet (stopped : Stop) : Prop := ¬stopped.OfMutex

/-- There is no process in a list. -/
def Childless (objects : Heap Object) : Prop :=
  ∀ processes, some (.list processes) ∈ objects → processes = []

/-- These mutexes are held, and no list has a process in it. -/
structure Calm (held : List Mutex) (world : World) : Prop where
  held : world.held = held
  childless : Childless world.objects

/-- A program that starts with these mutexes held ends with them, and stops for no mutex. -/
def Steady (held : List Mutex) {α : Type} (program : Run α) : Prop :=
  Triple (Calm held) program Quiet fun _ => Calm held

section Rules

variable {held : List Mutex} {mutex : Mutex} {α β : Type}

theorem steady_pure (value : α) : Steady held (pure value) := triple_pure fun _ calm => calm

theorem steady_bind {first : Run β} {second : β → Run α} (before : Steady held first)
    (later : ∀ value, Steady held (second value)) : Steady held (first >>= second) :=
  triple_bind before later

theorem steady_succeeds {next : Bool → Run α} (later : ∀ yes, Steady held (next yes)) :
    Steady held (succeeds >>= next) :=
  triple_succeeds later

theorem steady_ask {next : Int → Run α} (later : ∀ n, Steady held (next n)) :
    Steady held (ask >>= next) :=
  triple_ask later

theorem steady_ite {condition : Prop} [Decidable condition] {first second : Run α}
    (yes : Steady held first) (no : Steady held second) :
    Steady held (if condition then first else second) :=
  triple_ite (fun _ => yes) fun _ => no

theorem steady_stop {stopped : Stop} (quiet : Quiet stopped) :
    Steady held (stop stopped : Run α) :=
  triple_stop quiet

theorem steady_aborted : Steady held (stop .aborted : Run α) := steady_stop fun ofMutex => ofMutex

theorem steady_undefined : Steady held (stop .undefined : Run α) :=
  steady_stop fun ofMutex => ofMutex

theorem steady_endless : Steady held (stop .endless : Run α) := steady_stop fun ofMutex => ofMutex

/-- A change of something else. -/
theorem steady_change {update : World → World} (sameHeld : ∀ world, (update world).held = world.held)
    (sameObjects : ∀ world, (update world).objects = world.objects) :
    Steady held (change update) := by
  apply triple_change
  intro world calm
  exact ⟨(sameHeld world).trans calm.held, by rw [sameObjects]; exact calm.childless⟩

/-- What is looked at decides what is done. -/
theorem steady_look {next : World → Run α} (later : ∀ world, Steady held (next world)) :
    Steady held (look >>= next) :=
  triple_look fun world calm => later world world calm

/-- A mutex that is not held is granted. -/
theorem lock_calm (free : mutex ∉ held) :
    Triple (Calm held) (lockMutex mutex) Quiet fun ret world =>
      ret = retOk ∧ Calm (mutex :: held) world := by
  apply triple_look
  intro world calm
  split
  · rename_i taken
    rw [calm.held] at taken
    exact absurd taken free
  · exact fun _ => ⟨rfl, congrArg (mutex :: ·) calm.held, calm.childless⟩

/-- The mutex that was taken last is given back. -/
theorem unlock_calm :
    Triple (Calm (mutex :: held)) (unlockMutex mutex) Quiet fun ret world =>
      ret = retOk ∧ Calm held world := by
  apply triple_look
  intro world calm
  split
  · refine fun _ => ⟨rfl, ?_, calm.childless⟩
    change world.held.erase mutex = held
    rw [calm.held, List.erase_cons_head]
  · rename_i absent
    rw [calm.held] at absent
    exact absurd List.mem_cons_self absent

/-- What is done when a mutex is not granted is never done. -/
theorem steady_lock (free : mutex ∉ held) {failing rest : Run α} {ends : α → World → Prop}
    (later : Triple (Calm (mutex :: held)) rest Quiet ends) :
    Triple (Calm held)
      (lockMutex mutex >>= fun ret => if ret ≠ retOk then failing else rest) Quiet ends := by
  apply triple_bind (lock_calm free)
  intro ret
  apply triple_ite
  · intro refused world both
    exact absurd both.1 refused
  · intro _ world both
    exact later world both.2

/-- The same of giving it back. -/
theorem steady_unlock {failing rest : Run α} {ends : α → World → Prop}
    (later : Triple (Calm held) rest Quiet ends) :
    Triple (Calm (mutex :: held))
      (unlockMutex mutex >>= fun ret => if ret ≠ retOk then failing else rest) Quiet ends := by
  apply triple_bind unlock_calm
  intro ret
  apply triple_ite
  · intro refused world both
    exact absurd both.1 refused
  · intro _ world both
    exact later world both.2

/-- Where the code is not looked at. -/
theorem steady_release {rest : Int → Run α} {ends : α → World → Prop}
    (later : ∀ ret, Triple (Calm held) (rest ret) Quiet ends) :
    Triple (Calm (mutex :: held)) (unlockMutex mutex >>= rest) Quiet ends :=
  triple_bind unlock_calm fun ret world both => later ret world both.2

theorem steady_locked (free : mutex ∉ held) {body : Run Int} (inside : Steady (mutex :: held) body) :
    Steady held (locked mutex body) := by
  apply steady_lock free
  apply triple_bind inside
  intro ret
  apply steady_unlock
  exact steady_pure ret

theorem steady_lockedLeniently (free : mutex ∉ held) {body : Run Int}
    (inside : Steady (mutex :: held) body) : Steady held (lockedLeniently mutex body) := by
  apply steady_lock free
  apply triple_bind inside
  intro ret
  apply steady_release
  intro _
  exact steady_pure ret

end Rules

section Parts

variable {held : List Mutex} {α : Type}

theorem steady_context : Steady held context := by
  apply steady_look
  intro world
  split
  · exact steady_pure _
  · exact steady_aborted

theorem steady_readContext : Steady held readContext := by
  apply steady_look
  intro world
  split
  · exact steady_pure _
  · exact steady_undefined

theorem steady_outcome : Steady held outcome := by
  apply steady_succeeds
  intro yes
  exact steady_ite (steady_pure _) (steady_pure _)

theorem steady_readObject {p : Ptr} : Steady held (readObject p) := by
  apply steady_look
  intro world
  split
  · exact steady_pure _
  · exact steady_undefined

theorem steady_calloc {object : Object}
    (without : ∀ processes, object = .list processes → processes = []) :
    Steady held (calloc object) := by
  apply steady_succeeds
  intro granted
  apply steady_ite
  · apply triple_look
    intro world calm
    refine fun _ => ⟨calm.held, ?_⟩
    intro processes member
    rcases List.mem_append.mp member with before | added
    · exact calm.childless processes before
    · exact without processes (Option.some.inj (List.mem_singleton.mp added)).symm
  · exact steady_pure _

/-- A cell that is written leaves the lists without processes, unless it is such a list. -/
theorem childless_set {objects : Heap Object} {p : Ptr} {cell : Option Object}
    (childless : Childless objects)
    (without : ∀ processes, cell = some (.list processes) → processes = []) :
    Childless (objects.set p cell) := by
  intro processes member
  rcases List.mem_or_eq_of_mem_set member with before | rfl
  · exact childless processes before
  · exact without processes rfl

theorem steady_freeObject {p : Ptr} : Steady held (freeObject p) := by
  apply triple_look
  intro world calm
  rw [Heap.free]
  split
  · rename_i objects freed
    split at freed
    · cases freed
      refine fun _ => ⟨calm.held, childless_set calm.childless ?_⟩
      intro processes absurd
      cases absurd
    · cases freed
  · exact steady_undefined world calm

theorem steady_writeObject {p : Ptr} {object : Object}
    (without : ∀ processes, object = .list processes → processes = []) :
    Steady held (writeObject p object) := by
  apply triple_look
  intro world calm
  rw [Heap.write]
  split
  · rename_i objects written
    split at written
    · cases written
      refine fun _ => ⟨calm.held, childless_set calm.childless ?_⟩
      intro processes is
      exact without processes (Option.some.inj is)
    · cases written
  · exact steady_undefined world calm

/-- A thread is no list. -/
theorem without_thread {thread : Thread} (processes : List Ptr)
    (is : Object.thread thread = .list processes) : processes = [] := by
  cases is

theorem steady_writeThread {p : Ptr} {thread : Thread} :
    Steady held (writeObject p (.thread thread)) :=
  steady_writeObject without_thread

/-- A list that is read has no processes. -/
theorem readList_calm {p : Ptr} :
    Triple (Calm held) (readList p) Quiet fun processes world => processes = [] ∧ Calm held world := by
  apply triple_via (fun object world =>
    (∀ processes, object = .list processes → processes = []) ∧ Calm held world)
  · apply triple_look
    intro world calm
    split
    · rename_i object read
      refine fun _ => ⟨?_, calm⟩
      intro processes is
      subst is
      apply calm.childless processes
      rw [Heap.read, Option.join_eq_some_iff] at read
      exact List.mem_of_getElem? read
    · exact fun _ ofMutex => ofMutex
  · intro object
    split
    · exact triple_pure fun _ both => ⟨both.1 _ rfl, both.2⟩
    · exact triple_stop fun ofMutex => ofMutex

theorem steady_readThread {p : Ptr} : Steady held (readThread p) := by
  apply steady_bind steady_readObject
  intro object
  split
  · exact steady_pure _
  · exact steady_undefined

theorem steady_readSocket {p : Ptr} : Steady held (readSocket p) := by
  apply steady_bind steady_readObject
  intro object
  split
  · exact steady_pure _
  · exact steady_undefined

theorem steady_readProcess {p : Ptr} : Steady held (readProcess p) := by
  apply steady_bind steady_readObject
  intro object
  split
  · exact steady_pure _
  · exact steady_undefined

end Parts

end Ezcfg.Runtime

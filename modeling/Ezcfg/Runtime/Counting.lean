import Ezcfg.Runtime.LockDiscipline

/-!
# The references that a call takes and gives back

The counter is to be one for the context and one for each object that is not released. `Counted`
says by how many references it is ahead of that, which is how many the call that runs has taken and
not given back. A part of the library is even when it leaves the difference as it was.
-/

namespace Ezcfg.Runtime

open Foundation Foundation.Asking

/-- The reference of the context itself. -/
def World.base (world : World) : Int := if world.thisEzcfg.isSome then 1 else 0

/-- The counter is ahead by a number of references. -/
def Counted (ahead : Int) (world : World) : Prop :=
  world.refCounter = world.base + ahead + world.live

/-- Whatever the reason is. -/
def Any (_ : Stop) : Prop := True

/-- A part that leaves the difference as it was. -/
def Even {α : Type} (program : Run α) : Prop :=
  ∀ ahead, 0 ≤ ahead → Triple (Counted ahead) program Any fun _ => Counted ahead

section Rules

variable {α β : Type} {ahead : Int}

theorem even_pure (value : α) : Even (pure value : Run α) :=
  fun _ _ => triple_pure fun _ counted => counted

theorem even_bind {first : Run β} {second : β → Run α} (before : Even first)
    (later : ∀ value, Even (second value)) : Even (first >>= second) :=
  fun ahead enough => triple_bind (before ahead enough) fun value => later value ahead enough

theorem even_succeeds {next : Bool → Run α} (later : ∀ yes, Even (next yes)) :
    Even (succeeds >>= next) :=
  fun ahead enough => triple_succeeds fun yes => later yes ahead enough

theorem even_ask {next : Int → Run α} (later : ∀ n, Even (next n)) : Even (ask >>= next) :=
  fun ahead enough => triple_ask fun n => later n ahead enough

theorem even_ite {condition : Prop} [Decidable condition] {first second : Run α}
    (yes : Even first) (no : Even second) : Even (if condition then first else second) :=
  fun ahead enough => triple_ite (fun _ => yes ahead enough) fun _ => no ahead enough

theorem even_stop {stopped : Stop} : Even (stop stopped : Run α) :=
  fun _ _ => triple_stop trivial

theorem even_look {next : World → Run α} (later : ∀ world, Even (next world)) :
    Even (look >>= next) :=
  fun ahead enough => triple_look fun world counted => later world ahead enough world counted

/-- A change of something else. -/
theorem even_change {update : World → World}
    (sameCounter : ∀ world, (update world).refCounter = world.refCounter)
    (sameBase : ∀ world, (update world).base = world.base)
    (sameObjects : ∀ world, (update world).objects = world.objects) : Even (change update) := by
  intro ahead enough
  apply triple_change
  intro world counted
  rw [Counted, sameCounter, sameBase, World.live, sameObjects]
  exact counted

/-- Taking a mutex, when it returns, is granted. -/
theorem lock_counted {mutex : Mutex} {given : World → Prop}
    (same : ∀ world held, given world → given { world with held := held }) :
    Triple given (lockMutex mutex) Any fun ret world => ret = retOk ∧ given world := by
  apply triple_look
  intro world is
  split
  · exact fun _ => trivial
  · exact fun _ => ⟨rfl, same world _ is⟩

theorem unlock_counted {mutex : Mutex} {given : World → Prop}
    (same : ∀ world held, given world → given { world with held := held }) :
    Triple given (unlockMutex mutex) Any fun ret world => ret = retOk ∧ given world := by
  apply triple_look
  intro world is
  split
  · exact fun _ => ⟨rfl, same world _ is⟩
  · exact fun _ => trivial

/-- The difference has nothing to do with the mutexes. -/
theorem counted_held {ahead : Int} (world : World) (held : List Mutex) (counted : Counted ahead world) :
    Counted ahead { world with held := held } :=
  counted

/-- What is done when a mutex is not granted is never done. -/
theorem granted_counted {mutex : Mutex} {given : World → Prop} {failing rest : Run α}
    {ends : α → World → Prop}
    (same : ∀ world held, given world → given { world with held := held })
    (later : Triple given rest Any ends) :
    Triple given (lockMutex mutex >>= fun ret => if ret ≠ retOk then failing else rest) Any
      ends := by
  apply triple_bind (lock_counted same)
  intro ret
  apply triple_ite
  · intro refused world both
    exact absurd both.1 refused
  · intro _ world both
    exact later world both.2

theorem returned_counted {mutex : Mutex} {given : World → Prop} {failing rest : Run α}
    {ends : α → World → Prop}
    (same : ∀ world held, given world → given { world with held := held })
    (later : Triple given rest Any ends) :
    Triple given (unlockMutex mutex >>= fun ret => if ret ≠ retOk then failing else rest) Any
      ends := by
  apply triple_bind (unlock_counted same)
  intro ret
  apply triple_ite
  · intro refused world both
    exact absurd both.1 refused
  · intro _ world both
    exact later world both.2

/-- Where the code is not looked at. -/
theorem released_counted {mutex : Mutex} {given : World → Prop} {rest : Int → Run α}
    {ends : α → World → Prop}
    (same : ∀ world held, given world → given { world with held := held })
    (later : ∀ ret, Triple given (rest ret) Any ends) :
    Triple given (unlockMutex mutex >>= rest) Any ends :=
  triple_bind (unlock_counted same) fun ret world both => later ret world both.2

/-- What a body comes to between its lock and its unlock. -/
theorem locked_counted {mutex : Mutex} {body : Run Int} {given : World → Prop}
    {ends : Int → World → Prop}
    (before : ∀ world held, given world → given { world with held := held })
    (after : ∀ ret world held, ends ret world → ends ret { world with held := held })
    (inside : Triple given body Any ends) : Triple given (locked mutex body) Any ends := by
  apply granted_counted before
  apply triple_bind inside
  intro ret
  apply returned_counted (after ret)
  exact triple_pure fun _ is => is

theorem lockedLeniently_counted {mutex : Mutex} {body : Run Int} {given : World → Prop}
    {ends : Int → World → Prop}
    (before : ∀ world held, given world → given { world with held := held })
    (after : ∀ ret world held, ends ret world → ends ret { world with held := held })
    (inside : Triple given body Any ends) : Triple given (lockedLeniently mutex body) Any ends := by
  apply granted_counted before
  apply triple_bind inside
  intro ret
  apply released_counted (after ret)
  intro _
  exact triple_pure fun _ is => is

theorem even_locked {mutex : Mutex} {body : Run Int} (inside : Even body) :
    Even (locked mutex body) :=
  fun ahead enough => locked_counted counted_held (fun _ => counted_held) (inside ahead enough)

theorem even_lockedLeniently {mutex : Mutex} {body : Run Int} (inside : Even body) :
    Even (lockedLeniently mutex body) :=
  fun ahead enough => lockedLeniently_counted counted_held (fun _ => counted_held) (inside ahead enough)

theorem even_lock {mutex : Mutex} {failing rest : Run α} (later : Even rest) :
    Even (lockMutex mutex >>= fun ret => if ret ≠ retOk then failing else rest) :=
  fun ahead enough => granted_counted counted_held (later ahead enough)

theorem even_release {mutex : Mutex} {rest : Int → Run α} (later : ∀ ret, Even (rest ret)) :
    Even (unlockMutex mutex >>= rest) :=
  fun ahead enough => released_counted counted_held fun ret => later ret ahead enough

end Rules

section Parts

variable {ahead : Int}

/-- A reference is taken where the context or an object has one. -/
theorem incRef_objects (objects : Heap Object) (positive : 0 < 1 + ahead + objects.count) :
    Triple (fun world => Counted ahead world ∧ world.objects = objects) ezcfgIncRef Any
      fun ret world => ret = retOk ∧ Counted (ahead + 1) world ∧ world.objects = objects := by
  apply triple_via (fun _ world =>
    (Counted ahead world ∧ world.base = 1) ∧ world.objects = objects)
  · rintro world ⟨counted, rfl⟩
    apply meets_look
    split
    · rename_i ezcfg is
      refine fun _ => ⟨⟨counted, ?_⟩, rfl⟩
      rw [World.base, is]
      rfl
    · exact fun _ => trivial
  · intro _
    apply locked_counted (fun _ _ given => given) fun _ _ _ ends => ends
    apply triple_look
    rintro world ⟨⟨counted, base⟩, rfl⟩
    rw [Counted, World.live, base] at counted
    rw [if_pos (by omega)]
    refine fun _ => ⟨rfl, ?_, rfl⟩
    change world.refCounter + 1 = world.base + (ahead + 1) + (world.objects.count : Nat)
    omega

/-- A reference is given back where there is one more. -/
theorem decRef_objects (objects : Heap Object) {before : Int} (more : before = ahead + 1) :
    Triple (fun world => Counted before world ∧ world.objects = objects) ezcfgDecRef Any
      fun _ world => world.objects = objects ∧
        Counted (if 0 < before + objects.count then ahead else before) world := by
  apply triple_via fun _ world =>
    (Counted before world ∧ world.base = 1) ∧ world.objects = objects
  · rintro world ⟨counted, rfl⟩
    apply meets_look
    split
    · rename_i ezcfg is
      refine fun _ => ⟨⟨counted, ?_⟩, rfl⟩
      rw [World.base, is]
      rfl
    · exact fun _ => trivial
  · intro _
    apply locked_counted (fun _ _ given => given) fun _ _ _ ends => ends
    apply triple_look
    rintro world ⟨⟨counted, base⟩, rfl⟩
    have total := counted
    rw [Counted, World.live, base] at total
    by_cases lowered : world.refCounter > 1
    · rw [if_pos lowered, if_pos (by omega)]
      refine fun _ => ⟨rfl, ?_⟩
      change world.refCounter - 1 = world.base + ahead + (world.objects.count : Nat)
      omega
    · rw [if_neg lowered, if_neg (by omega)]
      exact fun _ => ⟨rfl, counted⟩

/-- A reference is taken for an object. -/
theorem incRef_counted (enough : 0 ≤ ahead) :
    Triple (Counted ahead) ezcfgIncRef Any fun ret world =>
      ret = retOk ∧ Counted (ahead + 1) world :=
  fun world counted => (incRef_objects world.objects (by omega) world ⟨counted, rfl⟩).mono
    (fun _ any => any) fun _ _ ends => ⟨ends.1, ends.2.1⟩

/-- A reference is given back that has been taken. -/
theorem decRef_counted (enough : 0 ≤ ahead) :
    Triple (Counted (ahead + 1)) ezcfgDecRef Any fun _ => Counted ahead := by
  intro world counted
  apply (decRef_objects world.objects rfl world ⟨counted, rfl⟩).mono (fun _ any => any)
  intro _ after ends
  have given := ends.2
  rwa [if_pos (by omega)] at given

/-- An object that is allocated uses up one of the references. -/
theorem calloc_counted {object : Object} :
    Triple (Counted (ahead + 1)) (calloc object) Any fun p =>
      Counted (if p.isSome then ahead else ahead + 1) := by
  apply triple_succeeds
  intro granted
  apply triple_ite
  · intro _
    apply triple_look
    intro world counted _
    change world.refCounter =
      world.base + ahead + ((world.objects.alloc object).2.count : Nat)
    rw [Counted, World.live] at counted
    rw [Heap.count_alloc]
    omega
  · intro _
    exact triple_pure fun _ counted => counted

/-- The reference of an object that is released is left. -/
theorem freeObject_counted {p : Ptr} :
    Triple (Counted ahead) (freeObject p) Any fun _ => Counted (ahead + 1) := by
  apply triple_look
  intro world counted
  split
  · rename_i objects freed
    intro _
    have fewer := Heap.count_free freed
    change world.refCounter = world.base + (ahead + 1) + (objects.count : Nat)
    rw [Counted, World.live] at counted
    omega
  · exact fun _ => trivial

theorem even_writeObject {p : Ptr} {object : Object} : Even (writeObject p object) := by
  intro ahead enough
  apply triple_look
  intro world counted
  split
  · rename_i objects written
    intro _
    have same := Heap.count_write written
    change world.refCounter = world.base + ahead + (objects.count : Nat)
    rw [Counted, World.live] at counted
    rw [same, counted]
  · exact fun _ => trivial

theorem even_readObject {p : Ptr} : Even (readObject p) := by
  apply even_look
  intro world
  split
  · exact even_pure _
  · exact even_stop

theorem even_readContext : Even readContext := by
  apply even_look
  intro world
  split
  · exact even_pure _
  · exact even_stop

theorem even_outcome : Even outcome := by
  apply even_succeeds
  intro yes
  exact even_ite (even_pure _) (even_pure _)

theorem even_readThread {p : Ptr} : Even (readThread p) := by
  apply even_bind even_readObject
  intro object
  split
  · exact even_pure _
  · exact even_stop

theorem even_readSocket {p : Ptr} : Even (readSocket p) := by
  apply even_bind even_readObject
  intro object
  split
  · exact even_pure _
  · exact even_stop

theorem even_readProcess {p : Ptr} : Even (readProcess p) := by
  apply even_bind even_readObject
  intro object
  split
  · exact even_pure _
  · exact even_stop

theorem even_readList {p : Ptr} : Even (readList p) := by
  apply even_bind even_readObject
  intro object
  split
  · exact even_pure _
  · exact even_stop

end Parts

end Ezcfg.Runtime

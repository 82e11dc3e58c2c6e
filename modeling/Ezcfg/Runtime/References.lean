import Ezcfg.Runtime.CountedCalls

/-!
# The reference counter over a run

A run is balanced when the counter is one for the context and one for each object that is not
released, after each call, and `ezcfg_del` returns OK exactly when there is no object. The calls
that upset the balance are those that release a thread or a process, that make a socket without a
reference, or that make a process or fail to while there is an object. A run is balanced exactly
when none of its calls is one of these.
-/

namespace Ezcfg.Runtime

open Foundation Foundation.Asking

/-- The counter has one reference for the context and one for each object. -/
def Balanced (world : World) : Prop := world.refCounter = world.base + world.live

/-- After each call the references are balanced, and the context is deleted exactly when no object
is left. -/
def StaysBalanced : World → Script → Prop
  | _, [] => True
  | world, (call, outcomes) :: rest =>
    match perform call outcomes world with
    | .error _ => True
    | .ok (answer, _, after) => Balanced after ∧
      (call = .del → (answer = .code retOk ↔ world.live = 0)) ∧ StaysBalanced after rest

/-- A call upsets the balance. -/
def Upsets (call : Call) (answer : Answer) (after : World) : Prop :=
  match call, answer with
  | .threadDel _, .code ret => ret = retOk
  | .processDel _ _, .code ret => ret = retOk
  | .socketFakeNew _ _, .object p => p.isSome = true
  | .socketNewAcceptedSocket _, .object p => p.isSome = true
  | .processNew _, .code ret => ret = retOk ∨ after.live ≠ 0
  | _, _ => False

/-- No call of the run upsets the balance. -/
def UpsetsNothing : World → Script → Prop
  | _, [] => True
  | world, (call, outcomes) :: rest =>
    match perform call outcomes world with
    | .error _ => True
    | .ok (answer, _, after) => ¬Upsets call answer after ∧ UpsetsNothing after rest

/-- The mutexes and the lists, and the references. -/
def Sound (held : List Mutex) (ahead : Int) (world : World) : Prop :=
  Calm held world ∧ Counted ahead world

section Together

variable {held : List Mutex} {ahead : Int} {α : Type}

/-- A part that is steady and even. -/
theorem sound_of {program : Run α} (enough : 0 ≤ ahead) (steady : Steady held program)
    (even : Even program) :
    Triple (Sound held ahead) program Any fun _ => Sound held ahead :=
  (steady.and (even ahead enough)).mono (fun _ sound => sound) (fun _ _ => trivial)
    fun _ _ sound => sound

theorem sound_lock {mutex : Mutex} (free : mutex ∉ held) {failing rest : Run α}
    {ends : α → World → Prop} (later : Triple (Sound (mutex :: held) ahead) rest Any ends) :
    Triple (Sound held ahead)
      (lockMutex mutex >>= fun ret => if ret ≠ retOk then failing else rest) Any ends := by
  have taken := (lock_calm free).and (@lock_counted mutex (Counted ahead) counted_held)
  apply triple_bind (taken.mono (fun _ sound => sound) (fun _ _ => trivial) fun _ _ both => both)
  intro ret
  apply triple_ite
  · intro refused world both
    exact absurd both.1.1 refused
  · intro _ world both
    exact later world ⟨both.1.2, both.2.2⟩

/-- A list that is read has no processes. -/
theorem readList_sound {p : Ptr} (enough : 0 ≤ ahead) :
    Triple (Sound held ahead) (readList p) Any fun processes world =>
      processes = [] ∧ Sound held ahead world :=
  (readList_calm.and (even_readList ahead enough)).mono (fun _ sound => sound)
    (fun _ _ => trivial) fun _ _ both => ⟨both.1.1, both.1.2, both.2⟩

end Together

section Releasing

variable {held : List Mutex} {ahead : Int}

theorem linkedListDel_counted (enough : 0 ≤ ahead) (rounds : Nat) (list : Ptr) :
    Triple (Sound held ahead) (ezcfgLinkedListDel rounds list) Any fun _ => Counted ahead := by
  cases rounds with
  | zero => exact triple_stop trivial
  | succ rounds =>
    rw [ezcfgLinkedListDel]
    apply triple_bind (readList_sound enough)
    intro processes world both
    obtain ⟨rfl, -, counted⟩ := both
    exact even_freeWithReference list ahead enough world counted

/-- A process that is released gives no reference back. -/
theorem processDel_counted (enough : 0 ≤ ahead) (free : .process ∉ held) (rounds : Nat)
    (process : Ptr) :
    Triple (Sound held ahead) (ezcfgProcessDel rounds process) Any fun ret =>
      Counted (if ret = retOk then ahead + 1 else ahead) := by
  have releases : Triple (Counted ahead) (do
      freeObject process
      let _ ← unlockMutex .process
      return retOk) Any fun ret => Counted (if ret = retOk then ahead + 1 else ahead) := by
    apply triple_bind freeObject_counted
    intro _
    apply released_counted counted_held
    intro _
    exact triple_pure fun _ counted => counted
  have refuses : Triple (Counted ahead) (do
      let _ ← unlockMutex .process
      return retFail) Any fun ret => Counted (if ret = retOk then ahead + 1 else ahead) := by
    apply released_counted counted_held
    intro _
    exact triple_pure fun _ counted => counted
  cases rounds with
  | zero => exact triple_stop trivial
  | succ rounds =>
    rw [ezcfgProcessDel]
    apply sound_lock free
    apply triple_bind (sound_of enough steady_readProcess even_readProcess)
    rintro ⟨state, processId⟩
    apply triple_ite
    · intro _ world sound
      exact refuses world sound.2
    · intro _
      apply triple_look
      intro world sound
      split
      · rename_i list is
        apply triple_bind (linkedListDel_counted enough rounds list)
        · intro _
          exact releases
        · exact sound
      · exact releases world sound.2

end Releasing

/-! ## A new process -/

/-- What `ezcfg_process_new` leaves: it fails with no object there, or a reference is missing. -/
def Spent (ret : Int) (world : World) : Prop :=
  (ret = retFail ∧ world.live = 0 ∧ Counted 0 world) ∨
    (Counted (-1) world ∧ (ret = retOk ∨ world.live ≠ 0))

/-- A process is there, and has no reference. -/
def Unpaid (process : Ptr) (world : World) : Prop :=
  Counted (-1) world ∧
    ∃ state processId, world.objects.read process = some (.process state processId)

section Unpaid

variable {process : Ptr}

/-- A live object is counted. -/
theorem count_pos {objects : Heap Object} {p : Ptr} {object : Object}
    (live : objects.read p = some object) : 0 < objects.count := by
  apply List.countP_pos_iff.mpr
  rw [Heap.read, Option.join_eq_some_iff] at live
  exact ⟨_, List.mem_of_getElem? live, rfl⟩

theorem unpaid_held (world : World) (held : List Mutex) (unpaid : Unpaid process world) :
    Unpaid process { world with held := held } :=
  unpaid

theorem unpaid_linkedListDelSettings (list : Ptr) :
    Triple (Unpaid process) (linkedListDelSettings list) Any fun _ => Unpaid process := by
  apply triple_via fun object world =>
    Unpaid process world ∧ world.objects.read list = some object
  · apply triple_look
    intro world unpaid
    split
    · exact fun _ => ⟨unpaid, ‹_›⟩
    · exact fun _ => trivial
  · intro object
    split
    · rintro world ⟨⟨counted, state, processId, live⟩, isList⟩
      have other : process ≠ list := by
        rintro rfl
        cases isList.symm.trans live
      apply meets_bind
      apply meets_look
      obtain ⟨objects, freed, -, -, kept⟩ := Heap.free_live isList
      have still : objects.read process = some (.process state processId) :=
        (kept process other).trans live
      have fewer := Heap.count_free freed
      rw [freed]
      intro outcomes
      have released : Counted 0 { world with objects := objects } := by
        change world.refCounter = world.base + 0 + (objects.count : Nat)
        rw [Counted, World.live] at counted
        omega
      refine (triple_bind (@decRef_objects (-1) objects 0 rfl) fun _ => triple_pure ?_) _
        ⟨released, rfl⟩
      rintro after ⟨rfl, counted⟩
      rw [if_pos (by have := count_pos still; omega)] at counted
      exact ⟨counted, state, processId, still⟩
    · exact triple_stop trivial

theorem unpaid_delListIf (list : Option Ptr) :
    Triple (Unpaid process) (delListIf list) Any fun _ => Unpaid process := by
  cases list with
  | none => exact triple_pure fun _ unpaid => unpaid
  | some list =>
    apply triple_bind (unpaid_linkedListDelSettings list)
    intro _
    exact triple_pure fun _ unpaid => unpaid

/-- The reference that is given back without having been taken. -/
theorem decRef_spent :
    Triple (Counted 0) (do
      let _ ← ezcfgDecRef
      return retFail) Any Spent := by
  intro world counted
  refine (triple_bind (@decRef_objects (-1) world.objects 0 rfl) fun _ => triple_pure ?_) world
    ⟨counted, rfl⟩
  rintro after ⟨same, given⟩
  have live : after.live = world.objects.count := by rw [World.live, same]
  by_cases any : world.objects.count = 0
  · rw [if_neg (by omega)] at given
    exact .inl ⟨rfl, live.trans any, given⟩
  · rw [if_pos (by omega)] at given
    exact .inr ⟨given, .inr fun none => any (live.symm.trans none)⟩

/-- `exit_fail` without a process -/
theorem fail_spent (list newList : Option Ptr) :
    Triple (Counted 0) (processFail list newList none) Any Spent := by
  apply triple_bind (even_delListIf list 0 (by decide))
  intro _
  apply triple_bind (even_delListIf newList 0 (by decide))
  intro _
  apply triple_via fun _ => Counted 0
  · exact triple_pure fun _ counted => counted
  · exact fun _ => decRef_spent

/-- `exit_fail` with the process -/
theorem fail_unpaid (list : Option Ptr) :
    Triple (Unpaid process) (processFail list none (some process)) Any Spent := by
  apply triple_bind (unpaid_delListIf list)
  intro _
  apply triple_via fun _ => Unpaid process
  · exact triple_pure fun _ unpaid => unpaid
  · intro _
    apply triple_via fun _ => Counted 0
    · exact fun world unpaid => freeObject_counted world unpaid.1
    · exact fun _ => decRef_spent

theorem unpaid_linkedListNew :
    Triple (Unpaid process) ezcfgLinkedListNew Any fun _ => Unpaid process := by
  rintro world ⟨counted, state, processId, live⟩
  have positive := count_pos live
  refine (triple_bind (@incRef_objects (-1) world.objects (by omega)) fun ret => ?_) world
    ⟨counted, rfl⟩
  apply triple_ite
  · intro failed after both
    exact absurd both.1 failed
  · rintro - after ⟨-, counted, same⟩
    apply meets_bind
    refine @triple_succeeds _ _ _ (fun between => Counted (-1 + 1) between ∧
      between.objects = world.objects) _ _ _ (fun granted => ?_) after ⟨counted, same⟩
    apply triple_ite
    · rintro - after ⟨counted, same⟩
      apply meets_look
      apply meets_become
      refine fun _ => fun _ => ⟨?_, state, processId, ?_⟩
      · change after.refCounter = after.base + -1 + ((after.objects.alloc (.list [])).2.count : Nat)
        rw [Counted, World.live] at counted
        rw [Heap.count_alloc]
        omega
      · rw [same]
        exact Heap.alloc_extends _ _ _ _ live
    · intro _
      apply triple_pure
      rintro after ⟨counted, same⟩
      refine (triple_bind (@decRef_objects (-1) world.objects _ rfl) fun _ => triple_pure ?_) after
        ⟨counted, same⟩
      rintro after ⟨same, given⟩
      rw [if_pos (by omega)] at given
      exact ⟨given, state, processId, same ▸ live⟩

theorem unpaid_readList {p : Ptr} :
    Triple (Unpaid process) (readList p) Any fun _ => Unpaid process := by
  apply triple_via fun _ => Unpaid process
  · apply triple_look
    intro world unpaid
    split
    · exact fun _ => unpaid
    · exact fun _ => trivial
  · intro object
    split
    · exact triple_pure fun _ unpaid => unpaid
    · exact triple_stop trivial

theorem unpaid_childList : Triple (Unpaid process) childList Any fun _ => Unpaid process := by
  apply triple_look
  intro world unpaid
  split
  · exact fun _ => unpaid
  · apply triple_bind unpaid_linkedListNew
    · intro list
      cases list with
      | none => exact triple_pure fun _ unpaid => unpaid
      | some list =>
        apply triple_via fun _ => Unpaid process
        · exact triple_change fun _ unpaid => unpaid
        · exact fun _ => triple_pure fun _ unpaid => unpaid
    · exact unpaid

/-- The number of the child is written. -/
theorem unpaid_writeProcess (cpid : Int) :
    Triple (Unpaid process) (writeObject process (.process .stopped cpid)) Any fun _ =>
      Unpaid process := by
  apply triple_look
  rintro world ⟨counted, state, processId, live⟩
  obtain ⟨objects, written, -, now, -⟩ := Heap.write_live live (.process .stopped cpid)
  have same := Heap.count_write written
  rw [written]
  refine fun _ => ⟨?_, .stopped, cpid, now⟩
  change world.refCounter = world.base + -1 + (objects.count : Nat)
  rw [same]
  exact counted

/-- The child is in the list, or it is as before. -/
theorem append_unpaid (rounds : Nat) (list : Ptr) (processId : Int) :
    Triple (Unpaid process) (appendProcess rounds list process processId [] []) Any
      fun ret world => (ret = retOk ∧ Counted (-1) world) ∨ (ret = retFail ∧ Unpaid process world) := by
  apply triple_succeeds
  intro granted
  apply triple_ite
  · intro _
    apply triple_via fun _ => Counted (-1)
    · apply triple_look
      rintro world ⟨counted, -⟩
      split
      · rename_i objects written
        intro _
        change world.refCounter = world.base + -1 + (objects.count : Nat)
        rw [Heap.count_write written]
        exact counted
      · exact fun _ => trivial
    · exact fun _ => triple_pure fun _ counted => .inl ⟨rfl, counted⟩
  · intro _
    exact triple_pure fun _ unpaid => .inr ⟨rfl, unpaid⟩

/-- The list of the children has no process yet. -/
def Owing (held : List Mutex) (process : Ptr) (world : World) : Prop :=
  Calm held world ∧ Unpaid process world

theorem owing_of {held : List Mutex} {α : Type} {program : Run α} (steady : Steady held program)
    (unpaid : Triple (Unpaid process) program Any fun _ => Unpaid process) :
    Triple (Owing held process) program Any fun _ => Owing held process :=
  (steady.and unpaid).mono (fun _ owing => owing) (fun _ _ => trivial) fun _ _ owing => owing

theorem parent_spent (rounds : Nat) (list : Ptr) (cpid : Int) :
    Triple (Owing [] process) (parent rounds list process cpid) Any Spent := by
  have fails : Triple (Unpaid process) (do
      let _ ← unlockMutex .process
      processFail (some list) none (some process)) Any Spent :=
    released_counted unpaid_held fun _ => fail_unpaid (some list)
  have written : Steady [] (writeObject process (.process .stopped cpid)) := by
    apply steady_writeObject
    intro processes is
    cases is
  apply triple_bind (owing_of written (unpaid_writeProcess cpid))
  intro _
  have taken := (@lock_calm [] .process List.not_mem_nil).and
    (@lock_counted .process (Unpaid process) unpaid_held)
  apply triple_bind (taken.mono (fun _ owing => owing) (fun _ _ => trivial) fun _ _ both => both)
  intro ret
  apply triple_ite
  · intro refused world both
    exact absurd both.1.1 refused
  · rintro - world ⟨⟨-, calm⟩, -, unpaid⟩
    refine triple_bind (owing_of (steady_childList (by decide)) unpaid_childList) ?_ world
      ⟨calm, unpaid⟩
    intro children
    cases children with
    | none => exact fun world owing => fails world owing.2
    | some children =>
      have read := (@readList_calm [.process] children).and (@unpaid_readList process children)
      apply triple_bind (read.mono (fun _ owing => owing) (fun _ _ => trivial) fun _ _ both => both)
      rintro processes world ⟨⟨rfl, -⟩, unpaid⟩
      refine triple_bind (append_unpaid rounds children cpid) (fun ret => ?_) world unpaid
      apply triple_ite
      · rintro failed world (⟨rfl, -⟩ | ⟨-, unpaid⟩)
        · exact absurd rfl failed
        · exact fails world unpaid
      · intro done
        apply triple_pure
        rintro world (⟨-, counted⟩ | ⟨rfl, -⟩)
        · exact .inr ⟨counted, .inl rfl⟩
        · exact absurd (by decide) done

/-- In the child the process is there without a reference as well. -/
theorem child_spent : Triple (Unpaid process) child Any Spent := by
  apply triple_via fun _ => Unpaid process
  · exact triple_change fun _ unpaid => unpaid
  · intro _
    apply triple_succeeds
    intro ran
    apply triple_ite (fun _ => triple_stop trivial)
    intro _
    apply triple_pure
    rintro world ⟨counted, state, processId, live⟩
    exact .inr ⟨counted, .inr (Nat.pos_iff_ne_zero.mp (count_pos live))⟩

theorem callocProcess_owing :
    Triple (Sound [] 0) (calloc (.process .stopped 0)) Any fun p world =>
      match p with
      | some process => Owing [] process world
      | none => Counted 0 world := by
  apply triple_succeeds
  intro granted
  apply triple_ite
  · intro _
    apply triple_look
    rintro world ⟨calm, counted⟩
    have without : ∀ processes, Object.process .stopped 0 = .list processes → processes = [] := by
      intro processes is
      cases is
    have still := (@steady_calloc [] _ without).of_ok calm
      (show calloc (.process .stopped 0) [] world = .ok (_, [], _) from rfl)
    refine fun _ => ⟨still, ?_, .stopped, 0, Heap.read_alloc _ _⟩
    change world.refCounter =
      world.base + -1 + ((world.objects.alloc (.process .stopped 0)).2.count : Nat)
    rw [Counted, World.live] at counted
    rw [Heap.count_alloc]
    omega
  · intro _
    exact triple_pure fun _ sound => sound.2

theorem forkProcess_spent (rounds : Nat) (list newList : Ptr) :
    Triple (Sound [] 0) (forkProcess rounds list newList) Any Spent := by
  apply triple_succeeds
  intro text
  apply triple_ite
  · intro _ world sound
    exact fail_spent (some list) (some newList) world sound.2
  · intro _
    apply triple_bind (sound_of (Int.le_refl 0) (steady_linkedListDelSettings List.not_mem_nil newList)
      (even_linkedListDelSettings newList))
    intro _
    apply triple_bind callocProcess_owing
    intro process
    cases process with
    | none => exact fail_spent (some list) none
    | some process =>
      change Triple (Owing [] process) _ Any Spent
      apply triple_ask
      intro cpid
      split
      · exact fun world owing => fail_unpaid (some list) world owing.2
      · exact fun world owing => child_spent world owing.2
      · exact parent_spent rounds list _

theorem even_collectSettings (settings : Nat) : Even (collectSettings settings) := by
  induction settings with
  | zero => exact even_pure _
  | succ settings inductionHypothesis =>
    apply even_succeeds
    intro data
    apply even_ite (even_pure _)
    apply even_ask
    intro n
    split
    · exact inductionHypothesis
    · apply even_succeeds
      intro copied
      exact even_ite inductionHypothesis even_stop
    · apply even_succeeds
      intro made
      apply even_ite (even_pure _)
      apply even_succeeds
      intro appended
      exact even_ite (even_pure _) inductionHypothesis

theorem processNew_spent (rounds : Nat) :
    Triple (Sound [] 0) (ezcfgProcessNew rounds) Any Spent := by
  have fails (list newList : Option Ptr) :
      Triple (Sound [] 0) (processFail list newList none) Any Spent :=
    fun world sound => fail_spent list newList world sound.2
  have free (mutex : Mutex) : mutex ∉ ([] : List Mutex) := List.not_mem_nil
  apply triple_succeeds
  intro fits
  apply triple_ite (fun _ => fails none none)
  intro _
  apply triple_bind (sound_of (Int.le_refl 0) (steady_byNs (free _) (free _)) even_byNs)
  intro list
  cases list with
  | none => exact fails none none
  | some list =>
    apply triple_bind (sound_of (Int.le_refl 0) (steady_linkedListNew (free _)) even_linkedListNew)
    intro newList
    cases newList with
    | none => exact fails (some list) none
    | some newList =>
      apply triple_ask
      intro settings
      apply triple_bind (sound_of (Int.le_refl 0) (steady_collectSettings settings.toNat)
        (even_collectSettings settings.toNat))
      intro collected
      apply triple_ite (fun _ => fails (some list) (some newList))
      intro _
      exact forkProcess_spent rounds list newList

end Unpaid

/-! ## The balance of a run -/

/-- The counter is balanced when it is not ahead. -/
theorem balanced_iff (world : World) : Balanced world ↔ Counted 0 world := by
  rw [Balanced, Counted, Int.add_zero]

/-- A counter that is ahead by another number is not balanced. -/
theorem not_balanced {ahead : Int} {world : World} (counted : Counted ahead world)
    (other : ahead ≠ 0) : ¬Balanced world := by
  rw [Counted] at counted
  rw [Balanced]
  omega

/-- What a call comes to: it upsets the balance, or it does not. -/
def Settles (call : Call) (answer : Answer) (world : World) : Prop :=
  (Upsets call answer world ∧ ¬Balanced world) ∨ (¬Upsets call answer world ∧ Balanced world)

/-- A call that leaves the references as they were upsets nothing. -/
theorem settles_even {call : Call} {α : Type} {program : Run α} {answer : α → Answer}
    (even : Even program) (upsets : ∀ value world, ¬Upsets call (answer value) world) :
    Triple (Sound [] 0) (do return answer (← program)) Any (Settles call) := by
  apply triple_via fun _ => Counted 0
  · exact fun world sound => even 0 (Int.le_refl 0) world sound.2
  · intro value
    apply triple_pure
    intro world counted
    exact .inr ⟨upsets value world, (balanced_iff world).mpr counted⟩

/-- A call that is ahead by one when it succeeds. -/
theorem settles_ahead {call : Call} {α : Type} {program : Run α} {answer : α → Answer}
    (succeeded : α → Prop) [DecidablePred succeeded] {extra : Int} (other : extra ≠ 0)
    (counted : Triple (Sound [] 0) program Any fun value =>
      Counted (if succeeded value then extra else 0))
    (upsets : ∀ value world, Upsets call (answer value) world ↔ succeeded value) :
    Triple (Sound [] 0) (do return answer (← program)) Any (Settles call) := by
  apply triple_bind counted
  intro value
  apply triple_pure
  intro world counted
  by_cases done : succeeded value
  · rw [if_pos done] at counted
    exact .inl ⟨(upsets value world).mpr done, not_balanced counted other⟩
  · rw [if_neg done] at counted
    exact .inr ⟨fun upset => done ((upsets value world).mp upset), (balanced_iff world).mpr counted⟩

theorem perform_settles (call : Call) : Triple (Sound [] 0) (perform call) Any (Settles call) := by
  have zero : (0 : Int) ≤ 0 := Int.le_refl 0
  cases call with
  | new text => exact settles_even (even_new text) fun _ _ upset => upset
  | del => exact settles_even even_del fun _ _ upset => upset
  | getNvramEntryValue => exact settles_even even_commonGetNvramEntryValue fun _ _ upset => upset
  | getNvramEntries pairs =>
    exact settles_even (even_commonGetNvramEntries pairs) fun _ _ upset => upset
  | setNvramEntries pairs =>
    exact settles_even (even_commonSetNvramEntries pairs) fun _ _ upset => upset
  | getNvramEntriesByNs => exact settles_even even_byNs fun _ _ upset => upset
  | localNvram =>
    exact settles_even (even_bind even_readContext even_localNvramCall) fun _ _ upset => upset
  | localNvramVersion =>
    exact settles_even (even_bind even_readContext even_localNvramGetVersionString)
      fun _ _ upset => upset
  | linkedListNew => exact settles_even even_linkedListNew fun _ _ upset => upset
  | linkedListDel rounds list =>
    apply triple_via fun _ => Counted 0
    · exact linkedListDel_counted zero rounds list
    · intro ret
      apply triple_pure
      intro world counted
      exact .inr ⟨fun upset => upset, (balanced_iff world).mpr counted⟩
  | authNew => exact settles_even even_authNew fun _ _ upset => upset
  | authDelete auth => exact settles_even (even_authDelete auth) fun _ _ upset => upset
  | threadNew => exact settles_even even_threadNew fun _ _ upset => upset
  | threadDel thread =>
    apply settles_ahead (fun ret => ret = retOk) (show (0 : Int) + 1 ≠ 0 by decide)
    · exact fun world sound => threadDel_counted thread zero world sound.2
    · exact fun _ _ => Iff.rfl
  | threadSetStartRoutine thread => exact settles_even (even_threadSet thread) fun _ _ upset => upset
  | threadSetArgDelHandler thread => exact settles_even (even_threadSet thread) fun _ _ upset => upset
  | threadSetStop thread => exact settles_even (even_threadSet thread) fun _ _ upset => upset
  | threadStart thread => exact settles_even (even_threadStart thread) fun _ _ upset => upset
  | threadStop thread => exact settles_even (even_threadStop thread) fun _ _ upset => upset
  | socketNew => exact settles_even even_socketNew fun _ _ upset => upset
  | socketFakeNew laddr raddr =>
    apply settles_ahead (fun p => p.isSome = true) (show (-1 : Int) ≠ 0 by decide)
    · exact fun world sound => @createSocket_counted laddr raddr (-1) world sound.2
    · exact fun _ _ => Iff.rfl
  | socketNewAcceptedSocket listener =>
    apply settles_ahead (fun p => p.isSome = true) (show (-1 : Int) ≠ 0 by decide)
    · exact fun world sound => @newAcceptedSocket_counted listener (-1) (by decide) world sound.2
    · exact fun _ _ => Iff.rfl
  | socketDel sp => exact settles_even (even_socketDel sp) fun _ _ upset => upset
  | processNew rounds =>
    apply triple_bind (processNew_spent rounds)
    intro ret
    apply triple_pure
    rintro world (⟨rfl, none, counted⟩ | ⟨counted, upset⟩)
    · right
      refine ⟨?_, (balanced_iff world).mpr counted⟩
      rintro (absurd | any)
      · exact Int.noConfusion absurd
      · exact any none
    · exact .inl ⟨upset, not_balanced counted (by decide)⟩
  | processDel rounds process =>
    apply settles_ahead (fun ret => ret = retOk) (show (0 : Int) + 1 ≠ 0 by decide)
    · exact processDel_counted zero List.not_mem_nil rounds process
    · exact fun _ _ => Iff.rfl

/-- When the references are balanced, the context is deleted exactly when no object is left. -/
theorem del_settles {world after : World} {outcomes rest : List Int} {answer : Answer}
    (sound : Sound [] 0 world) (run : perform .del outcomes world = .ok (answer, rest, after)) :
    answer = .code retOk ↔ world.live = 0 := by
  have deleted : Triple (fun before => Counted 0 before ∧ before.live = world.live)
      (perform .del) Any fun answer _ => answer = .code retOk ↔ world.live = 0 := by
    apply triple_bind (del_counted (Int.le_refl 0) world.live)
    intro ret
    apply triple_pure
    rintro after ⟨-, deleted⟩
    rw [Answer.code.injEq, deleted]
    omega
  exact deleted.of_ok ⟨sound.2, rfl⟩ run

/-- From a state whose references are balanced, with every mutex free. -/
theorem staysBalanced_of_sound {world : World} (sound : Sound [] 0 world) (script : Script) :
    StaysBalanced world script ↔ UpsetsNothing world script := by
  induction script generalizing world with
  | nil => exact Iff.rfl
  | cons step rest inductionHypothesis =>
    obtain ⟨call, outcomes⟩ := step
    rw [StaysBalanced, UpsetsNothing]
    cases run : perform call outcomes world with
    | error stopped => exact Iff.rfl
    | ok result =>
      obtain ⟨answer, left, after⟩ := result
      rcases (perform_settles call).of_ok sound run with ⟨upsets, wrong⟩ | ⟨upsets, balanced⟩
      · exact iff_of_false (fun both => wrong both.1) fun both => both.1 upsets
      · have calm : Calm [] after := by
          rcases (perform_left call).of_ok sound.1 run with ⟨⟨rounds, rfl, rfl⟩, -⟩ | ⟨-, calm⟩
          · exact absurd (.inl rfl) upsets
          · exact calm
        have later := inductionHypothesis ⟨calm, (balanced_iff after).mp balanced⟩
        constructor
        · rintro ⟨-, -, stays⟩
          exact ⟨upsets, later.mp stays⟩
        · rintro ⟨-, nothing⟩
          refine ⟨balanced, ?_, later.mpr nothing⟩
          rintro rfl
          exact del_settles sound run

/-- Of every run from the start, whatever is granted, found and given: the counter has one
reference for the context and one for each object after each call, and the context is deleted
exactly when no object is left, if and only if no call upsets the balance. -/
theorem staysBalanced_iff (script : Script) :
    StaysBalanced .fresh script ↔ UpsetsNothing .fresh script := by
  apply staysBalanced_of_sound
  refine ⟨⟨rfl, ?_⟩, rfl⟩
  intro processes member
  exact absurd member List.not_mem_nil

end Ezcfg.Runtime

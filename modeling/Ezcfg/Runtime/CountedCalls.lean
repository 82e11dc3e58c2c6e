import Ezcfg.Runtime.Counting

/-!
# The references of each call

The stores, the lists, the authentications, new threads and new sockets are even: whatever path a
constructor takes, the object it returns has its reference and nothing is left where it returns
none. Releasing a thread leaves its reference behind; a socket that is made without one, and a
process, use up one that they do not have.
-/

namespace Ezcfg.Runtime

open Foundation Foundation.Asking

/-! ## The context and the stores -/

/-- `world.base` is not changed by the RAM store. -/
theorem even_setNvram (present : Bool) :
    Even (change fun world => { world with thisNvram := present }) :=
  even_change (fun _ => rfl) (fun _ => rfl) fun _ => rfl

theorem even_localNvramDel : Even localNvramDel := by
  apply even_locked
  exact even_bind (even_setNvram false) fun _ => even_pure _

/-- The context is deleted where the counter is one. -/
theorem del_counted {ahead : Int} (enough : 0 ≤ ahead) (live : Nat) :
    Triple (fun world => Counted ahead world ∧ world.live = live) ezcfgDel Any
      fun ret world => Counted ahead world ∧ (ret = retOk ↔ ahead + live = 0) := by
  apply triple_via (fun _ world =>
    Counted ahead world ∧ world.live = live ∧ world.base = 1)
  · apply triple_look
    rintro world ⟨counted, is⟩
    split
    · rename_i ezcfg there
      refine fun _ => ⟨counted, is, ?_⟩
      rw [World.base, there]
      rfl
    · exact fun _ => trivial
  · intro ezcfg
    apply locked_counted (fun _ _ given => given) fun _ _ _ given => given
    apply triple_look
    rintro world ⟨counted, rfl, base⟩
    rw [Counted, base] at counted
    split
    · rename_i other
      refine fun _ => ⟨?_, ?_⟩
      · rw [Counted, base]
        exact counted
      · apply iff_of_false (by decide)
        omega
    · rename_i one
      have nothing : ahead + (world.live : Int) = 0 := by omega
      apply meets_become
      have released : Counted ahead
          { world with refCounter := world.refCounter - 1, thisEzcfg := none } := by
        change world.refCounter - 1 = 0 + ahead + (world.live : Int)
        omega
      split
      · apply meets_bind
        apply (even_localNvramDel ahead enough _ released).mono (fun _ any => any)
        exact fun _ _ counted _ => ⟨counted, iff_of_true rfl nothing⟩
      · exact fun _ => ⟨released, iff_of_true rfl nothing⟩

theorem even_del : Even ezcfgDel := by
  intro ahead enough world counted
  exact (del_counted enough world.live world ⟨counted, rfl⟩).mono (fun _ any => any)
    fun _ _ both => both.1

/-- `fail_out` has no context to delete. -/
theorem del_aborts {given : World → Prop} {ends : Int → World → Prop}
    (absent : ∀ world, given world → world.thisEzcfg = none) : Triple given ezcfgDel Any ends := by
  apply triple_via (fun _ _ => False)
  · apply triple_look
    intro world is
    rw [absent world is]
    exact fun _ => trivial
  · exact fun _ _ absurd => absurd.elim

/-- The counter has the reference of the context that is being made. -/
def Making (ahead : Int) (world : World) : Prop :=
  world.thisEzcfg = none ∧ world.refCounter = 1 ∧ ahead + (world.live : Int) = 0

theorem making_pure {α : Type} {ahead : Int} (value : α) :
    Triple (Making ahead) (pure value : Run α) Any fun _ => Making ahead :=
  triple_pure fun _ making => making

/-- Setting the RAM store while the context is being made. -/
theorem localNvramNew_making {ahead : Int} :
    Triple (Making ahead) localNvramNew Any fun _ => Making ahead := by
  apply triple_succeeds
  intro setting
  apply triple_ite (fun _ => making_pure false)
  intro _
  apply triple_succeeds
  intro positive
  apply triple_ite (fun _ => making_pure false)
  intro _
  apply triple_succeeds
  intro nodeList
  apply triple_ite (fun _ => making_pure false)
  intro _
  apply triple_succeeds
  intro nvram
  apply triple_ite (fun _ => making_pure false)
  intro _
  apply granted_counted fun _ _ making => making
  apply triple_look
  intro world making
  split
  · exact fun _ => trivial
  · apply meets_become
    exact returned_counted (fun _ _ making => making) (making_pure true)
      { world with thisNvram := true } making

/-- The new context takes the reference that was made for it. -/
theorem setContext_making {ahead : Int} (ezcfg : Context) :
    Triple (Making ahead) (do
      change fun world => { world with thisEzcfg := some ezcfg }
      return retOk) Any fun _ => Counted ahead := by
  apply triple_via (fun _ => Counted ahead)
  · apply triple_change
    rintro world ⟨-, one, nothing⟩
    change world.refCounter = 1 + ahead + (world.live : Int)
    omega
  · intro _
    exact triple_pure fun _ counted => counted

theorem fillContext_making {ahead : Int} (text : Bool) :
    Triple (Making ahead) (fillContext text) Any fun _ => Counted ahead := by
  have fails : Triple (Making ahead) ezcfgDel Any fun _ => Counted ahead :=
    del_aborts fun _ making => making.1
  apply triple_ite
  · intro _
    apply triple_succeeds
    intro handle
    apply triple_ite (fun _ => fails)
    intro _
    apply triple_succeeds
    intro parsed
    apply triple_ite (fun _ => fails)
    intro _
    apply triple_succeeds
    intro buffer
    apply triple_ite (fun _ => fails)
    intro _
    apply triple_succeeds
    intro filled
    apply triple_ite (fun _ => fails)
    intro _
    apply triple_bind localNvramNew_making
    intro nvram
    exact setContext_making ⟨true, nvram⟩
  · intro _
    exact setContext_making ⟨false, false⟩

theorem even_new (text : Bool) : Even (ezcfgNew text) := by
  intro ahead enough
  apply triple_look
  intro before counted
  split
  · exact fun _ => trivial
  · rename_i absent
    refine @triple_succeeds _ _ _ (fun world => Counted ahead world ∧ world.thisEzcfg = none) _ _ _
      ?_ before ⟨counted, by simpa using absent⟩
    intro granted
    apply triple_ite (fun _ => triple_pure fun _ both => both.1)
    intro _
    apply granted_counted fun _ _ both => both
    apply triple_look
    rintro world ⟨counted, absent⟩
    split
    · exact released_counted (fun _ _ both => both)
        (fun _ => triple_pure fun _ both => both) world counted
    · rename_i zero
      apply meets_become
      apply returned_counted (fun _ _ making => making) (fillContext_making text)
      rw [Counted, World.base, absent] at counted
      refine ⟨absent, ?_, ?_⟩
      · change world.refCounter + 1 = 1
        omega
      · change ahead + (world.live : Int) = 0
        simp only [Option.isSome_none, Bool.false_eq_true, if_false] at counted
        omega

theorem even_localNvramCall (ezcfg : Context) : Even (localNvramCall ezcfg) :=
  even_ite (even_lockedLeniently even_outcome) even_stop

theorem even_localNvramGetVersionString (ezcfg : Context) :
    Even (localNvramGetVersionString ezcfg) :=
  even_ite (even_locked even_outcome) even_stop

theorem even_localMetaNvramGetEntryValue (ezcfg : Context) :
    Even (localMetaNvramGetEntryValue ezcfg) :=
  even_ite even_outcome even_stop

theorem even_commonGetNvramEntryValue : Even ezcfgCommonGetNvramEntryValue := by
  apply even_bind even_readContext
  intro ezcfg
  apply even_bind
  · exact even_ite (even_localNvramCall ezcfg) (even_pure retFail)
  · intro ret
    exact even_ite (even_localMetaNvramGetEntryValue ezcfg) (even_pure _)

theorem even_finish (nvramMutexLocked : Bool) (ret : Int) : Even (finish nvramMutexLocked ret) :=
  even_ite (even_release fun _ => even_pure _) (even_pure _)

theorem even_restrictedNvramCall (ezcfg : Context) : Even (restrictedNvramCall ezcfg) :=
  even_ite even_outcome even_stop

theorem even_getEntriesLoop (ezcfg : Context) (nvramMutexLocked : Bool) (pairs : Nat) :
    Even (getEntriesLoop ezcfg nvramMutexLocked pairs) := by
  induction pairs with
  | zero => exact even_finish nvramMutexLocked retOk
  | succ pairs inductionHypothesis =>
    have fails := even_finish nvramMutexLocked retFail
    apply even_succeeds
    intro data
    apply even_ite fails
    apply even_succeeds
    intro name
    apply even_ite fails
    apply even_bind (even_restrictedNvramCall ezcfg)
    intro ret
    apply even_ite
    · apply even_bind (even_localMetaNvramGetEntryValue ezcfg)
      intro ret
      exact even_ite fails inductionHypothesis
    · exact inductionHypothesis

theorem even_setEntriesLoop (ezcfg : Context) (nvramMutexLocked : Bool) (pairs : Nat) :
    Even (setEntriesLoop ezcfg nvramMutexLocked pairs) := by
  induction pairs with
  | zero => exact even_finish nvramMutexLocked retOk
  | succ pairs inductionHypothesis =>
    have fails := even_finish nvramMutexLocked retFail
    apply even_succeeds
    intro data
    apply even_ite fails
    apply even_succeeds
    intro name
    apply even_ite fails
    apply even_bind (even_restrictedNvramCall ezcfg)
    intro ret
    exact even_ite fails inductionHypothesis

theorem even_overPairs {loop : Context → Bool → Nat → Run Int}
    (even : ∀ ezcfg nvramMutexLocked pairs, Even (loop ezcfg nvramMutexLocked pairs))
    (pairs : Nat) : Even (overPairs loop pairs) := by
  apply even_bind even_readContext
  intro ezcfg
  exact even_ite (even_lock (even ezcfg true pairs)) (even ezcfg false pairs)

theorem even_commonGetNvramEntries (pairs : Nat) : Even (ezcfgCommonGetNvramEntries pairs) :=
  even_overPairs even_getEntriesLoop pairs

theorem even_commonSetNvramEntries (pairs : Nat) : Even (ezcfgCommonSetNvramEntries pairs) :=
  even_overPairs even_setEntriesLoop pairs

/-! ## Lists and authentications -/

theorem even_newWithReference (object : Object) : Even (newWithReference object) := by
  intro ahead enough
  apply triple_bind (incRef_counted enough)
  intro ret
  apply triple_ite
  · intro failed world both
    exact absurd both.1 failed
  · intro _
    apply triple_via (fun p => Counted (if p.isSome then ahead else ahead + 1))
    · exact fun world both => calloc_counted world both.2
    · intro p
      cases p with
      | some p => exact triple_pure fun _ counted => counted
      | none =>
        apply triple_bind (decRef_counted enough)
        intro _
        exact triple_pure fun _ counted => counted

theorem even_freeWithReference (p : Ptr) : Even (freeWithReference p) := by
  intro ahead enough
  apply triple_bind freeObject_counted
  intro _
  apply triple_bind (decRef_counted enough)
  intro _
  exact triple_pure fun _ counted => counted

theorem even_linkedListNew : Even ezcfgLinkedListNew := even_newWithReference (.list [])

theorem even_linkedListDelSettings (list : Ptr) : Even (linkedListDelSettings list) := by
  apply even_bind even_readObject
  intro object
  split
  · exact even_freeWithReference list
  · exact even_stop

theorem even_authNew : Even ezcfgAuthNew := even_newWithReference .auth

theorem even_authDelete (auth : Ptr) : Even (ezcfgAuthDelete auth) := by
  apply even_bind even_readObject
  intro object
  split
  · exact even_freeWithReference auth
  · exact even_stop

theorem even_metaScan (ezcfg : Context) : Even (metaScan ezcfg) := by
  apply even_ite
  · apply even_ask
    intro n
    split
    · exact even_pure _
    · exact even_stop
    · exact even_stop
    · exact even_pure _
  · exact even_stop

theorem even_nvramScan : Even nvramScan := by
  apply even_ask
  intro n
  split
  · exact even_pure _
  · exact even_stop
  · exact even_pure _

theorem even_byNsScans (ezcfg : Context) (list : Ptr) (nvramMutexLocked : Bool) :
    Even (byNsScans ezcfg list nvramMutexLocked) := by
  have fails : Even (byNsFail list nvramMutexLocked) := by
    apply even_bind (even_linkedListDelSettings list)
    intro _
    exact even_bind (even_finish nvramMutexLocked retFail) fun _ => even_pure _
  have returns : Even (do
      let _ ← finish nvramMutexLocked retOk
      return some list) :=
    even_bind (even_finish nvramMutexLocked retOk) fun _ => even_pure _
  apply even_bind (even_metaScan ezcfg)
  intro ret
  apply even_ite fails
  apply even_ite
  · apply even_bind even_nvramScan
    intro ret
    exact even_ite fails returns
  · exact returns

theorem even_byNs : Even ezcfgCommonGetNvramEntriesByNs := by
  apply even_bind even_linkedListNew
  intro list
  cases list with
  | none => exact even_pure _
  | some list =>
    apply even_bind even_readContext
    intro ezcfg
    exact even_ite (even_lock (even_byNsScans ezcfg list true)) (even_byNsScans ezcfg list false)

/-! ## Threads and sockets -/

theorem even_askSettings (settings : Nat) : Even (askSettings settings) := by
  induction settings with
  | zero => exact even_pure _
  | succ settings inductionHypothesis =>
    apply even_succeeds
    intro fits
    apply even_ite (even_pure _)
    apply even_succeeds
    intro made
    apply even_ite (even_pure _)
    apply even_succeeds
    intro appended
    exact even_ite (even_pure _) inductionHypothesis

theorem even_readSettings (settings : Nat) : Even (readSettings settings) := by
  induction settings with
  | zero => exact even_pure _
  | succ settings inductionHypothesis =>
    apply even_succeeds
    intro data
    apply even_ite (even_pure _)
    apply even_succeeds
    intro value
    exact even_ite even_stop inductionHypothesis

theorem even_delListIf (list : Option Ptr) : Even (delListIf list) := by
  cases list with
  | none => exact even_pure _
  | some list => exact even_bind (even_linkedListDelSettings list) fun _ => even_pure _

/-- A constructor fails with the block that it has the reference for. -/
theorem even_newFail_block (list : Option Ptr) (block : Ptr) : Even (newFail list (some block)) := by
  intro ahead enough
  apply triple_bind (even_delListIf list ahead enough)
  intro _
  apply triple_bind freeObject_counted
  intro _
  apply triple_bind (decRef_counted enough)
  intro _
  exact triple_pure fun _ counted => counted

/-- A constructor fails without a block, and has its reference. -/
theorem newFail_counted {ahead : Int} (enough : 0 ≤ ahead) (list : Option Ptr) :
    Triple (Counted (ahead + 1)) (newFail list none) Any fun _ => Counted ahead := by
  apply triple_bind (even_delListIf list (ahead + 1) (by omega))
  intro _
  apply triple_via (fun _ => Counted (ahead + 1))
  · exact triple_pure fun _ counted => counted
  · intro _
    apply triple_bind (decRef_counted enough)
    intro _
    exact triple_pure fun _ counted => counted

theorem even_setAttributes (thread : Ptr) : Even (setAttributes thread) := by
  have fails := even_newFail_block none thread
  apply even_succeeds
  intro init
  apply even_ite fails
  apply even_succeeds
  intro detach
  apply even_ite fails
  apply even_succeeds
  intro zero
  apply even_ite (even_pure _)
  apply even_succeeds
  intro stacksize
  exact even_ite fails (even_pure _)

theorem even_setUpThread (thread list : Ptr) : Even (setUpThread thread list) := by
  have fails := even_newFail_block (some list) thread
  apply even_bind (even_askSettings 2)
  intro asked
  apply even_ite fails
  apply even_bind (even_commonGetNvramEntries 2)
  intro ret
  apply even_ite fails
  apply even_bind (even_readSettings 2)
  intro read
  apply even_ite fails
  apply even_bind (even_linkedListDelSettings list)
  intro _
  exact even_setAttributes thread

theorem even_threadNew : Even ezcfgThreadNew := by
  intro ahead enough
  apply triple_bind (incRef_counted enough)
  intro ret
  apply triple_ite
  · intro failed world both
    exact absurd both.1 failed
  · intro _
    apply triple_via (fun p => Counted (if p.isSome then ahead else ahead + 1))
    · exact fun world both => calloc_counted world both.2
    · intro thread
      cases thread with
      | none => exact newFail_counted enough none
      | some thread =>
        apply triple_bind (even_linkedListNew ahead enough)
        intro list
        cases list with
        | none => exact even_newFail_block none thread ahead enough
        | some list => exact even_setUpThread thread list ahead enough

/-- A thread that is released leaves its reference behind. -/
theorem threadDel_counted (p : Ptr) {ahead : Int} (enough : 0 ≤ ahead) :
    Triple (Counted ahead) (ezcfgThreadDel p) Any fun ret =>
      Counted (if ret = retOk then ahead + 1 else ahead) := by
  have releases : Triple (Counted ahead) (do
      freeObject p
      return retOk) Any fun ret => Counted (if ret = retOk then ahead + 1 else ahead) := by
    apply triple_bind freeObject_counted
    intro _
    exact triple_pure fun _ counted => counted
  have refuses : Triple (Counted ahead) (pure retFail) Any fun ret =>
      Counted (if ret = retOk then ahead + 1 else ahead) :=
    triple_pure fun _ counted => counted
  apply lockedLeniently_counted counted_held fun _ => counted_held
  apply triple_bind (even_readThread ahead enough)
  intro thread
  apply triple_ite (fun _ => refuses)
  intro _
  apply triple_ite
  · intro _
    apply triple_bind (even_ite even_outcome (even_pure retOk) ahead enough)
    intro ret
    apply triple_ite (fun _ => refuses)
    intro _
    exact releases
  · intro _
    exact releases

theorem even_threadSet (p : Ptr) {update : Thread → Thread} : Even (do
    let thread ← readThread p
    writeObject p (.thread (update thread))
    return retOk) := by
  apply even_bind even_readThread
  intro thread
  exact even_bind even_writeObject fun _ => even_pure _

theorem even_threadStart (p : Ptr) : Even (ezcfgThreadStart p) := by
  apply even_bind even_readThread
  intro thread
  apply even_ite
  · apply even_lockedLeniently
    apply even_bind even_readThread
    intro thread
    apply even_ite (even_pure _)
    apply even_succeeds
    intro created
    apply even_ite (even_pure _)
    exact even_bind even_writeObject fun _ => even_pure _
  · exact even_stop

theorem even_threadStop (p : Ptr) : Even (ezcfgThreadStop p) := by
  apply even_lockedLeniently
  apply even_bind even_readThread
  intro thread
  apply even_ite (even_pure _)
  apply even_ite (even_pure _)
  apply even_ite
  · apply even_bind even_outcome
    intro ret
    apply even_ite
    · exact even_bind even_writeObject fun _ => even_pure _
    · exact even_pure _
  · exact even_pure _

/-- A socket that is made uses up a reference. -/
theorem createSocket_counted (laddr raddr : Bool) {ahead : Int} :
    Triple (Counted (ahead + 1)) (createSocket laddr raddr) Any fun p =>
      Counted (if p.isSome then ahead else ahead + 1) :=
  triple_ite (fun _ => calloc_counted) fun _ => triple_stop trivial

theorem even_readAddresses (addresses : Nat) : Even (readAddresses addresses) := by
  induction addresses with
  | zero => exact even_pure _
  | succ addresses inductionHypothesis =>
    apply even_succeeds
    intro data
    apply even_ite (even_pure _)
    apply even_succeeds
    intro value
    apply even_ite even_stop
    apply even_succeeds
    intro nonempty
    apply even_ite
    · exact even_bind inductionHypothesis fun _ => even_pure _
    · apply even_succeeds
      intro copied
      apply even_ite (even_pure _)
      exact even_bind inductionHypothesis fun _ => even_pure _

/-- The rest of `ezcfg_socket_new` has its reference. -/
theorem setUpSocket_counted (list : Ptr) {ahead : Int} (enough : 0 ≤ ahead) :
    Triple (Counted (ahead + 1)) (setUpSocket list) Any fun _ => Counted ahead := by
  have more : 0 ≤ ahead + 1 := by omega
  have fails := newFail_counted enough (some list)
  apply triple_bind (even_askSettings 5 _ more)
  intro asked
  apply triple_ite (fun _ => fails)
  intro _
  apply triple_bind (even_commonGetNvramEntries 5 _ more)
  intro ret
  apply triple_ite (fun _ => fails)
  intro _
  apply triple_bind (even_readSettings 3 _ more)
  intro read
  apply triple_ite (fun _ => fails)
  intro _
  apply triple_bind (even_readAddresses 2 _ more)
  intro addresses
  cases addresses with
  | none => exact fails
  | some addresses =>
    apply triple_bind (even_linkedListDelSettings list _ more)
    intro _
    apply triple_bind (createSocket_counted _ _)
    intro sp
    cases sp with
    | some sp => exact triple_pure fun _ counted => counted
    | none =>
      apply triple_bind (decRef_counted enough)
      intro _
      exact triple_pure fun _ counted => counted

theorem even_socketNew : Even ezcfgSocketNew := by
  intro ahead enough
  apply triple_bind (incRef_counted enough)
  intro ret
  apply triple_ite
  · intro failed world both
    exact absurd both.1 failed
  · intro _
    apply triple_via (fun _ => Counted (ahead + 1))
    · exact fun world both => even_linkedListNew _ (by omega) world both.2
    · intro list
      cases list with
      | none => exact newFail_counted enough none
      | some list => exact setUpSocket_counted list enough

/-- A socket that is accepted uses up a reference. -/
theorem newAcceptedSocket_counted (listener : Ptr) {ahead : Int} (enough : 0 ≤ ahead + 1) :
    Triple (Counted (ahead + 1)) (ezcfgSocketNewAcceptedSocket listener) Any fun p =>
      Counted (if p.isSome then ahead else ahead + 1) := by
  apply triple_bind (even_readSocket _ enough)
  intro _
  exact calloc_counted

theorem even_socketDel (sp : Ptr) : Even (ezcfgSocketDel sp) :=
  even_bind even_readSocket fun _ => even_freeWithReference sp

end Ezcfg.Runtime

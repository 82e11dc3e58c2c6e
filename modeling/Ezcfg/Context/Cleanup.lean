import Ezcfg.Context.Creation
import Ezcfg.Json.Reuse
import Ezcfg.MetaNvram.ReadBack

/-!
# What a failed creation leaves

A context is made when every step succeeds. A step that fails once the counter of references
has been increased is not undone: the jump to `fail_out` deletes the context through
`ezcfg_del`, which asserts that it is the context of the process, and the pointer to that is
only set at the end; and when the mutex is not released again, the counter stays increased.
-/

namespace Ezcfg.Context

open Foundation Foundation.Json Json MetaNvram
open RamNvram (Ram)

/-! ## Filling the stores -/

/-- A lookup hands out a value, or it fails. -/
def Ends {α : Type} (outcome : Option (Int × Option α)) : Prop :=
  (∃ value, outcome = some (retOk, some value)) ∨ outcome = some (retFail, none)

/-- A lookup in a buffer of packed strings has a result. -/
theorem get_ends {buffer : Buffer} (held : HoldsStrings buffer) (name : CString) (granted : Bool) :
    Ends (metaNvramGetEntryValue buffer name granted) := by
  obtain ⟨strings, packs, packable⟩ := held
  obtain ⟨⟨p, equal⟩, found, -⟩ := packs.find_lands packable name
  cases equal with
  | false =>
    right
    exact get_missed granted found
  | true =>
    obtain ⟨-, first, old, second, parts, rfl, nonul⟩ := packs.find_hit packable found
    obtain ⟨free, before, tail, area, skipped⟩ := packs.cut_hit parts nonul
    have read := ByteArea.stringAt_between before _ tail free
    rw [← area, ← skipped] at read
    rw [metaNvramGetEntryValue, found]
    simp only [Option.bind_eq_bind, Option.bind_some, if_true, read]
    cases granted with
    | true =>
      left
      exact ⟨_, rfl⟩
    | false =>
      right
      rfl

/-- A text of brackets has two bytes or more. -/
theorem print_of_container {value : Json.Value} (container : value.Container) :
    2 ≤ value.print.length := by
  cases value with
  | object members =>
    rw [Value.print, List.length_cons, List.length_append, List.length_singleton]
    omega
  | array elements =>
    rw [Value.print, List.length_cons, List.length_append, List.length_singleton]
    omega
  | string => cases container
  | number => cases container
  | literal => cases container

/-- The META buffer of a context is as large as the compact text, where an int can hold its size. -/
theorem metaNvram_allocated {value : Json.Value} (container : value.Container)
    (short : value.print.length < 2 ^ 31) :
    localMetaNvramNew (metaNvramSize (handleOf value)) =
      if value.print.length + headerSize < 2 ^ 31 then some (.fresh value.print.length)
      else none := by
  have least := print_of_container container
  have counted : jsonGetMsgLen (handleOf value) = value.print.length := rfl
  have size : (metaNvramSize (handleOf value)).toInt =
      Int.bmod ((value.print.length : Int) + (32 : Nat)) Int32.size := by
    rw [metaNvramSize, Int32.toInt_ofInt, counted, headerSize]
  rw [localMetaNvramNew, size, headerSize]
  simp only [Int.bmod, Int32.size]
  by_cases fits : value.print.length + 32 < 2 ^ 31
  · have same : (value.print.length : Int) + 32 - 32 = value.print.length := by omega
    have whole : ((value.print.length : Int) + (32 : Nat)) % (4294967296 : Nat) =
        value.print.length + 32 := by omega
    rw [if_pos fits, whole, if_pos (by omega), if_pos (by omega)]
    congr 2
    omega
  · rw [if_neg fits, if_neg (by omega)]

/-- The buffer of an accepted text is filled. -/
theorem fillMeta_fills (steps : Steps) {text : Text} {value : Json.Value}
    (derives : DerivesText tokens value text.bytes) :
    ∃ after, fillMeta steps (handleOf value) (.fresh value.print.length) = some (retOk, after) ∧
      HoldsStrings after := by
  have short := (print_of_derives derives).2
  have container := container_of_text derives
  have least := print_of_container container
  have fresh : HoldsStrings (.fresh value.print.length) := by
    refine ⟨[], fresh_packs (by omega) short, ?_⟩
    intro s member
    cases member
  have representation := representation_eq (rooted_handleOf value)
  rw [fillMeta, representation]
  cases is : isRepresentation value with
  | false => exact ⟨_, rfl, fresh⟩
  | true =>
    rw [is] at representation
    obtain ⟨members, pairs, rfl, present, strings⟩ :=
      strings_of_recognised (rooted_handleOf value) representation
    obtain ⟨settings, leading⟩ := leading_settings derives
    rw [leading_of_strings strings] at leading
    subst leading
    have nonempty : settings ≠ [] := by
      rintro rfl
      exact present (eq_nil_of_stringPairs strings)
    have holds : HoldsSettings (.object members) settings := ⟨nonempty, members, rfl, strings⟩
    obtain ⟨-, listed⟩ := appendAll_sum (fun data => stringSize data.name data.value) settings
    obtain ⟨after, strings', filled, -, -, packed⟩ :=
      settings_fill holds short (List.prefix_refl _) (listed nonempty)
    cases granted : steps.list with
    | false =>
      refine ⟨_, ?_, fresh⟩
      simp only [Option.bind_eq_bind, Option.bind_some, if_true, build_of_settings holds]
      rfl
    | true =>
      refine ⟨after, ?_, strings', packed⟩
      simp only [Option.bind_eq_bind, Option.bind_some, if_true, build_of_settings holds,
        filled]

/-- A new RAM store is handed out, or there is none. -/
theorem localNvramNew_ends (steps : Steps) {buffer : Buffer} (held : HoldsStrings buffer)
    (world : World) (free : world.thisNvram = false) :
    ∃ nvram after, localNvramNew steps buffer world = some (nvram, after) ∧
      after.heap = world.heap ∧ after.refCounter = world.refCounter ∧
      after.thisEzcfg = world.thisEzcfg ∧
      ∀ ram, nvram = some ram → ∃ size, 0 < size ∧ ram = Ram.fresh size := by
  have without (left : localNvramNew steps buffer world = some (none, world)) :
      ∃ nvram after, localNvramNew steps buffer world = some (nvram, after) ∧
        after.heap = world.heap ∧ after.refCounter = world.refCounter ∧
        after.thisEzcfg = world.thisEzcfg ∧
        ∀ ram, nvram = some ram → ∃ size, 0 < size ∧ ram = Ram.fresh size := by
    refine ⟨none, world, left, rfl, rfl, rfl, ?_⟩
    intro ram none
    cases none
  rcases get_ends held nodeListSizeName steps.value with ⟨bytes, found⟩ | missed
  case inr =>
    rw [localNvramNew, bind_of_some missed] at without ⊢
    exact without rfl
  rw [localNvramNew, bind_of_some found] at without ⊢
  dsimp only at without ⊢
  rw [if_neg (not_not_intro rfl), bind_of_some rfl] at without ⊢
  by_cases positive : Http.atoi bytes < 1
  · rw [if_pos positive] at without ⊢
    exact without rfl
  rw [if_neg positive] at without ⊢
  by_cases nodeList : ¬ steps.nodeList
  · rw [if_pos nodeList] at without ⊢
    exact without rfl
  rw [if_neg nodeList] at without ⊢
  by_cases nvram : ¬ steps.nvram
  · rw [if_pos nvram] at without ⊢
    exact without rfl
  rw [if_neg nvram] at without ⊢
  by_cases lock : ¬ steps.nvramLock
  · rw [if_pos lock] at without ⊢
    exact without rfl
  rw [if_neg lock, bind_of_some (ensure_of free)] at without ⊢
  by_cases unlock : ¬ steps.nvramUnlock
  · rw [if_pos unlock] at without ⊢
    exact without rfl
  rw [if_neg unlock]
  refine ⟨_, _, rfl, rfl, rfl, rfl, ?_⟩
  rintro ram made
  exact ⟨(Http.atoi bytes).toNat, by omega, (Option.some.inj made).symm⟩

/-! ## Whether the stores are made -/

/-- The text is accepted, an int can hold the size of its buffer, and memory for the handle, the
parser and the buffer is granted. -/
def Fillable (steps : Steps) (text : Text) : Prop :=
  steps.json = true ∧ steps.parse = true ∧ steps.metaNvram = true ∧
    ∃ value, DerivesText tokens value text.bytes ∧ value.print.length + headerSize < 2 ^ 31

/-- What the memory and the counters are when only blocks have been added. -/
structure Grown (start world : World) : Prop where
  kept : world.heap.Extends start.heap
  counter : world.refCounter = start.refCounter
  same : world.thisEzcfg = start.thisEzcfg

/-- The stores that are made: the META buffer is new and holds strings, and the RAM store, if
there is one, is new as well. -/
structure Stocked (start world : World) (metaNvram : Ptr) (nvram : Option Ram) : Prop where
  fresh : start.heap.read metaNvram = none
  held : ∃ buffer, world.heap.read metaNvram = some (.buffer buffer) ∧ HoldsStrings buffer
  empty : ∀ ram, nvram = some ram → ∃ size, 0 < size ∧ ram = Ram.fresh size

/-- A text that is accepted is no empty one. -/
theorem positive_of_derives {text : Text} {value : Json.Value}
    (derives : DerivesText tokens value text.bytes) : (0 : Int) < text.bytes.length := by
  have sublist := (print_of_derives derives).1.length_le
  have least := print_of_container (container_of_text derives)
  omega

/-- The stores are made where nothing fails. -/
theorem fillStores_fills {steps : Steps} {text : Text} (fillable : Fillable steps text)
    (start : World) (free : start.thisNvram = false) :
    ∃ metaNvram nvram world, fillStores steps text start =
      some (.stores metaNvram nvram, world) ∧ Grown start world ∧
        Stocked start world metaNvram nvram := by
  obtain ⟨json, parse, metaNvram, value, derives, small⟩ := fillable
  have positive := positive_of_derives derives
  have short := (print_of_derives derives).2
  have accepted : jsonParseText jsonNew text.bytes text.bytes.length =
      some (retOk, handleOf value) := by
    have parsed := parse_derived linked_nil none 0 derives positive
    rw [Nat.zero_add] at parsed
    exact parsed
  have allocated := metaNvram_allocated (container_of_text derives) short
  rw [if_pos small] at allocated
  obtain ⟨after, filled, held⟩ := fillMeta_fills steps derives
  let handled := (start.alloc .json).2
  let stored := (handled.alloc (.buffer (.fresh value.print.length))).2
  obtain ⟨heap, written, -, stores, others⟩ := Heap.write_live
    (Heap.read_alloc handled.heap (.buffer (.fresh value.print.length))) (.buffer after)
  obtain ⟨nvram, world, made, same, counter, this, empty⟩ :=
    localNvramNew_ends steps held { stored with heap } free
  have wrote : stored.write handled.heap.length (.buffer after) = some { stored with heap } := by
    rw [World.write]
    exact bind_of_some written
  refine ⟨handled.heap.length, nvram, world, ?_, ⟨?_, counter, this⟩, ⟨?_, ?_, empty⟩⟩
  · rw [fillStores, if_neg (by rw [json]; decide)]
    dsimp only
    rw [bind_of_some accepted]
    dsimp only
    rw [if_neg (by rw [parse]; decide), bind_of_some allocated, if_neg (by rw [metaNvram]; decide)]
    rw [bind_of_some filled]
    show (stored.write handled.heap.length (.buffer after) >>= _) = _
    rw [bind_of_some wrote]
    show (localNvramNew steps after { stored with heap } >>= _) = _
    rw [bind_of_some made]
    rfl
  · intro p block live
    have handling := Heap.alloc_extends start.heap Block.json p block live
    have other : p ≠ handled.heap.length := Nat.ne_of_lt (Heap.live_bound handling)
    have kept := Heap.alloc_extends handled.heap (.buffer (.fresh value.print.length)) p block
      handling
    rw [same, ← kept]
    exact others p other
  · apply Option.eq_none_iff_forall_not_mem.mpr
    intro block live
    have handling := Heap.alloc_extends start.heap Block.json handled.heap.length block live
    exact Nat.lt_irrefl _ (Heap.live_bound handling)
  · exact ⟨after, by rw [same]; exact stores, held⟩

/-- Where something fails the text is not worked on to the end: an assertion fails, or the work
jumps to `fail_out`. -/
theorem fillStores_fails {steps : Steps} {text : Text} (unfillable : ¬ Fillable steps text)
    {start world : World} {filling : Filling}
    (done : fillStores steps text start = some (filling, world)) :
    world.thisEzcfg = start.thisEzcfg ∧ ∃ json metaNvram, filling = .failOut json metaNvram := by
  have jumped {json metaNvram : Option Ptr} {world' : World}
      (left : some (Filling.failOut json metaNvram, world') = some (filling, world))
      (same : world'.thisEzcfg = start.thisEzcfg) :
      world.thisEzcfg = start.thisEzcfg ∧ ∃ json metaNvram, filling = .failOut json metaNvram := by
    obtain ⟨rfl, rfl⟩ := Prod.mk.inj (Option.some.inj left)
    exact ⟨same, json, metaNvram, rfl⟩
  rw [fillStores] at done
  by_cases json : steps.json = true
  · rw [if_neg (not_not_intro json)] at done
    dsimp only at done
    by_cases positive : (0 : Int) < text.bytes.length
    · rcases parse_cases text.bytes positive with failed | ⟨value, derives⟩
      · rw [bind_of_some failed] at done
        dsimp only at done
        rw [if_pos (.inl (by decide))] at done
        exact jumped done rfl
      · have accepted : jsonParseText jsonNew text.bytes text.bytes.length =
            some (retOk, handleOf value) := by
          have parsed := parse_derived linked_nil none 0 derives positive
          rw [Nat.zero_add] at parsed
          exact parsed
        have short := (print_of_derives derives).2
        have allocated := metaNvram_allocated (container_of_text derives) short
        rw [bind_of_some accepted] at done
        dsimp only at done
        by_cases parse : steps.parse = true
        · rw [if_neg (by rw [parse]; decide)] at done
          by_cases small : value.print.length + headerSize < 2 ^ 31
          · rw [if_pos small] at allocated
            rw [bind_of_some allocated] at done
            by_cases metaNvram : steps.metaNvram = true
            · exact absurd ⟨json, parse, metaNvram, value, derives, small⟩ unfillable
            · rw [if_pos metaNvram] at done
              exact jumped done rfl
          · rw [if_neg small] at allocated
            rw [allocated] at done
            cases done
        · rw [if_pos (.inr parse)] at done
          exact jumped done rfl
    · rw [jsonParseText, if_pos (Int.not_lt.mp positive)] at done
      cases done
  · rw [if_pos json] at done
    exact jumped done rfl

/-- Releasing a block keeps the pointer to the context. -/
theorem free_same {world after : World} {p : Option Ptr} (freed : world.free p = some after) :
    after.thisEzcfg = world.thisEzcfg := by
  cases p with
  | none => rw [← Option.some.inj freed]
  | some p =>
    obtain ⟨heap, -, rest⟩ := Option.bind_eq_some_iff.mp freed
    rw [← Option.some.inj rest]

/-- The cleanup fails an assertion of `ezcfg_del`. -/
theorem failOut_asserts (steps : Steps) (ezcfg : Ptr) (json metaNvram : Option Ptr)
    {world : World} (unset : world.thisEzcfg = none) :
    failOut steps ezcfg json metaNvram world = none := by
  apply Option.eq_none_iff_forall_not_mem.mpr
  intro outcome done
  obtain ⟨first, freed, done⟩ := Option.bind_eq_some_iff.mp done
  obtain ⟨second, freedMeta, done⟩ := Option.bind_eq_some_iff.mp done
  obtain ⟨third, written, done⟩ := Option.bind_eq_some_iff.mp done
  obtain ⟨result, deleted, -⟩ := Option.bind_eq_some_iff.mp done
  obtain ⟨heap, -, rest⟩ := Option.bind_eq_some_iff.mp written
  have same : third.thisEzcfg = none := by
    rw [← Option.some.inj rest]
    exact (free_same freedMeta).trans ((free_same freed).trans unset)
  obtain ⟨_, passed, -⟩ := Option.bind_eq_some_iff.mp deleted
  have failed : ensure (third.thisEzcfg = some ezcfg) = none :=
    if_neg (by rw [same]; intro other; cases other)
  rw [failed] at passed
  cases passed

/-! ## Creating -/

/-- No context is there. -/
structure Idle (world : World) : Prop where
  counter : world.refCounter = 0
  context : world.thisEzcfg = none
  nvram : world.thisNvram = false

/-- No assertion fails; the context that is returned is that of the process and is counted once;
and where none is returned, no context is there and every block that was made is released. -/
def CleansUp (steps : Steps) (text : Option Text) (start : World) : Prop :=
  ∃ result after, ezcfgNew steps text start = some (result, after) ∧
    (∀ ezcfg, result = some ezcfg → after.thisEzcfg = some ezcfg ∧ after.refCounter = 1) ∧
    (result = none → Idle after ∧ ∀ p, after.heap.read p = start.heap.read p)

/-- Nothing fails once the counter has been increased, or it is not increased. -/
def NothingFails (steps : Steps) (text : Option Text) : Prop :=
  steps.context = false ∨ steps.lock = false ∨
    (steps.unlock = true ∧ ∀ given, text = some given → Fillable steps given)

/-- A context that is released at once leaves the memory as it was. -/
theorem alloc_free (start : World) (block : Block) :
    ∃ after, (start.alloc block).2.free (some (start.alloc block).1) = some after ∧
      (Idle start → Idle after) ∧ ∀ p, after.heap.read p = start.heap.read p := by
  obtain ⟨heap, freed, same⟩ := Heap.alloc_free start.heap block
  refine ⟨{ start with heap }, ?_, ?_, same⟩
  · rw [World.free]
    exact bind_of_some freed
  · rintro ⟨counter, context, nvram⟩
    exact ⟨counter, context, nvram⟩

/-- Releasing a block does not touch the counter. -/
theorem free_counted {world after : World} {p : Option Ptr} (freed : world.free p = some after)
    (count : Int) :
    World.free { world with refCounter := count } p = some { after with refCounter := count } := by
  cases p with
  | none =>
    obtain rfl := Option.some.inj freed
    rfl
  | some p =>
    obtain ⟨heap, gone, rest⟩ := Option.bind_eq_some_iff.mp freed
    obtain rfl := Option.some.inj rest
    exact bind_of_some gone

/-- The memory once the context is allocated and counted. -/
def World.counted (start : World) : World :=
  { (start.alloc (.context none none)).2 with
    refCounter := (start.alloc (.context none none)).2.refCounter + 1 }

/-- Without memory for the context nothing has changed. -/
theorem new_refused {steps : Steps} (refused : ¬ steps.context = true) (text : Option Text)
    {start : World} (idle : Idle start) : ezcfgNew steps text start = some (none, start) := by
  rw [ezcfgNew, bind_of_some (ensure_of idle.context), if_pos refused]
  rfl

/-- Where the mutex is not locked, the context is released. -/
theorem new_not_locked {steps : Steps} (context : steps.context = true)
    (unlocked : ¬ steps.lock = true) (text : Option Text) {start : World} (idle : Idle start) :
    ezcfgNew steps text start =
      ((start.alloc (.context none none)).2.free (some (start.alloc (.context none none)).1)).bind
        fun left => some (none, left) := by
  rw [ezcfgNew, bind_of_some (ensure_of idle.context), if_neg (not_not_intro context)]
  dsimp only
  rw [if_pos (.inl unlocked)]
  rfl

/-- Where the mutex is not released, the context is, and it stays counted. -/
theorem new_not_unlocked {steps : Steps} (context : steps.context = true)
    (lock : steps.lock = true) (held : ¬ steps.unlock = true) (text : Option Text)
    {start : World} (idle : Idle start) :
    ezcfgNew steps text start =
      (start.counted.free (some (start.alloc (.context none none)).1)).bind
        fun left => some (none, left) := by
  have none : (start.alloc (.context none none)).2.refCounter = 0 := idle.counter
  rw [ezcfgNew, bind_of_some (ensure_of idle.context), if_neg (not_not_intro context)]
  dsimp only
  rw [if_neg (not_or_intro (not_not_intro lock) (not_not_intro none)), if_pos held]
  rfl

/-- Once the context is counted, the text decides. -/
theorem new_counts {steps : Steps} (context : steps.context = true) (lock : steps.lock = true)
    (unlock : steps.unlock = true) (text : Option Text) {start : World} (idle : Idle start) :
    ezcfgNew steps text start = (match text with
      | none => some (some start.heap.length,
          { start.counted with thisEzcfg := some start.heap.length })
      | some text => do
        let (filling, world) ← fillStores steps text start.counted
        match filling with
        | .failOut json metaNvram => failOut steps start.heap.length json metaNvram world
        | .stores metaNvram nvram =>
          let world ← world.write start.heap.length (.context (some metaNvram) nvram)
          return (some start.heap.length, { world with thisEzcfg := some start.heap.length })) := by
  have none : (start.alloc (.context none none)).2.refCounter = 0 := idle.counter
  rw [ezcfgNew, bind_of_some (ensure_of idle.context), if_neg (not_not_intro context)]
  dsimp only
  rw [if_neg (not_or_intro (not_not_intro lock) (not_not_intro none)),
    if_neg (not_not_intro unlock)]
  rfl

/-- A context that is counted and returned leaves things in order. -/
theorem cleansUp_of_returned {steps : Steps} {text : Option Text} {start after : World}
    {ezcfg : Ptr} (made : ezcfgNew steps text start = some (some ezcfg, after))
    (this : after.thisEzcfg = some ezcfg) (one : after.refCounter = 1) :
    CleansUp steps text start := by
  refine ⟨some ezcfg, after, made, ?_, ?_⟩
  · intro returned same
    constructor
    · rw [this, same]
    · exact one
  · intro none
    cases none

/-- Where the stores are made, the context is and has them. -/
theorem new_fills {steps : Steps} (context : steps.context = true)
    (lock : steps.lock = true) (unlock : steps.unlock = true) {text : Text}
    (fillable : Fillable steps text) {start : World} (idle : Idle start) :
    ∃ metaNvram nvram world, ezcfgNew steps (some text) start =
        some (some start.heap.length, { world with thisEzcfg := some start.heap.length }) ∧
      world.refCounter = 1 ∧
      world.heap.read start.heap.length = some (.context (some metaNvram) nvram) ∧
      Stocked start.counted world metaNvram nvram := by
  obtain ⟨metaNvram, nvram, world, filled, grown, ⟨fresh, ⟨buffer, stores, held⟩, empty⟩⟩ :=
    fillStores_fills fillable start.counted idle.nvram
  have live : start.counted.heap.read start.heap.length = some (.context none none) :=
    Heap.read_alloc start.heap (.context none none)
  obtain ⟨heap, written, -, read, others⟩ := Heap.write_live (grown.kept _ _ live)
    (.context (some metaNvram) nvram)
  have wrote : world.write start.heap.length (.context (some metaNvram) nvram) =
      some { world with heap } := by
    rw [World.write]
    exact bind_of_some written
  have other : metaNvram ≠ start.heap.length := by
    rintro rfl
    rw [fresh] at live
    cases live
  refine ⟨metaNvram, nvram, { world with heap }, ?_, ?_, read, fresh, ⟨buffer, ?_, held⟩, empty⟩
  · rw [new_counts context lock unlock (some text) idle]
    dsimp only
    rw [bind_of_some filled]
    exact bind_of_some wrote
  · have counted : start.counted.refCounter = start.refCounter + 1 := rfl
    have kept : world.refCounter = start.counted.refCounter := grown.counter
    rw [kept, counted, idle.counter]
    rfl
  · exact (others metaNvram other).trans stores

/-- Where the stores are made, a creation leaves things in order. -/
theorem cleansUp_of_fillable {steps : Steps} (context : steps.context = true)
    (lock : steps.lock = true) (unlock : steps.unlock = true) {text : Text}
    (fillable : Fillable steps text) {start : World} (idle : Idle start) :
    CleansUp steps (some text) start := by
  obtain ⟨metaNvram, nvram, world, made, one, -⟩ := new_fills context lock unlock fillable idle
  exact cleansUp_of_returned made rfl one

/-- Where they are not, an assertion fails. -/
theorem new_asserts {steps : Steps} (context : steps.context = true)
    (lock : steps.lock = true) (unlock : steps.unlock = true) {text : Text}
    (unfillable : ¬ Fillable steps text) {start : World} (idle : Idle start) :
    ezcfgNew steps (some text) start = none := by
  apply Option.eq_none_iff_forall_not_mem.mpr
  intro outcome done
  rw [new_counts context lock unlock (some text) idle] at done
  obtain ⟨⟨filling, world⟩, filled, rest⟩ := Option.bind_eq_some_iff.mp done
  obtain ⟨unset, json, metaNvram, rfl⟩ := fillStores_fails unfillable filled
  have left : failOut steps start.heap.length json metaNvram world = some outcome := rest
  rw [failOut_asserts steps start.heap.length json metaNvram (unset.trans idle.context)] at left
  cases left

/-- A creation leaves things in order just when nothing fails once the counter is increased. -/
theorem cleansUp_iff (steps : Steps) (text : Option Text) {start : World} (idle : Idle start) :
    CleansUp steps text start ↔ NothingFails steps text := by
  obtain ⟨left, freed, idling, memory⟩ := alloc_free start (.context none none)
  by_cases context : steps.context = true
  case neg =>
    apply iff_of_true
    · refine ⟨none, start, new_refused context text idle, ?_, ?_⟩
      · intro ezcfg returned
        cases returned
      · intro _
        exact ⟨idle, fun _ => rfl⟩
    · exact Or.inl (Bool.eq_false_iff.mpr context)
  by_cases lock : steps.lock = true
  case neg =>
    have made := new_not_locked context lock text idle
    rw [freed] at made
    apply iff_of_true
    · refine ⟨none, left, made, ?_, ?_⟩
      · intro ezcfg returned
        cases returned
      · intro _
        exact ⟨idling idle, memory⟩
    · exact Or.inr (Or.inl (Bool.eq_false_iff.mpr lock))
  have granted : NothingFails steps text →
      steps.unlock = true ∧ ∀ given, text = some given → Fillable steps given := by
    rintro (refused | refused | rest)
    · exact absurd context (Bool.eq_false_iff.mp refused)
    · exact absurd lock (Bool.eq_false_iff.mp refused)
    · exact rest
  by_cases unlock : steps.unlock = true
  case neg =>
    have made := new_not_unlocked context lock unlock text idle
    have released : start.counted.free (some (start.alloc (.context none none)).1) = _ :=
      free_counted freed _
    rw [released] at made
    apply iff_of_false
    · rintro ⟨result, after, done, -, cleaned⟩
      obtain ⟨rfl, rfl⟩ := Prod.mk.inj (Option.some.inj (made.symm.trans done))
      obtain ⟨idling, -⟩ := cleaned rfl
      have one : start.refCounter + 1 = 0 := idling.counter
      rw [idle.counter] at one
      cases one
    · intro nothing
      exact unlock (granted nothing).1
  cases text with
  | none =>
    apply iff_of_true
    · apply cleansUp_of_returned (new_counts context lock unlock none idle) rfl
      have counted : start.counted.refCounter = start.refCounter + 1 := rfl
      rw [counted, idle.counter]
      rfl
    · refine Or.inr (Or.inr ⟨unlock, ?_⟩)
      intro given is
      cases is
  | some text =>
    by_cases fillable : Fillable steps text
    · apply iff_of_true
      · exact cleansUp_of_fillable context lock unlock fillable idle
      · refine Or.inr (Or.inr ⟨unlock, ?_⟩)
        intro given is
        rw [← Option.some.inj is]
        exact fillable
    · apply iff_of_false
      · rintro ⟨result, after, done, -⟩
        rw [new_asserts context lock unlock fillable idle] at done
        cases done
      · intro nothing
        exact fillable ((granted nothing).2 text rfl)

/-- Every step succeeds. -/
def allSucceed : Steps :=
  ⟨true, true, true, true, true, true, true, true, true, true, true, true⟩

/-- A context that is made without a text. -/
theorem cleansUp_null : CleansUp allSucceed none World.fresh := by
  apply (cleansUp_iff allSucceed none ⟨rfl, rfl, rfl⟩).mpr
  refine Or.inr (Or.inr ⟨rfl, ?_⟩)
  intro given is
  cases is

/-- A text that is no object or array fails the assertion of `ezcfg_del`. -/
theorem malformed_not_cleansUp : ¬ CleansUp allSucceed
    (some ⟨Http.constant "x", by decide, by decide⟩) World.fresh := by
  rintro ⟨result, after, done, -⟩
  have stopped : ezcfgNew allSucceed (some ⟨Http.constant "x", by decide, by decide⟩)
      World.fresh = none := rfl
  rw [stopped] at done
  cases done

end Ezcfg.Context

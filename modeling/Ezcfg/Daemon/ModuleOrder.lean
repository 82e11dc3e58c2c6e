import Ezcfg.Daemon.KernelModules

/-!
# The order of modules

Installing a module loads what it reaches and was not loaded, each module once and behind what it
needs. Removing one leaves of what it reaches only what a loaded module still needs. Both come to
an end when the table has no cycle: the calls go down along a rank.
-/

namespace Ezcfg.Daemon

open Foundation Foundation.TextCuts Foundation.Dependencies
open Http (ascii)

/-- The module that a command loads. -/
def Command.inserted : Command → Option Name
  | .insmod name _ => some name
  | .rmmod _ _ => none

/-- Modules have been loaded in an order, and nothing else was done. -/
structure Installed (table : List ModDep) (kernel after : Kernel) (order : List Name) : Prop where
  loaded : after.loaded = order.reverse ++ kernel.loaded
  commands : ∃ issued, after.commands = kernel.commands ++ issued ∧
    issued.map Command.inserted = order.map some
  ordered : Ordered (listedFor table) kernel.loaded order

/-- /proc/modules can be read while only certain modules are loaded. -/
def Readable (target : Target) (names : Name → Prop) : Prop :=
  ∀ loaded : List Name, (∀ x ∈ loaded, names x) →
    ∃ file, target.procModules loaded = some file ∧ Shows file loaded

/-- The modules that are loaded, or reached from one. -/
def Concerned (table : List ModDep) (kernel : Kernel) (name x : Name) : Prop :=
  x ∈ kernel.loaded ∨ Reaches (listedFor table) name x

/-! ## Installing -/

/-- Nothing is done. -/
theorem installed_refl (table : List ModDep) (kernel : Kernel) :
    Installed table kernel kernel [] where
  loaded := rfl
  commands := ⟨[], (List.append_nil _).symm, rfl⟩
  ordered := ordered_nil kernel.loaded

/-- One loading behind another. -/
theorem Installed.append {table : List ModDep} {kernel between after : Kernel}
    {first second : List Name} (earlier : Installed table kernel between first)
    (later : Installed table between after second) :
    Installed table kernel after (first ++ second) := by
  obtain ⟨issued, same, names⟩ := earlier.commands
  obtain ⟨issued', same', names'⟩ := later.commands
  have ordered := later.ordered
  rw [earlier.loaded] at ordered
  constructor
  · rw [later.loaded, earlier.loaded, List.reverse_append, List.append_assoc]
  · refine ⟨issued ++ issued', ?_, ?_⟩
    · rw [same', same, List.append_assoc]
    · rw [List.map_append, List.map_append, names, names']
  · exact earlier.ordered.append ordered

section Install

variable {target : Target} {names : Name → Prop}

/-- A kernel whose modules have what they need and are known. -/
structure Proper (target : Target) (names : Name → Prop) (kernel : Kernel) : Prop where
  closed : Closed (listedFor target.table) kernel.loaded
  known : ∀ x ∈ kernel.loaded, names x

/-- The modules of an order are those that are reached from some names and were not loaded. -/
def Covers (target : Target) (kernel : Kernel) (starts order : List Name) : Prop :=
  ∀ y, y ∈ order ↔
    (∃ x ∈ starts, Reaches (listedFor target.table) x y) ∧ y ∉ kernel.loaded

/-- From one name, the modules that it reaches. -/
theorem covers_single {kernel : Kernel} {x : Name} {order : List Name} :
    Covers target kernel [x] order ↔
      ∀ y, y ∈ order ↔ Reaches (listedFor target.table) x y ∧ y ∉ kernel.loaded := by
  simp only [Covers, List.mem_singleton, exists_eq_left]

/-- A kernel stays proper. -/
theorem Installed.proper {kernel after : Kernel} {starts order : List Name}
    (done : Installed target.table kernel after order) (covers : Covers target kernel starts order)
    (proper : Proper target names kernel)
    (reached : ∀ x ∈ starts, ∀ y, Reaches (listedFor target.table) x y → names y) :
    Proper target names after := by
  constructor
  · rw [done.loaded]
    exact done.ordered.closed proper.closed
  · intro y member
    rw [done.loaded, List.mem_append, List.mem_reverse] at member
    obtain loaded | before := member
    · obtain ⟨⟨x, inStarts, reaches⟩, -⟩ := (covers y).mp loaded
      exact reached x inStarts y reaches
    · exact proper.known y before

/-- Calls for names one behind the other. -/
theorem calls_done {call : Name → Kernel → Option Kernel} {starts : List Name}
    (calls : ∀ x ∈ starts, ∀ kernel, Proper target names kernel → ∃ after order,
      call x kernel = some after ∧ Installed target.table kernel after order ∧
      Covers target kernel [x] order)
    (reached : ∀ x ∈ starts, ∀ y, Reaches (listedFor target.table) x y → names y)
    (kernel : Kernel) (proper : Proper target names kernel) :
    ∃ after order, starts.foldlM (fun kernel part => call part kernel) kernel = some after ∧
      Installed target.table kernel after order ∧ Covers target kernel starts order := by
  induction starts generalizing kernel with
  | nil =>
    refine ⟨kernel, [], rfl, installed_refl _ kernel, fun y => ?_⟩
    exact iff_of_false List.not_mem_nil fun both => List.not_mem_nil both.1.choose_spec.1
  | cons x rest inductionHypothesis =>
    obtain ⟨between, first, called, done, covers⟩ := calls x List.mem_cons_self kernel proper
    have reachedFirst : ∀ z ∈ [x], ∀ y, Reaches (listedFor target.table) z y → names y := by
      intro z member
      rw [List.mem_singleton.mp member]
      exact reached x List.mem_cons_self
    obtain ⟨after, second, calledToo, doneToo, coversToo⟩ := inductionHypothesis
      (fun z member => calls z (List.mem_cons_of_mem x member))
      (fun z member => reached z (List.mem_cons_of_mem x member)) between
      (done.proper covers proper reachedFirst)
    refine ⟨after, first ++ second, ?_, done.append doneToo, fun y => ?_⟩
    · rw [List.foldlM_cons, called]
      exact calledToo
    · have here := covers_single.mp covers y
      have later := coversToo y
      rw [done.loaded, List.mem_append, List.mem_reverse, not_or] at later
      rw [List.mem_append, later]
      constructor
      · rintro (loads | ⟨⟨z, member, reaches⟩, -, fresh⟩)
        · obtain ⟨reaches, fresh⟩ := here.mp loads
          exact ⟨⟨x, List.mem_cons_self, reaches⟩, fresh⟩
        · exact ⟨⟨z, List.mem_cons_of_mem x member, reaches⟩, fresh⟩
      · rintro ⟨⟨z, member, reaches⟩, fresh⟩
        by_cases loads : y ∈ first
        · exact .inl loads
        · right
          obtain rfl | behind := List.mem_cons.mp member
          · exact absurd (here.mpr ⟨reaches, fresh⟩) loads
          · exact ⟨⟨z, behind, reaches⟩, loads, fresh⟩

/-- A module is loaded with all that it reaches, and no module is loaded twice. -/
theorem installModule_done {rank : Name → Nat}
    (ranked : ∀ x, ∀ d ∈ listedFor target.table x, rank d < rank x)
    (acyclic : Acyclic (listedFor target.table)) (readable : Readable target names) (depth : Nat) :
    ∀ (x : Name) (args : Option (List UInt8)) (kernel : Kernel), rank x < depth →
      Proper target names kernel → (∀ y, Reaches (listedFor target.table) x y → names y) →
      ∃ after order, installModule target depth x args kernel = some (exitSuccess, after) ∧
        Installed target.table kernel after order ∧ Covers target kernel [x] order := by
  induction depth with
  | zero =>
    intro x args kernel bounded
    exact absurd bounded (Nat.not_lt_zero _)
  | succ depth inductionHypothesis =>
    intro x args kernel bounded proper reached
    obtain ⟨file, here, shows⟩ := readable kernel.loaded proper.known
    have checked := installed_eq x here shows
    by_cases loaded : x ∈ kernel.loaded
    · rw [decide_eq_true loaded] at checked
      refine ⟨kernel, [], ?_, installed_refl _ kernel, covers_single.mpr fun y => ?_⟩
      · rw [installModule, bind_of_some checked]
        rfl
      · exact iff_of_false List.not_mem_nil fun both =>
          both.2 (proper.closed.reaches both.1 loaded)
    · rw [decide_eq_false loaded] at checked
      have needs : ∀ d ∈ listedFor target.table x, Reaches (listedFor target.table) x d :=
        fun d needed => Relation.ReflTransGen.single needed
      have reachedToo : ∀ d ∈ listedFor target.table x, ∀ y,
          Reaches (listedFor target.table) d y → names y :=
        fun d needed y reaches => reached y ((needs d needed).trans reaches)
      have calls : ∀ d ∈ listedFor target.table x, ∀ kernel, Proper target names kernel →
          ∃ after order, installPart target depth d kernel = some after ∧
            Installed target.table kernel after order ∧ Covers target kernel [d] order := by
        intro d needed kernel proper
        obtain ⟨after, order, installs, done, covers⟩ := inductionHypothesis d none kernel
          (Nat.lt_of_lt_of_le (ranked x d needed) (Nat.le_of_lt_succ bounded)) proper
          (reachedToo d needed)
        refine ⟨after, order, ?_, done, covers⟩
        rw [installPart, bind_of_some installs]
        rfl
      obtain ⟨between, order, called, done, covers⟩ := calls_done calls reachedToo kernel proper
      -- what x needs does not reach x, so that x is still to be loaded
      have absent : x ∉ between.loaded := by
        rw [done.loaded, List.mem_append, List.mem_reverse, not_or]
        refine ⟨fun member => ?_, loaded⟩
        obtain ⟨⟨d, needed, back⟩, -⟩ := (covers x).mp member
        exact acyclic x (Relation.TransGen.head' needed back)
      have supplied : ∀ d ∈ listedFor target.table x, d ∈ between.loaded := by
        intro d needed
        rw [done.loaded, List.mem_append, List.mem_reverse, covers d]
        by_cases before : d ∈ kernel.loaded
        · exact .inr before
        · exact .inl ⟨⟨d, needed, Relation.ReflTransGen.refl⟩, before⟩
      refine ⟨_, order ++ [x], installModule_listed checked called, done.append ?_,
        covers_single.mpr fun y => ?_⟩
      · constructor
        · exact if_pos ⟨absent, supplied⟩
        · exact ⟨_, rfl, rfl⟩
        · exact ordered_single absent supplied
      · rw [List.mem_append, List.mem_singleton, covers y]
        constructor
        · rintro (⟨⟨d, needed, reaches⟩, before⟩ | rfl)
          · exact ⟨(needs d needed).trans reaches, before⟩
          · exact ⟨Relation.ReflTransGen.refl, loaded⟩
        · rintro ⟨reaches, before⟩
          obtain rfl | ⟨d, needed, behind⟩ := Relation.ReflTransGen.cases_head reaches
          · exact .inr rfl
          · exact .inl ⟨⟨d, needed, behind⟩, before⟩

end Install

/-! ## Removing -/

section Remove

variable {target : Target}

/-- Removing leaves no more modules; those that are reached from some names are settled, and what
was settled stays so. -/
structure Removed (target : Target) (kernel after : Kernel) (starts : List Name) : Prop where
  fewer : after.loaded ⊆ kernel.loaded
  settles : ∀ x ∈ starts, ∀ y, Reaches (listedFor target.table) x y →
    Settled (listedFor target.table) after.loaded y
  keeps : ∀ y, Settled (listedFor target.table) kernel.loaded y →
    Settled (listedFor target.table) after.loaded y

/-- Calls for names one behind the other. -/
theorem calls_removed {call : Name → Kernel → Option Kernel} {starts : List Name}
    (calls : ∀ x ∈ starts, ∀ kernel, ∃ after, call x kernel = some after ∧
      Removed target kernel after [x]) (kernel : Kernel) :
    ∃ after, starts.foldlM (fun kernel part => call part kernel) kernel = some after ∧
      Removed target kernel after starts := by
  induction starts generalizing kernel with
  | nil =>
    exact ⟨kernel, rfl, List.Subset.refl _, List.forall_mem_nil _, fun y settled => settled⟩
  | cons x rest inductionHypothesis =>
    obtain ⟨between, called, removed⟩ := calls x List.mem_cons_self kernel
    obtain ⟨after, calledToo, removedToo⟩ := inductionHypothesis
      (fun z member => calls z (List.mem_cons_of_mem x member)) between
    refine ⟨after, ?_, ?_, ?_, ?_⟩
    · rw [List.foldlM_cons, called]
      exact calledToo
    · exact List.Subset.trans removedToo.fewer removed.fewer
    · rw [List.forall_mem_cons]
      refine ⟨fun y reaches => ?_, removedToo.settles⟩
      exact removedToo.keeps y (removed.settles x List.mem_cons_self y reaches)
    · intro y settled
      exact removedToo.keeps y (removed.keeps y settled)

/-- A module is removed with all that it reaches, as far as no loaded module needs it. -/
theorem removeModule_done {rank : Name → Nat}
    (ranked : ∀ x, ∀ d ∈ listedFor target.table x, rank d < rank x) (depth : Nat) :
    ∀ (x : Name) (kernel : Kernel), rank x < depth →
      ∃ after, removeModule target depth x kernel = some (exitSuccess, after) ∧
        Removed target kernel after [x] := by
  induction depth with
  | zero =>
    intro x kernel bounded
    exact absurd bounded (Nat.not_lt_zero _)
  | succ depth inductionHypothesis =>
    intro x kernel bounded
    have calls : ∀ d ∈ removedFor target.table x, ∀ kernel, ∃ after,
        removePart target depth d kernel = some after ∧ Removed target kernel after [d] := by
      intro d needed kernel
      obtain ⟨after, removes, removed⟩ := inductionHypothesis d kernel (Nat.lt_of_lt_of_le
        (ranked x d (mem_removedFor.mp needed)) (Nat.le_of_lt_succ bounded))
      refine ⟨after, ?_, removed⟩
      rw [removePart, bind_of_some removes]
      rfl
    obtain ⟨after, called, removed⟩ := calls_removed calls
      (kernel.system target.table (.rmmod x (rmmodLine x)))
    have itself := removed.keeps x (settled_unload_self kernel.loaded x)
    refine ⟨after, removeModule_listed called, ?_, ?_, ?_⟩
    · exact List.Subset.trans removed.fewer (unload_subset kernel.loaded x)
    · rw [List.forall_mem_singleton]
      intro y reaches
      obtain rfl | ⟨d, needed, behind⟩ := Relation.ReflTransGen.cases_head reaches
      · exact itself
      · exact removed.settles d (mem_removedFor.mpr needed) y behind
    · intro y settled
      -- what the module needed may have lost its last user; its own call comes afterwards
      by_cases needed : y ∈ listedFor target.table x
      · exact removed.settles y (mem_removedFor.mpr needed) y Relation.ReflTransGen.refl
      · exact removed.keeps y (settled_unload settled needed)

end Remove

/-! ## The table of the source -/

/-- How deep the lists for a module go, with a bound. -/
def depthOf (table : List ModDep) : Nat → Name → Nat
  | 0, _ => 0
  | bound + 1, name => ((listedFor table name).map fun d => depthOf table bound d + 1).foldl max 0

/-- A rank that goes down leaves no cycle. -/
theorem acyclic_of_rank {deps : Name → List Name} (rank : Name → Nat)
    (ranked : ∀ x, ∀ d ∈ deps x, rank d < rank x) : Acyclic deps := by
  have lower : ∀ x y, Relation.TransGen (Needs deps) x y → rank y < rank x := by
    intro x y path
    induction path with
    | single needed => exact ranked x _ needed
    | tail _ needed inductionHypothesis => exact Nat.lt_trans (ranked _ _ needed) inductionHypothesis
  intro x cycle
  exact Nat.lt_irrefl _ (lower x x cycle)

/-- `mod_depends` has no cycle. -/
theorem modDepends_acyclic : Acyclic (listedFor modDepends) := by
  have checked : ∀ mdp ∈ modDepends, ∀ d ∈ mdp.list.splitOn comma,
      depthOf modDepends 6 d < depthOf modDepends 6 mdp.name := by
    decide +kernel
  apply acyclic_of_rank (depthOf modDepends 6)
  intro x d needed
  obtain ⟨mdp, entry, part⟩ := List.mem_flatMap.mp needed
  obtain ⟨inTable, same⟩ := List.mem_filter.mp entry
  rw [← of_decide_eq_true same]
  exact checked mdp inTable d part

/-! ## Both functions -/

/-- Installing comes to an end, and loads in order what the module reaches and was not loaded. -/
def InstallsInOrder (target : Target) (kernel : Kernel) (name : Name)
    (args : Option (List UInt8)) : Prop :=
  ∃ depth, ∀ more, depth ≤ more → ∃ after order,
    utilsInstallKernelModule target more (some name) args kernel = some (exitSuccess, after) ∧
    Installed target.table kernel after order ∧
    ∀ x, x ∈ order ↔ Reaches (listedFor target.table) name x ∧ x ∉ kernel.loaded

/-- Removing comes to an end, loads nothing, and leaves of what the module reaches only what a
loaded module needs. -/
def RemovesInOrder (target : Target) (kernel : Kernel) (name : Name) : Prop :=
  ∃ depth, ∀ more, depth ≤ more → ∃ after,
    utilsRemoveKernelModule target more (some name) kernel = some (exitSuccess, after) ∧
    after.loaded ⊆ kernel.loaded ∧
    ∀ x, Reaches (listedFor target.table) name x → x ∈ after.loaded →
      ∃ user ∈ after.loaded, x ∈ listedFor target.table user

/-- What a line shows behind the name of a module. -/
def shownDetails : List UInt8 := ascii "16384 0 - Live 0x00000000"

/-- The line of a module. -/
def shownLine (name : Name) : List UInt8 := name ++ space :: (shownDetails ++ [lineFeed])

/-- A target with the table of the source that shows a line for each loaded module. -/
def sampleTarget : Target where
  table := modDepends
  kver := ascii "2.6.35"
  procModules loaded := some (loaded.flatMap shownLine)

/-- The modules that "vfat" reaches. -/
def vfatModules : List Name :=
  [ascii "vfat", ascii "fat", ascii "nls_cp437", ascii "nls_iso8859-1", ascii "nls_base"]

/-- They have what they need. -/
theorem vfatModules_closed : Closed (listedFor modDepends) vfatModules := by
  rw [Closed]
  decide +kernel

/-- Each of them has a line. -/
theorem vfatModules_shown : ∀ name ∈ vfatModules,
    ShowsModule (shownLine name) name shownDetails ∧ lineFeed ∉ name ++ space :: shownDetails := by
  have checked : ∀ name ∈ vfatModules, name ≠ [] ∧ name.head? ≠ some 0x23 ∧ (0 : UInt8) ∉ name ∧
      space ∉ name ∧ lineFeed ∉ name ∧ (shownLine name).length < lineBufSize := by
    decide +kernel
  have detailed : (0 : UInt8) ∉ shownDetails ∧ lineFeed ∉ shownDetails ∧
      shownDetails.getLast? = some 0x30 ∧ (0x30 : UInt8) ∉ lineTailString.bytes := by
    decide +kernel
  obtain ⟨nonul, unfed, ends, kept⟩ := detailed
  intro name member
  obtain ⟨named, noComment, proper, word, line, fits⟩ := checked name member
  constructor
  · exact ⟨rfl, named, noComment, ⟨proper, word⟩, ⟨nonul, 0x30, ends, kept⟩, fits⟩
  · exact notMem_around line (by decide) unfed

/-- The file is as it should be while only these are loaded. -/
theorem sampleTarget_shows {loaded : List Name} (known : ∀ x ∈ loaded, x ∈ vfatModules) :
    Shows (loaded.flatMap shownLine) loaded := by
  induction loaded with
  | nil => exact List.Forall₂.nil
  | cons name rest inductionHypothesis =>
    rw [List.forall_mem_cons] at known
    obtain ⟨shown, unfed⟩ := vfatModules_shown name known.1
    have first : shownLine name = (name ++ space :: shownDetails) ++ [lineFeed] := by
      simp [shownLine]
    rw [Shows, List.flatMap_cons, first, List.append_assoc, List.singleton_append,
      lines_first unfed, ← first]
    exact List.Forall₂.cons ⟨shownDetails, shown⟩ (inductionHypothesis known.2)

end Ezcfg.Daemon

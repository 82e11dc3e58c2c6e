/-!
# Guarded runs of a machine that can fault

A machine takes one operation at a time and answers it; no result stands for a
fault. `Guarded` says that every step of a run meets a condition on the
operation and the state before it. Under a condition that each step needs, the
run lemmas carry what one step preserves to the whole run: `follows_of_guarded`
for a machine compared with an abstract one, `always_of_guarded` for an
invariant of the states reached.
-/

namespace Foundation

universe u v w x
variable {State : Type u} {Op : Type v} {Resp : Type w} {Spec : Type x}

/-- The states a machine can be in, by any sequence of steps that do not fault. -/
inductive Reachable (step : State → Op → Option (Resp × State)) (start : State) : State → Prop
  | start : Reachable step start start
  | step {state after : State} (op : Op) (answer : Resp)
      (earlier : Reachable step start state) (taken : step state op = some (answer, after)) :
      Reachable step start after

/-- An invariant of the start that every step keeps holds in every reachable state. -/
theorem reachable_invariant {step : State → Op → Option (Resp × State)} {start state : State}
    (invariant : State → Prop) (initial : invariant start)
    (kept : ∀ before op answer after, invariant before →
      step before op = some (answer, after) → invariant after)
    (reached : Reachable step start state) : invariant state := by
  induction reached with
  | start => exact initial
  | step op answer _ taken inductionHypothesis =>
    exact kept _ op answer _ inductionHypothesis taken

/-- Every step of the run meets the condition, in the state in which it is taken. -/
def Guarded (step : State → Op → Option (Resp × State)) (allowed : State → Op → Prop) :
    State → List Op → Prop
  | _, [] => True
  | state, op :: rest => allowed state op ∧
      ∀ answer after, step state op = some (answer, after) → Guarded step allowed after rest

/-- No step of the run faults, and each is answered as the abstract state kept
beside the machine demands. -/
def Follows (step : State → Op → Option (Resp × State))
    (demand : Spec → State → Op → Resp → State → Prop) (update : Spec → Op → Resp → Spec) :
    Spec → State → List Op → Prop
  | _, _, [] => True
  | spec, state, op :: rest => ∃ answer after, step state op = some (answer, after) ∧
      demand spec state op answer after ∧
      Follows step demand update (update spec op answer) after rest

/-- No step of the run faults, and the invariant holds in every state reached. -/
def Always (step : State → Op → Option (Resp × State)) (invariant : State → Prop) :
    State → List Op → Prop
  | state, [] => invariant state
  | state, op :: rest => invariant state ∧
      ∃ answer after, step state op = some (answer, after) ∧ Always step invariant after rest

/-- A run can be checked step by step for being guarded. -/
instance Guarded.decidable {step : State → Op → Option (Resp × State)}
    {allowed : State → Op → Prop} [∀ state op, Decidable (allowed state op)] :
    ∀ (state : State) (ops : List Op), Decidable (Guarded step allowed state ops)
  | _, [] => .isTrue trivial
  | state, op :: rest =>
    match taken : step state op with
    | none => decidable_of_iff (allowed state op)
        ⟨fun permitted => ⟨permitted, fun _ _ done => by rw [taken] at done; cases done⟩,
          fun guarded => guarded.1⟩
    | some (answer, after) =>
      have : Decidable (Guarded step allowed after rest) := Guarded.decidable _ _
      decidable_of_iff (allowed state op ∧ Guarded step allowed after rest)
        ⟨fun later => ⟨later.1, fun _ _ done => by rw [taken] at done; cases done; exact later.2⟩,
          fun guarded => ⟨guarded.1, guarded.2 answer after taken⟩⟩

/-- A run can be compared with the abstract state by performing it. -/
instance Follows.decidable {step : State → Op → Option (Resp × State)}
    {demand : Spec → State → Op → Resp → State → Prop} {update : Spec → Op → Resp → Spec}
    [∀ spec state op answer after, Decidable (demand spec state op answer after)] :
    ∀ (spec : Spec) (state : State) (ops : List Op),
      Decidable (Follows step demand update spec state ops)
  | _, _, [] => .isTrue trivial
  | spec, state, op :: rest =>
    match taken : step state op with
    | none => .isFalse fun ⟨_, _, done, _⟩ => by rw [taken] at done; cases done
    | some (answer, after) =>
      have : Decidable (Follows step demand update (update spec op answer) after rest) :=
        Follows.decidable _ _ _
      decidable_of_iff
        (demand spec state op answer after ∧
          Follows step demand update (update spec op answer) after rest)
        ⟨fun later => ⟨answer, after, taken, later⟩, fun ⟨_, _, done, later⟩ => by
          rw [taken] at done; cases done; exact later⟩

/-- A run can be checked for an invariant by performing it. -/
instance Always.decidable {step : State → Op → Option (Resp × State)} {invariant : State → Prop}
    [DecidablePred invariant] :
    ∀ (state : State) (ops : List Op), Decidable (Always step invariant state ops)
  | state, [] => inferInstanceAs (Decidable (invariant state))
  | state, op :: rest =>
    match taken : step state op with
    | none => .isFalse fun ⟨_, _, _, done, _⟩ => by rw [taken] at done; cases done
    | some (answer, after) =>
      have : Decidable (Always step invariant after rest) := Always.decidable _ _
      decidable_of_iff (invariant state ∧ Always step invariant after rest)
        ⟨fun later => ⟨later.1, answer, after, taken, later.2⟩, fun ⟨here, _, _, done, later⟩ => by
          rw [taken] at done; cases done; exact ⟨here, later⟩⟩

/-- A step lemma between related states carries over to guarded runs. -/
theorem follows_of_guarded {step : State → Op → Option (Resp × State)}
    {allowed : State → Op → Prop} {demand : Spec → State → Op → Resp → State → Prop}
    {update : Spec → Op → Resp → Spec} (related : Spec → State → Prop)
    (advance : ∀ spec state op, related spec state → allowed state op →
      ∃ answer after, step state op = some (answer, after) ∧
        demand spec state op answer after ∧ related (update spec op answer) after)
    (ops : List Op) (spec : Spec) (state : State) (linked : related spec state)
    (guarded : Guarded step allowed state ops) :
    Follows step demand update spec state ops := by
  induction ops generalizing spec state with
  | nil => trivial
  | cons op rest inductionHypothesis =>
    obtain ⟨permitted, remaining⟩ := guarded
    obtain ⟨answer, after, taken, answered, next⟩ := advance spec state op linked permitted
    exact ⟨answer, after, taken, answered,
      inductionHypothesis _ _ next (remaining answer after taken)⟩

/-- Where a step without the condition faults, a run that keeps its promises follows the
abstract state exactly when every step meets the condition. -/
theorem follows_iff_guarded {step : State → Op → Option (Resp × State)}
    {promised allowed : State → Op → Prop} {demand : Spec → State → Op → Resp → State → Prop}
    {update : Spec → Op → Resp → Spec} (related : Spec → State → Prop)
    (advance : ∀ spec state op, related spec state → promised state op → allowed state op →
      ∃ answer after, step state op = some (answer, after) ∧
        demand spec state op answer after ∧ related (update spec op answer) after)
    (faults : ∀ spec state op, related spec state → ¬ allowed state op → step state op = none)
    (ops : List Op) (spec : Spec) (state : State) (linked : related spec state)
    (kept : Guarded step promised state ops) :
    Follows step demand update spec state ops ↔ Guarded step allowed state ops := by
  induction ops generalizing spec state with
  | nil => exact Iff.rfl
  | cons op rest inductionHypothesis =>
    obtain ⟨promise, remaining⟩ := kept
    constructor
    · rintro ⟨answer, after, taken, -, later⟩
      have permitted : allowed state op := Classical.byContradiction fun refused => by
        rw [faults spec state op linked refused] at taken
        cases taken
      obtain ⟨answer', after', taken', -, next⟩ := advance spec state op linked promise permitted
      obtain ⟨rfl, rfl⟩ := Prod.mk.inj (Option.some.inj (taken.symm.trans taken'))
      refine ⟨permitted, fun other final done => ?_⟩
      obtain ⟨rfl, rfl⟩ := Prod.mk.inj (Option.some.inj (taken.symm.trans done))
      exact (inductionHypothesis _ _ next (remaining answer after taken)).mp later
    · rintro ⟨permitted, later⟩
      obtain ⟨answer, after, taken, answered, next⟩ := advance spec state op linked promise permitted
      exact ⟨answer, after, taken, answered,
        (inductionHypothesis _ _ next (remaining answer after taken)).mpr (later answer after taken)⟩

/-- A run is guarded by a condition on the operations that each of them meets. -/
theorem guarded_of_forall {step : State → Op → Option (Resp × State)} {allowed : Op → Prop}
    (ops : List Op) (state : State) (every : ∀ op ∈ ops, allowed op) :
    Guarded step (fun _ => allowed) state ops := by
  induction ops generalizing state with
  | nil => trivial
  | cons op rest inductionHypothesis =>
    rw [List.forall_mem_cons] at every
    exact ⟨every.1, fun _ after _ => inductionHypothesis after every.2⟩

/-- An invariant kept by each permitted step holds all along a guarded run. -/
theorem always_of_guarded {step : State → Op → Option (Resp × State)}
    {allowed : State → Op → Prop} (invariant : State → Prop)
    (advance : ∀ state op, invariant state → allowed state op →
      ∃ answer after, step state op = some (answer, after) ∧ invariant after)
    (ops : List Op) (state : State) (initial : invariant state)
    (guarded : Guarded step allowed state ops) : Always step invariant state ops := by
  induction ops generalizing state with
  | nil => exact initial
  | cons op rest inductionHypothesis =>
    obtain ⟨permitted, remaining⟩ := guarded
    obtain ⟨answer, after, taken, kept⟩ := advance state op initial permitted
    exact ⟨initial, answer, after, taken,
      inductionHypothesis after kept (remaining answer after taken)⟩

/-- An invariant kept by every step holds all along every run. -/
theorem always_of_kept {step : State → Op → Option (Resp × State)} (invariant : State → Prop)
    (advance : ∀ state op, invariant state →
      ∃ answer after, step state op = some (answer, after) ∧ invariant after)
    (ops : List Op) (state : State) (initial : invariant state) :
    Always step invariant state ops := by
  induction ops generalizing state with
  | nil => exact initial
  | cons op rest inductionHypothesis =>
    obtain ⟨answer, after, taken, kept⟩ := advance state op initial
    exact ⟨initial, answer, after, taken, inductionHypothesis after kept⟩

/-- What holds all along a run may be weakened. -/
theorem always_mono {step : State → Op → Option (Resp × State)} {stronger weaker : State → Prop}
    (weaken : ∀ state, stronger state → weaker state) (ops : List Op) (state : State)
    (always : Always step stronger state ops) : Always step weaker state ops := by
  induction ops generalizing state with
  | nil => exact weaken state always
  | cons op rest inductionHypothesis =>
    obtain ⟨here, answer, after, taken, later⟩ := always
    exact ⟨weaken state here, answer, after, taken, inductionHypothesis after later⟩

end Foundation

import Ezcfg.Foundation.Runs

/-!
# Programs that ask

A program works on a state, asks its surroundings for outcomes and may stop. The outcomes are a
list that is used up from the front; an outcome that is missing is zero. `Meets` says what holds,
whatever the outcomes are, where a program stops and where it ends, and has one rule for each way
of building a program.
-/

namespace Foundation

variable {ε σ α β : Type}

/-- A program: from outcomes and a state to a value, the outcomes left and the state after. -/
def Asking (ε σ α : Type) : Type := List Int → σ → Except ε (α × List Int × σ)

namespace Asking

/-- One program, and another with its value. -/
def andThen (first : Asking ε σ α) (second : α → Asking ε σ β) : Asking ε σ β :=
  fun outcomes state =>
    match first outcomes state with
    | .error stopped => .error stopped
    | .ok (value, outcomes, state) => second value outcomes state

instance : Monad (Asking ε σ) where
  pure value := fun outcomes state => .ok (value, outcomes, state)
  bind := andThen

/-- The next outcome. -/
def ask : Asking ε σ Int := fun outcomes state => .ok (outcomes.headD 0, outcomes.tail, state)

/-- The state. -/
def look : Asking ε σ σ := fun outcomes state => .ok (state, outcomes, state)

/-- Another state. -/
def become (state : σ) : Asking ε σ Unit := fun outcomes _ => .ok ((), outcomes, state)

/-- The state is changed. -/
def change (update : σ → σ) : Asking ε σ Unit := fun outcomes state => .ok ((), outcomes, update state)

/-- The end of a program that goes no further. -/
def stop (stopped : ε) : Asking ε σ α := fun _ _ => .error stopped

/-- A question that an outcome of zero answers with yes. -/
def succeeds : Asking ε σ Bool := do return (← ask) = 0

/-- From a state, whatever the outcomes are, the program stops as allowed or ends as wanted. -/
def Meets (program : Asking ε σ α) (state : σ) (stops : ε → Prop) (ends : α → σ → Prop) : Prop :=
  ∀ outcomes, match program outcomes state with
    | .error stopped => stops stopped
    | .ok (value, _, after) => ends value after

/-- What is given before a program, and what holds where it stops or ends. -/
def Triple (given : σ → Prop) (program : Asking ε σ α) (stops : ε → Prop) (ends : α → σ → Prop) :
    Prop :=
  ∀ state, given state → Meets program state stops ends

section Rules

variable {given : σ → Prop} {stops : ε → Prop} {ends : α → σ → Prop}

/-- The second program starts where the first one ends. -/
theorem meets_bind {state : σ} {first : Asking ε σ β} {second : β → Asking ε σ α}
    (meets : Meets first state stops fun value after => Meets (second value) after stops ends) :
    Meets (first >>= second) state stops ends := by
  intro outcomes
  have here := meets outcomes
  change match andThen first second outcomes state with
    | .error stopped => stops stopped
    | .ok (value, _, after) => ends value after
  rw [andThen]
  cases run : first outcomes state with
  | error stopped =>
    rw [run] at here
    exact here
  | ok result =>
    rw [run] at here
    exact here result.2.1

/-- What is allowed and what is wanted may be weakened. -/
theorem Meets.mono {state : σ} {program : Asking ε σ α} {stops' : ε → Prop} {ends' : α → σ → Prop}
    (meets : Meets program state stops ends) (weaker : ∀ stopped, stops stopped → stops' stopped)
    (implied : ∀ value after, ends value after → ends' value after) :
    Meets program state stops' ends' := by
  intro outcomes
  have here := meets outcomes
  cases run : program outcomes state with
  | error stopped =>
    rw [run] at here
    exact weaker stopped here
  | ok result =>
    rw [run] at here
    exact implied _ _ here

theorem triple_pure {value : α} (holds : ∀ state, given state → ends value state) :
    Triple given (pure value : Asking ε σ α) stops ends :=
  fun state is _ => holds state is

theorem triple_bind {between : β → σ → Prop} {first : Asking ε σ β} {second : β → Asking ε σ α}
    (before : Triple given first stops between)
    (later : ∀ value, Triple (between value) (second value) stops ends) :
    Triple given (first >>= second) stops ends :=
  fun state is => meets_bind ((before state is).mono (fun _ allowed => allowed) later)

/-- The same where what holds in between is to be named. -/
theorem triple_via (between : β → σ → Prop) {first : Asking ε σ β} {second : β → Asking ε σ α}
    (before : Triple given first stops between)
    (later : ∀ value, Triple (between value) (second value) stops ends) :
    Triple given (first >>= second) stops ends :=
  triple_bind before later

theorem triple_ask {next : Int → Asking ε σ α} (later : ∀ n, Triple given (next n) stops ends) :
    Triple given (ask >>= next) stops ends :=
  fun state is => meets_bind fun outcomes => later (outcomes.headD 0) state is

theorem triple_succeeds {next : Bool → Asking ε σ α}
    (later : ∀ yes, Triple given (next yes) stops ends) :
    Triple given (succeeds >>= next) stops ends :=
  fun state is => meets_bind fun _ => later _ state is

theorem meets_look {state : σ} {next : σ → Asking ε σ α}
    (later : Meets (next state) state stops ends) : Meets (look >>= next) state stops ends :=
  meets_bind fun _ => later

theorem triple_look {next : σ → Asking ε σ α}
    (later : ∀ state, given state → Meets (next state) state stops ends) :
    Triple given (look >>= next) stops ends :=
  fun state is => meets_look (later state is)

theorem triple_change {update : σ → σ} {wanted : σ → Prop}
    (holds : ∀ state, given state → wanted (update state)) :
    Triple given (change update : Asking ε σ Unit) stops fun _ => wanted :=
  fun state is _ => holds state is

/-- Another state is the state from then on. -/
theorem meets_become {state after : σ} {next : Unit → Asking ε σ α}
    (later : Meets (next ()) after stops ends) : Meets (become after >>= next) state stops ends :=
  meets_bind fun _ => later

theorem triple_stop {stopped : ε} (allowed : stops stopped) :
    Triple given (stop stopped : Asking ε σ α) stops ends :=
  fun _ _ _ => allowed

theorem triple_ite {condition : Prop} [Decidable condition] {first second : Asking ε σ α}
    (yes : condition → Triple given first stops ends)
    (no : ¬condition → Triple given second stops ends) :
    Triple given (if condition then first else second) stops ends := by
  split
  · exact yes ‹_›
  · exact no ‹_›

/-- A weaker program specification follows from a stronger one. -/
theorem Triple.mono {program : Asking ε σ α} {given' : σ → Prop} {stops' : ε → Prop}
    {ends' : α → σ → Prop} (triple : Triple given program stops ends)
    (stronger : ∀ state, given' state → given state)
    (weaker : ∀ stopped, stops stopped → stops' stopped)
    (implied : ∀ value after, ends value after → ends' value after) :
    Triple given' program stops' ends' :=
  fun state is => (triple state (stronger state is)).mono weaker implied

/-- Two specifications of one program hold together. -/
theorem Triple.and {program : Asking ε σ α} {given' : σ → Prop} {stops' : ε → Prop}
    {ends' : α → σ → Prop} (first : Triple given program stops ends)
    (second : Triple given' program stops' ends') :
    Triple (fun state => given state ∧ given' state) program
      (fun stopped => stops stopped ∧ stops' stopped)
      fun value after => ends value after ∧ ends' value after := by
  intro state both outcomes
  have here := first state both.1 outcomes
  have there := second state both.2 outcomes
  cases run : program outcomes state with
  | error stopped =>
    rw [run] at here there
    exact ⟨here, there⟩
  | ok result =>
    rw [run] at here there
    exact ⟨here, there⟩

/-- What is known of a run that ends. -/
theorem Triple.of_ok {program : Asking ε σ α} (triple : Triple given program stops ends)
    {state after : σ} (is : given state) {outcomes rest : List Int} {value : α}
    (run : program outcomes state = .ok (value, rest, after)) : ends value after := by
  have here := triple state is outcomes
  rw [run] at here
  exact here

/-- What is known of a run that stops. -/
theorem Triple.of_error {program : Asking ε σ α} (triple : Triple given program stops ends)
    {state : σ} (is : given state) {outcomes : List Int} {stopped : ε}
    (run : program outcomes state = .error stopped) : stops stopped := by
  have here := triple state is outcomes
  rw [run] at here
  exact here

end Rules

end Asking

end Foundation

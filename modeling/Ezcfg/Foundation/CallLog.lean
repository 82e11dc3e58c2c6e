import Mathlib.Data.List.Basic

/-!
# Programs that record their calls

A program may have no result: it does not return, or what it does is not defined. It records the
calls that it makes on its way. When each call has a result exactly where it meets a condition,
and nothing else is without one, the program has a result exactly when all its calls meet theirs.
A program with more turns for its loops makes the same calls and perhaps others, and the same
result, where it has one.
-/

namespace Foundation

/-- The calls of a program, and its result. -/
structure Logged (Call α : Type) where
  calls : List Call
  result : Option α

namespace Logged

variable {Call α β : Type}

/-- A result is kept where there is one. -/
def Kept (first second : Option α) : Prop := first.isSome → first = second

/-- A result is kept by itself. -/
theorem kept_refl (result : Option α) : Kept result result := fun _ => rfl

/-- Where there is no result there is none to keep. -/
theorem kept_none (result : Option α) : Kept none result := fun absurd => by cases absurd

/-- Steps that keep their results keep the last one. -/
theorem Kept.bind {first second : Option α} {next nextToo : α → Option β}
    (kept : Kept first second) (later : ∀ a, Kept (next a) (nextToo a)) :
    Kept (first >>= next) (second >>= nextToo) := by
  cases found : first with
  | none => exact kept_none _
  | some a =>
    rw [found] at kept
    rw [← kept rfl]
    exact later a

/-- No call is made. -/
def lift (result : Option α) : Logged Call α := ⟨[], result⟩

/-- A call that has a result or none. -/
def call (made : Call) (result : Option α) : Logged Call α := ⟨[made], result⟩

/-- Where there is a result the program goes on. -/
def andThen (first : Logged Call α) (next : α → Logged Call β) : Logged Call β :=
  match first.result with
  | none => ⟨first.calls, none⟩
  | some a => ⟨first.calls ++ (next a).calls, (next a).result⟩

instance : Monad (Logged Call) where
  pure a := lift (some a)
  bind := andThen

/-- A step that has a result goes on with it. -/
theorem bind_of_result {first : Logged Call α} {a : α} (next : α → Logged Call β)
    (found : first.result = some a) :
    first >>= next = ⟨first.calls ++ (next a).calls, (next a).result⟩ := by
  change andThen first next = _
  rw [andThen, found]

/-- A step without a result ends the program. -/
theorem bind_of_none {first : Logged Call α} (next : α → Logged Call β)
    (ended : first.result = none) : first >>= next = ⟨first.calls, none⟩ := by
  change andThen first next = _
  rw [andThen, ended]

/-- The result of a program whose first step has one. -/
theorem result_of_bind {first : Logged Call α} {a : α} (next : α → Logged Call β)
    (found : first.result = some a) : (first >>= next).result = (next a).result := by
  rw [bind_of_result next found]

/-- Where the program has a result, so have its steps. -/
theorem result_bind {first : Logged Call α} {next : α → Logged Call β} {b : β}
    (done : (first >>= next).result = some b) :
    ∃ a, first.result = some a ∧ (next a).result = some b := by
  cases found : first.result with
  | none =>
    rw [bind_of_none next found] at done
    cases done
  | some a =>
    rw [bind_of_result next found] at done
    exact ⟨a, rfl, done⟩

/-- What is computed without a call goes on. -/
theorem lift_bind {result : Option α} {a : α} (next : α → Logged Call β)
    (found : result = some a) : lift result >>= next = next a := by
  subst found
  rfl

/-- The program has a result exactly when all its calls meet a condition. -/
def Sound (meets : Call → Prop) (program : Logged Call α) : Prop :=
  program.result.isSome ↔ ∀ made ∈ program.calls, meets made

/-- What is computed without a call has to have a result. -/
theorem sound_lift {meets : Call → Prop} {result : Option α} (found : result.isSome) :
    Sound meets (lift result) := by
  constructor
  · intro _ made member
    cases member
  · intro _
    exact found

/-- A call has a result exactly where it meets its condition. -/
theorem sound_call {meets : Call → Prop} {made : Call} {result : Option α}
    (exact : result.isSome ↔ meets made) : Sound meets (call made result) := by
  rw [Sound, call, List.forall_mem_singleton]
  exact exact

/-- Sound steps behind each other are sound. -/
theorem Sound.bind {meets : Call → Prop} {first : Logged Call α} {next : α → Logged Call β}
    (sound : Sound meets first)
    (later : ∀ a, first.result = some a → Sound meets (next a)) : Sound meets (first >>= next) := by
  cases found : first.result with
  | none =>
    rw [Sound, found] at sound
    rw [Sound, bind_of_none next found]
    exact sound
  | some a =>
    rw [Sound, found] at sound
    rw [Sound, bind_of_result next found, List.forall_mem_append]
    constructor
    · intro done
      exact ⟨sound.mp rfl, (later a found).mp done⟩
    · intro all
      exact (later a found).mpr all.2

/-- The program is sound, and what comes out of it has a property. -/
structure Gives (meets : Call → Prop) (program : Logged Call α) (post : α → Prop) : Prop where
  sound : Sound meets program
  post : ∀ a, program.result = some a → post a

/-- What is computed without a call. -/
theorem gives_lift {meets : Call → Prop} {result : Option α} {a : α} {post : α → Prop}
    (found : result = some a) (holds : post a) : Gives meets (lift result) post where
  sound := sound_lift (by rw [found]; rfl)
  post b same := by
    change result = some b at same
    rw [found] at same
    obtain rfl := Option.some.inj same
    exact holds

/-- A call. -/
theorem gives_call {meets : Call → Prop} {made : Call} {result : Option α} {post : α → Prop}
    (exact : result.isSome ↔ meets made) (holds : ∀ a, result = some a → post a) :
    Gives meets (call made result) post :=
  ⟨sound_call exact, holds⟩

/-- Steps behind each other. -/
theorem Gives.bind {meets : Call → Prop} {first : Logged Call α} {next : α → Logged Call β}
    {post : α → Prop} {last : β → Prop} (gives : Gives meets first post)
    (later : ∀ a, first.result = some a → post a → Gives meets (next a) last) :
    Gives meets (first >>= next) last where
  sound := gives.sound.bind fun a found => (later a found (gives.post a found)).sound
  post b done := by
    obtain ⟨a, found, rest⟩ := result_bind done
    exact (later a found (gives.post a found)).post b rest

/-- What follows from the property. -/
theorem Gives.imp {meets : Call → Prop} {program : Logged Call α} {post other : α → Prop}
    (gives : Gives meets program post) (implied : ∀ a, post a → other a) :
    Gives meets program other :=
  ⟨gives.sound, fun a found => implied a (gives.post a found)⟩

/-- The second program makes the calls of the first one, and perhaps more; where the first has a
result they are the same. -/
structure Below (first second : Logged Call α) : Prop where
  calls : first.calls <+: second.calls
  result : first.result.isSome → first = second

/-- A program goes as far as itself. -/
theorem Below.refl (program : Logged Call α) : Below program program :=
  ⟨List.prefix_rfl, fun _ => rfl⟩

/-- Nothing goes less far than a program without a call and a result. -/
theorem below_of_stuck (program : Logged Call α) : Below (lift none) program :=
  ⟨List.nil_prefix, fun absurd => by cases absurd⟩

/-- A call that has a result when it has one with fewer turns. -/
theorem below_call (made : Call) {first second : Option α} (kept : Kept first second) :
    Below (call made first) (call made second) :=
  ⟨List.prefix_rfl, fun done => by rw [kept done]⟩

/-- What is computed without a call and has a result when it has one with fewer turns. -/
theorem below_lift {first second : Option α} (kept : Kept first second) :
    Below (lift first : Logged Call α) (lift second) :=
  ⟨List.prefix_rfl, fun done => by rw [kept done]⟩

/-- Steps that go further make programs that go further. -/
theorem Below.bind {first second : Logged Call α} {next nextToo : α → Logged Call β}
    (below : Below first second) (later : ∀ a, Below (next a) (nextToo a)) :
    Below (first >>= next) (second >>= nextToo) := by
  cases found : first.result with
  | none =>
    rw [bind_of_none next found]
    refine ⟨?_, fun absurd => by cases absurd⟩
    cases foundToo : second.result with
    | none =>
      rw [bind_of_none nextToo foundToo]
      exact below.calls
    | some a =>
      rw [bind_of_result nextToo foundToo]
      exact below.calls.trans (List.prefix_append _ _)
  | some a =>
    obtain rfl := below.result (by rw [found]; rfl)
    rw [bind_of_result next found, bind_of_result nextToo found]
    refine ⟨(List.prefix_append_right_inj _).mpr (later a).calls, ?_⟩
    intro done
    rw [(later a).result done]

/-- Programs with more and more turns go further and further. When one with enough turns is sound,
some have a result exactly when every call that any of them makes meets its condition. -/
theorem returns_iff {meets : Call → Prop} {program : Nat → Logged Call α} {enough : Nat}
    (further : ∀ {turns more : Nat}, turns ≤ more → Below (program turns) (program more))
    (sound : ∀ turns, enough ≤ turns → Sound meets (program turns)) :
    (∃ turns, (program turns).result.isSome) ↔
      ∀ turns, ∀ made ∈ (program turns).calls, meets made := by
  constructor
  · rintro ⟨returned, done⟩ turns made member
    have high : returned ≤ returned + turns + enough := by omega
    have same := (further high).result done
    have calls := (further (show turns ≤ returned + turns + enough by omega)).calls
    rw [same] at done
    exact (sound _ (by omega)).mp done made (calls.subset member)
  · intro all
    exact ⟨enough, (sound enough (Nat.le_refl _)).mpr (all enough)⟩

end Logged

end Foundation

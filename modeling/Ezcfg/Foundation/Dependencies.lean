import Mathlib.Data.Finset.Card
import Mathlib.Data.List.Nodup
import Mathlib.Logic.Relation

/-!
# Loading and unloading in the order of dependencies

Each thing may need others. What is needed is loaded first, and what another one needs is not
unloaded. Without cycles, things have ranks that go down along the needs. `Ordered` says that
things are loaded one after the other, each once and behind what it needs; `Settled` says of a
thing that it is unloaded, or needed by one that is loaded.
-/

namespace Foundation.Dependencies

universe u

variable {α : Type u} (deps : α → List α)

/-- One thing needs another directly. -/
def Needs (user needed : α) : Prop := needed ∈ deps user

/-- One thing is another or needs it, directly or not. -/
def Reaches : α → α → Prop := Relation.ReflTransGen (Needs deps)

/-- Nothing needs itself. -/
def Acyclic : Prop := ∀ x, ¬ Relation.TransGen (Needs deps) x x

/-- What a loaded thing needs is loaded. -/
def Closed (loaded : List α) : Prop := ∀ x ∈ loaded, ∀ d ∈ deps x, d ∈ loaded

/-- Things that are loaded in an order, besides those that are loaded before. -/
structure Ordered (before order : List α) : Prop where
  nodup : order.Nodup
  fresh : ∀ x ∈ order, x ∉ before
  needs : ∀ front x back, order = front ++ x :: back → ∀ d ∈ deps x, d ∈ before ∨ d ∈ front

/-- A thing is not loaded, or one that is loaded needs it. -/
def Settled (loaded : List α) (x : α) : Prop := x ∈ loaded → ∃ user ∈ loaded, x ∈ deps user

variable {deps}

/-- Without cycles there are ranks, where finitely many things need others. -/
theorem Acyclic.exists_rank (acyclic : Acyclic deps) (keys : List α)
    (known : ∀ x, deps x ≠ [] → x ∈ keys) :
    ∃ rank : α → Nat, ∀ x, ∀ d ∈ deps x, rank d < rank x := by
  classical
  refine ⟨fun x => (keys.toFinset.filter (Reaches deps x)).card, fun x d needed => ?_⟩
  have inside : x ∈ keys := known x (List.ne_nil_of_mem needed)
  apply Finset.card_lt_card
  rw [Finset.ssubset_iff_of_subset]
  · refine ⟨x, ?_, ?_⟩
    · rw [Finset.mem_filter, List.mem_toFinset]
      exact ⟨inside, Relation.ReflTransGen.refl⟩
    · rw [Finset.mem_filter]
      rintro ⟨-, back⟩
      exact acyclic x (Relation.TransGen.head' needed back)
  · intro y member
    rw [Finset.mem_filter] at member ⊢
    exact ⟨member.1, Relation.ReflTransGen.head needed member.2⟩

/-- What is loaded keeps loaded all that it reaches. -/
theorem Closed.reaches {loaded : List α} (closed : Closed deps loaded) {x y : α}
    (reaches : Reaches deps x y) (member : x ∈ loaded) : y ∈ loaded := by
  induction reaches with
  | refl => exact member
  | tail _ needs inductionHypothesis => exact closed _ inductionHypothesis _ needs

/-! ## Loading -/

/-- Nothing is loaded. -/
theorem ordered_nil (before : List α) : Ordered deps before [] where
  nodup := List.nodup_nil
  fresh x member := absurd member List.not_mem_nil
  needs front x back same := absurd same.symm (List.append_ne_nil_of_right_ne_nil _ (by simp))

/-- One loading behind another. -/
theorem Ordered.append {before first second : List α} (ordered : Ordered deps before first)
    (later : Ordered deps (first.reverse ++ before) second) :
    Ordered deps before (first ++ second) where
  nodup := by
    refine List.nodup_append.mpr ⟨ordered.nodup, later.nodup, ?_⟩
    rintro x inFirst y inSecond rfl
    exact later.fresh x inSecond (by simp [inFirst])
  fresh x member := by
    obtain inFirst | inSecond := List.mem_append.mp member
    · exact ordered.fresh x inFirst
    · intro loaded
      exact later.fresh x inSecond (List.mem_append_right _ loaded)
  needs front x back same d needed := by
    obtain ⟨more, rfl, rest⟩ | ⟨more, rfl, rest⟩ := List.append_eq_append_iff.mp same
    · obtain loaded | earlier := later.needs more x back rest d needed
      · rw [List.mem_append, List.mem_reverse] at loaded
        obtain inFirst | inBefore := loaded
        · exact .inr (List.mem_append_left more inFirst)
        · exact .inl inBefore
      · exact .inr (List.mem_append_right first earlier)
    · cases more with
      | nil =>
        rw [List.append_nil] at later
        obtain loaded | earlier := later.needs [] x back rest.symm d needed
        · rw [List.mem_append, List.mem_reverse] at loaded
          exact loaded.symm
        · cases earlier
      | cons y others =>
        obtain ⟨rfl, -⟩ := List.cons.inj rest
        exact ordered.needs front x others rfl d needed

/-- One thing is loaded when all it needs is. -/
theorem ordered_single {before : List α} {x : α} (fresh : x ∉ before)
    (needs : ∀ d ∈ deps x, d ∈ before) : Ordered deps before [x] where
  nodup := List.nodup_singleton x
  fresh y member := by
    rw [List.mem_singleton.mp member]
    exact fresh
  needs front y back same d needed := by
    cases front with
    | nil =>
      obtain ⟨rfl, -⟩ := List.cons.inj same
      exact .inl (needs d needed)
    | cons z more =>
      have length := congrArg List.length same
      simp at length

/-- Loading keeps what is loaded closed. -/
theorem Ordered.closed {before order : List α} (ordered : Ordered deps before order)
    (closed : Closed deps before) : Closed deps (order.reverse ++ before) := by
  intro x member d needed
  rw [List.mem_append, List.mem_reverse] at member ⊢
  obtain inOrder | inBefore := member
  · obtain ⟨front, back, rfl⟩ := List.append_of_mem inOrder
    obtain loaded | earlier := ordered.needs front x back rfl d needed
    · exact .inr loaded
    · exact .inl (List.mem_append_left _ earlier)
  · exact .inr (closed x inBefore d needed)

/-! ## Loading and unloading one thing -/

variable [DecidableEq α]

/-- A thing is loaded, unless it is or lacks something. -/
def load (deps : α → List α) (loaded : List α) (x : α) : List α :=
  if x ∉ loaded ∧ ∀ d ∈ deps x, d ∈ loaded then x :: loaded else loaded

/-- A thing is unloaded, unless one that is loaded needs it. -/
def unload (deps : α → List α) (loaded : List α) (x : α) : List α :=
  if ∀ user ∈ loaded, x ∉ deps user then loaded.filter (· ≠ x) else loaded

/-- Unloading loads nothing. -/
theorem unload_subset (loaded : List α) (x : α) : unload deps loaded x ⊆ loaded := by
  rw [unload]
  split
  · exact List.filter_subset_self loaded
  · exact List.Subset.refl loaded

/-- What was to be unloaded is settled. -/
theorem settled_unload_self (loaded : List α) (x : α) : Settled deps (unload deps loaded x) x := by
  rw [unload, Settled]
  split
  · intro member
    exact absurd rfl (of_decide_eq_true (List.mem_filter.mp member).2)
  · next used =>
    intro _
    by_contra nobody
    apply used
    intro user member needed
    exact nobody ⟨user, member, needed⟩

/-- What the unloaded thing does not need stays settled. -/
theorem settled_unload {loaded : List α} {x y : α} (settled : Settled deps loaded y)
    (other : y ∉ deps x) : Settled deps (unload deps loaded x) y := by
  intro member
  obtain ⟨user, inLoaded, needed⟩ := settled (unload_subset loaded x member)
  refine ⟨user, ?_, needed⟩
  rw [unload]
  split
  · rw [List.mem_filter]
    refine ⟨inLoaded, decide_eq_true ?_⟩
    rintro rfl
    exact other needed
  · exact inLoaded

end Foundation.Dependencies

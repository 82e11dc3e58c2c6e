import Mathlib.Data.List.Flatten

/-!
# Visiting a forest with a list of waiting chains

A chain of siblings is visited from its front; the children of what is visited form a chain of
their own that waits until the chains in front of it are done. Every node that hangs below a
chain is visited exactly as often as it hangs there, in another order.
-/

namespace Foundation.Worklist

variable {α : Type}

/-- The chains that wait after a visit. -/
def enqueue (waiting : List (List α)) (children : List α) : List (List α) :=
  if children = [] then waiting else waiting ++ [children]

/-- The next chain, and the chains that wait behind it. -/
def next : List α → List (List α) → List α × List (List α)
  | [], [] => ([], [])
  | [], chain :: waiting => (chain, waiting)
  | node :: rest, waiting => (node :: rest, waiting)

/-- The nodes in the order in which they are visited, with a bound on their number. -/
def walk (children : α → List α) : Nat → List α → List (List α) → List α
  | 0, _, _ => []
  | _ + 1, [], _ => []
  | turns + 1, node :: rest, waiting =>
    let after := next rest (enqueue waiting (children node))
    node :: walk children turns after.1 after.2

/-- What is to be visited: the chain and the chains that wait. -/
def pending (chain : List α) (waiting : List (List α)) : List α := chain ++ waiting.flatten

/-- An empty chain is never the one to be visited while others wait. -/
def Ready (chain : List α) (waiting : List (List α)) : Prop :=
  (chain = [] → waiting = []) ∧ ∀ other ∈ waiting, other ≠ []

/-- Waiting children are pending. -/
theorem pending_enqueue (rest : List α) (waiting : List (List α)) (children : List α) :
    pending rest (enqueue waiting children) = pending rest waiting ++ children := by
  rw [enqueue]
  split
  · subst_vars
    rw [List.append_nil]
  · rw [pending, pending, List.flatten_append, List.flatten_singleton, List.append_assoc]

/-- Going on to the next chain changes nothing about what is pending. -/
theorem pending_next (chain : List α) (waiting : List (List α)) :
    pending (next chain waiting).1 (next chain waiting).2 = pending chain waiting := by
  cases chain with
  | nil =>
    cases waiting with
    | nil => rfl
    | cons first waiting => rfl
  | cons node rest => rfl

/-- The next chain is ready when no empty chain waits. -/
theorem ready_next {chain : List α} {waiting : List (List α)}
    (nonempty : ∀ other ∈ waiting, other ≠ []) :
    Ready (next chain waiting).1 (next chain waiting).2 := by
  cases chain with
  | nil =>
    cases waiting with
    | nil => exact ⟨fun _ => rfl, nonempty⟩
    | cons first waiting =>
      rw [List.forall_mem_cons] at nonempty
      exact ⟨fun empty => absurd empty nonempty.1, nonempty.2⟩
  | cons node rest => exact ⟨fun empty => absurd empty (List.cons_ne_nil _ _), nonempty⟩

/-- No empty chain is put behind the ones that wait. -/
theorem enqueue_nonempty {waiting : List (List α)} (children : List α)
    (nonempty : ∀ other ∈ waiting, other ≠ []) :
    ∀ other ∈ enqueue waiting children, other ≠ [] := by
  rw [enqueue]
  split
  · exact nonempty
  · rename_i some
    rw [List.forall_mem_append]
    exact ⟨nonempty, List.forall_mem_singleton.mpr some⟩

section Below

variable {children below : α → List α}
  (unfold : ∀ node, below node = node :: (children node).flatMap below)
include unfold

/-- A visit takes one node off what hangs below the pending ones. -/
theorem below_visit (node : α) (rest : List α) (waiting : List (List α)) :
    let after := next rest (enqueue waiting (children node))
    ((pending (node :: rest) waiting).flatMap below).Perm
      (node :: (pending after.1 after.2).flatMap below) := by
  intro after
  rw [pending_next, pending_enqueue, List.flatMap_append, pending, List.cons_append,
    List.flatMap_cons, unfold, List.cons_append, ← pending]
  exact (List.perm_append_comm).cons node

/-- A walk with as many turns as there are nodes visits each of them. -/
theorem walk_perm (turns : Nat) (chain : List α) (waiting : List (List α))
    (ready : Ready chain waiting)
    (enough : ((pending chain waiting).flatMap below).length ≤ turns) :
    (walk children turns chain waiting).Perm ((pending chain waiting).flatMap below) := by
  induction turns generalizing chain waiting with
  | zero =>
    rw [List.length_eq_zero_iff.mp (Nat.le_zero.mp enough)]
    exact List.Perm.nil
  | succ turns inductionHypothesis =>
    cases chain with
    | nil =>
      rw [ready.1 rfl]
      exact List.Perm.nil
    | cons node rest =>
      have visit := below_visit unfold node rest waiting
      refine List.Perm.trans ?_ visit.symm
      rw [walk]
      refine (inductionHypothesis _ _ (ready_next (enqueue_nonempty _ ready.2)) ?_).cons node
      have length := visit.length_eq
      rw [List.length_cons] at length
      omega

end Below

end Foundation.Worklist

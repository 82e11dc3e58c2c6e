import Mathlib.Data.List.Basic

/-!
# A stream that arrives in pieces

A reader looks at everything received so far after each piece and stops at its first
answer. When an answer once given is not changed by further input, the reader gives
the answer for the whole stream, however the stream is cut.
-/

namespace Foundation

/-- The pieces are not empty and make up the stream. -/
def Splits {α : Type*} (stream : List α) (pieces : List (List α)) : Prop :=
  pieces.flatten = stream ∧ ∀ piece ∈ pieces, piece ≠ []

/-- Receive piece after piece until there is an answer. -/
def gather {α β : Type*} (answer : List α → Option β) (received : List α) :
    List (List α) → Option β
  | [] => none
  | piece :: rest =>
    match answer (received ++ piece) with
    | some found => some found
    | none => gather answer (received ++ piece) rest

/-- An answer for a part of the stream is the answer for every longer part of it. -/
def StableOn {α β : Type*} (answer : List α → Option β) (stream : List α) : Prop :=
  ∀ part longer found, part <+: longer → longer <+: stream → answer part = some found →
    answer longer = some found

/-- A stable answer does not depend on the pieces. The induction is on the pieces; what
has been received so far has no answer. -/
theorem gather_of_stable {α β : Type*} {answer : List α → Option β} {stream : List α}
    (stable : StableOn answer stream) (received : List α) (pieces : List (List α))
    (whole : received ++ pieces.flatten = stream) (unanswered : answer received = none) :
    gather answer received pieces = answer stream := by
  induction pieces generalizing received with
  | nil =>
    rw [List.flatten_nil, List.append_nil] at whole
    rw [gather, ← whole, unanswered]
  | cons piece rest inductionHypothesis =>
    rw [List.flatten_cons, ← List.append_assoc] at whole
    rw [gather]
    cases answered : answer (received ++ piece) with
    | none => exact inductionHypothesis (received ++ piece) whole answered
    | some found =>
      have part : received ++ piece <+: stream := ⟨rest.flatten, whole⟩
      exact (stable _ _ found part (List.prefix_refl stream) answered).symm

/-- A stream that is not empty may arrive in one piece. -/
theorem splits_single {α : Type*} {stream : List α} (present : stream ≠ []) :
    Splits stream [stream] := by
  constructor
  · simp
  · intro piece member
    rw [List.mem_singleton.mp member]
    exact present

/-- There are at most as many pieces as elements. -/
theorem Splits.length_le {α : Type*} {stream : List α} {pieces : List (List α)}
    (splits : Splits stream pieces) : pieces.length ≤ stream.length := by
  obtain ⟨rfl, proper⟩ := splits
  induction pieces with
  | nil => apply Nat.zero_le
  | cons piece rest inductionHypothesis =>
    have first : 0 < piece.length := List.length_pos_of_ne_nil (proper piece List.mem_cons_self)
    have others := inductionHypothesis fun other member =>
      proper other (List.mem_cons_of_mem _ member)
    rw [List.length_cons, List.flatten_cons, List.length_append]
    omega

end Foundation

import Mathlib.Data.List.Count

/-!
# Blocks that are allocated and released

Blocks are numbered in the order in which they are allocated, and a block is released only when it
is in use. `Balance` says of the blocks that have been allocated since a state that each of them
has been released once, or is owned once and not released.
-/

namespace Foundation

/-- The number of the next block, and the blocks that have been released. -/
structure Blocks where
  next : Nat
  released : List Nat
  allocated : ∀ block ∈ released, block < next

namespace Blocks

/-- No block has been allocated. -/
def empty : Blocks := ⟨0, [], List.forall_mem_nil _⟩

/-- A block is allocated. -/
def allocate (blocks : Blocks) : Nat × Blocks :=
  (blocks.next, ⟨blocks.next + 1, blocks.released, fun block member =>
    Nat.lt_succ_of_lt (blocks.allocated block member)⟩)

/-- A block that is in use is released. -/
def release (blocks : Blocks) (block : Nat) : Option Blocks :=
  if inUse : block < blocks.next ∧ block ∉ blocks.released then
    some ⟨blocks.next, blocks.released ++ [block], by
      rw [List.forall_mem_append, List.forall_mem_singleton]
      exact ⟨blocks.allocated, inUse.1⟩⟩
  else none

/-- Blocks are released one after the other. -/
def releaseAll (blocks : Blocks) : List Nat → Option Blocks
  | [] => some blocks
  | block :: rest => do
    let blocks ← blocks.release block
    releaseAll blocks rest

/-- Of the blocks allocated since a state each has been released once, or is owned once. -/
structure Balance (before now : Blocks) (owned : List Nat) : Prop where
  grows : before.next ≤ now.next
  once : ∃ freed, now.released = before.released ++ freed ∧
    ∀ block, freed.count block + owned.count block =
      if before.next ≤ block ∧ block < now.next then 1 else 0

variable {before now later : Blocks} {owned others : List Nat} {block : Nat}

/-- Nothing has been allocated since now. -/
theorem Balance.refl (now : Blocks) : Balance now now [] where
  grows := Nat.le_refl _
  once := by
    refine ⟨[], (List.append_nil _).symm, fun block => ?_⟩
    rw [if_neg (by omega)]
    rfl

/-- What is owned can be listed in another order. -/
theorem Balance.perm (balance : Balance before now owned) (same : owned.Perm others) :
    Balance before now others where
  grows := balance.grows
  once := by
    obtain ⟨freed, released, counts⟩ := balance.once
    refine ⟨freed, released, fun block => ?_⟩
    rw [← same.count_eq block]
    exact counts block

/-- A block that is allocated is owned. -/
theorem Balance.allocate (balance : Balance before now owned) :
    Balance before now.allocate.2 (now.allocate.1 :: owned) where
  grows := Nat.le_succ_of_le balance.grows
  once := by
    have grows := balance.grows
    obtain ⟨freed, released, counts⟩ := balance.once
    refine ⟨freed, released, fun block => ?_⟩
    have count := counts block
    have next : now.allocate.2.next = now.next + 1 := rfl
    have number : now.allocate.1 = now.next := rfl
    rw [next, number]
    by_cases same : block = now.next
    · subst same
      rw [if_neg (by omega)] at count
      rw [List.count_cons_self, if_pos (by omega)]
      omega
    · rw [List.count_cons_of_ne (Ne.symm same)]
      split at count
      · rw [if_pos (by omega)]
        omega
      · rw [if_neg (by omega)]
        omega

/-- What is owned since now comes to what was owned before. -/
theorem Balance.trans (balance : Balance before now owned) (since : Balance now later others) :
    Balance before later (owned ++ others) where
  grows := Nat.le_trans balance.grows since.grows
  once := by
    have grows := balance.grows
    have growsToo := since.grows
    obtain ⟨freed, released, counts⟩ := balance.once
    obtain ⟨freedToo, releasedToo, countsToo⟩ := since.once
    refine ⟨freed ++ freedToo, ?_, fun block => ?_⟩
    · rw [releasedToo, released, List.append_assoc]
    · have count := counts block
      have countToo := countsToo block
      rw [List.count_append, List.count_append]
      split at count
      · rw [if_neg (by omega)] at countToo
        rw [if_pos (by omega)]
        omega
      · split at countToo
        · rw [if_pos (by omega)]
          omega
        · rw [if_neg (by omega)]
          omega

/-- A block that is owned can be released. -/
theorem Balance.release (balance : Balance before now (block :: owned)) :
    ∃ later, now.release block = some later ∧ Balance before later owned := by
  obtain ⟨freed, released, counts⟩ := balance.once
  have count := counts block
  rw [List.count_cons_self] at count
  have range : before.next ≤ block ∧ block < now.next := by
    by_contra outside
    rw [if_neg outside] at count
    omega
  rw [if_pos range] at count
  have inUse : block < now.next ∧ block ∉ now.released := by
    refine ⟨range.2, ?_⟩
    rw [released, List.mem_append, not_or]
    constructor
    · intro member
      have old := before.allocated block member
      omega
    · rw [← List.count_eq_zero]
      omega
  have done : now.release block = some ⟨now.next, now.released ++ [block], by
      rw [List.forall_mem_append, List.forall_mem_singleton]
      exact ⟨now.allocated, inUse.1⟩⟩ := dif_pos inUse
  refine ⟨_, done, balance.grows, freed ++ [block], ?_, fun other => ?_⟩
  · dsimp only
    rw [released, List.append_assoc]
  · have countOther := counts other
    rw [List.count_cons] at countOther
    rw [List.count_append, List.count_singleton, Nat.add_assoc, Nat.add_comm _ (owned.count other)]
    exact countOther

/-- Blocks that are owned can be released one after the other. -/
theorem Balance.releaseAll (balance : Balance before now (owned ++ others)) :
    ∃ later, now.releaseAll owned = some later ∧ Balance before later others := by
  induction owned generalizing now with
  | nil => exact ⟨now, rfl, balance⟩
  | cons block rest inductionHypothesis =>
    obtain ⟨middle, done, balanced⟩ := balance.release
    obtain ⟨later, released, left⟩ := inductionHypothesis balanced
    refine ⟨later, ?_, left⟩
    rw [Blocks.releaseAll, done]
    exact released

/-- Blocks that are released in two parts. -/
theorem releaseAll_append (now : Blocks) (first second : List Nat) :
    now.releaseAll (first ++ second) =
      (now.releaseAll first).bind fun later => later.releaseAll second := by
  induction first generalizing now with
  | nil => rfl
  | cons block rest inductionHypothesis =>
    rw [List.cons_append, releaseAll, releaseAll]
    cases now.release block with
    | none => rfl
    | some later => exact inductionHypothesis later

/-- One block that is released. -/
theorem releaseAll_singleton (now : Blocks) (block : Nat) :
    now.releaseAll [block] = now.release block :=
  Option.bind_fun_some _

end Blocks

end Foundation

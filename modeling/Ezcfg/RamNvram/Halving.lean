import Mathlib.Data.List.Basic

/-!
# What the halving search of the table visits

The search keeps a half-open interval, probes its middle, continues behind a
smaller slot and, before a larger slot at `middle`, continues in the interval
that ends at `middle - 1`. The slot `middle - 1` is therefore lost on every turn
to the left. When the interval is exhausted the last probe is returned, which is
one short of the insertion point after a turn to the right.

`Probed` collects the slots the search can still find, `Lands` the insertion
points at which it can still stop. Both speak about interval bounds only, so they
are conditions on the number of live slots and a rank in it.
-/

namespace Ezcfg.RamNvram

/-- The search of the source on an oracle that compares a slot with the wanted
name; the fuel bounds the number of probes. -/
def halving (compare : Nat → Ordering) : Nat → Nat → Nat → Nat → Nat × Bool
  | 0, _, _, last => (last, false)
  | fuel + 1, bottom, upper, last =>
    if bottom < upper then
      let middle := (bottom + upper) / 2
      match compare middle with
      | .eq => (middle, true)
      | .lt => halving compare fuel (middle + 1) upper middle
      | .gt => halving compare fuel bottom (middle - 1) middle
    else (last, false)

/-- Slot `wanted` is reached by the halving of the interval. -/
inductive Probed : Nat → Nat → Nat → Prop
  | middle {bottom upper : Nat} (proper : bottom < upper) :
      Probed bottom upper ((bottom + upper) / 2)
  | behind {bottom upper wanted : Nat} (proper : bottom < upper)
      (later : Probed ((bottom + upper) / 2 + 1) upper wanted) : Probed bottom upper wanted
  | before {bottom upper wanted : Nat} (proper : bottom < upper)
      (later : Probed bottom ((bottom + upper) / 2 - 1) wanted) : Probed bottom upper wanted

/-- The halving for an absent name whose insertion point is `wanted` stops there:
its last probe is `wanted` itself, followed by a turn to the left that leaves
nothing. -/
inductive Lands : Nat → Nat → Nat → Prop
  | middle {bottom upper : Nat} (proper : bottom < upper)
      (exhausted : (bottom + upper) / 2 - 1 ≤ bottom) :
      Lands bottom upper ((bottom + upper) / 2)
  | behind {bottom upper wanted : Nat} (proper : bottom < upper)
      (later : Lands ((bottom + upper) / 2 + 1) upper wanted) : Lands bottom upper wanted
  | before {bottom upper wanted : Nat} (proper : bottom < upper)
      (later : Lands bottom ((bottom + upper) / 2 - 1) wanted) : Lands bottom upper wanted

/-- Reached slots lie in the interval. -/
theorem probed_bounds {bottom upper wanted : Nat} (probed : Probed bottom upper wanted) :
    bottom ≤ wanted ∧ wanted < upper := by
  induction probed with
  | middle proper => omega
  | behind proper _ inductionHypothesis => omega
  | before proper _ inductionHypothesis => omega

/-- Insertion points at which the search stops lie in the interval. -/
theorem lands_bounds {bottom upper wanted : Nat} (lands : Lands bottom upper wanted) :
    bottom ≤ wanted ∧ wanted < upper := by
  induction lands with
  | middle proper _ => omega
  | behind proper _ inductionHypothesis => omega
  | before proper _ inductionHypothesis => omega

/-- A hit reported by the search is a slot inside the interval that compares equal. -/
theorem halving_hit_sound (compare : Nat → Ordering) (fuel bottom upper last slot : Nat)
    (hit : halving compare fuel bottom upper last = (slot, true)) :
    compare slot = .eq ∧ bottom ≤ slot ∧ slot < upper := by
  induction fuel generalizing bottom upper last with
  | zero => simp [halving] at hit
  | succ fuel inductionHypothesis =>
    by_cases proper : bottom < upper
    · simp only [halving, proper, if_true] at hit
      cases compared : compare ((bottom + upper) / 2) with
      | eq =>
        rw [compared] at hit
        obtain ⟨rfl, -⟩ := Prod.mk.inj hit
        exact ⟨compared, by omega, by omega⟩
      | lt =>
        rw [compared] at hit
        obtain ⟨equal, lower, higher⟩ := inductionHypothesis _ _ _ hit
        exact ⟨equal, by omega, higher⟩
      | gt =>
        rw [compared] at hit
        obtain ⟨equal, lower, higher⟩ := inductionHypothesis _ _ _ hit
        exact ⟨equal, lower, by omega⟩
    · simp [halving, proper] at hit

/-- The search ends inside the table, whatever its slots compare like. -/
theorem halving_inside (compare : Nat → Ordering) (size fuel bottom upper last : Nat)
    (inside : upper ≤ size) (started : last ≤ size) :
    (halving compare fuel bottom upper last).1 ≤ size := by
  induction fuel generalizing bottom upper last with
  | zero => exact started
  | succ fuel inductionHypothesis =>
    by_cases proper : bottom < upper
    · simp only [halving, proper, if_true]
      have middle : (bottom + upper) / 2 ≤ size := by omega
      cases compare ((bottom + upper) / 2) with
      | eq => exact middle
      | lt => exact inductionHypothesis _ _ _ inside middle
      | gt => exact inductionHypothesis _ _ _ (by omega) middle
    · simpa only [halving, proper, if_false] using started

section
variable {compare : Nat → Ordering} {size wanted : Nat}

/-- A slot reached on the right of the middle is reached behind it. -/
theorem probed_behind_iff {bottom upper : Nat} (proper : bottom < upper)
    (smaller : (bottom + upper) / 2 < wanted) :
    Probed bottom upper wanted ↔ Probed ((bottom + upper) / 2 + 1) upper wanted := by
  refine ⟨fun probed => ?_, Probed.behind proper⟩
  cases probed with
  | middle => omega
  | behind _ later => exact later
  | before _ later =>
    have bounds := probed_bounds later
    omega

/-- A slot reached on the left of the middle is reached in the shortened interval. -/
theorem probed_before_iff {bottom upper : Nat} (proper : bottom < upper)
    (larger : wanted < (bottom + upper) / 2) :
    Probed bottom upper wanted ↔ Probed bottom ((bottom + upper) / 2 - 1) wanted := by
  refine ⟨fun probed => ?_, Probed.before proper⟩
  cases probed with
  | middle => omega
  | behind _ later =>
    have bounds := probed_bounds later
    omega
  | before _ later => exact later

/-- For a name held by slot `wanted`, the search finds it exactly when the
halving reaches that slot; otherwise it reports a miss.

Each probe compares a slot of known side with the wanted one, so the run of the
search is the derivation of `Probed`, one constructor a probe. -/
theorem halving_present (smaller : ∀ i, i < wanted → compare i = .lt)
    (held : compare wanted = .eq) (larger : ∀ i, wanted < i → i < size → compare i = .gt)
    (fuel bottom upper last : Nat) (inside : upper ≤ size) (enough : upper < bottom + fuel) :
    (Probed bottom upper wanted → halving compare fuel bottom upper last = (wanted, true)) ∧
      (¬ Probed bottom upper wanted → (halving compare fuel bottom upper last).2 = false) := by
  induction fuel generalizing bottom upper last with
  | zero =>
    refine ⟨fun probed => ?_, fun _ => rfl⟩
    have bounds := probed_bounds probed
    omega
  | succ fuel inductionHypothesis =>
    by_cases proper : bottom < upper
    · rcases Nat.lt_trichotomy ((bottom + upper) / 2) wanted with left | same | right
      · rw [probed_behind_iff proper left]
        simp only [halving, proper, if_true, smaller _ left]
        exact inductionHypothesis _ _ _ inside (by omega)
      · refine ⟨fun _ => ?_, fun missed => ?_⟩
        · simp only [halving, proper, if_true, same, held]
        · exact absurd (same ▸ Probed.middle proper) missed
      · rw [probed_before_iff proper right]
        simp only [halving, proper, if_true, larger _ right (by omega)]
        exact inductionHypothesis _ _ _ (by omega) (by omega)
    · refine ⟨fun probed => ?_, fun _ => by simp [halving, proper]⟩
      have bounds := probed_bounds probed
      omega

/-- The search for an absent name never reports a hit. -/
theorem halving_absent (missing : ∀ i, i < size → compare i ≠ .eq)
    (fuel bottom upper last : Nat) (inside : upper ≤ size) :
    (halving compare fuel bottom upper last).2 = false := by
  cases outcome : halving compare fuel bottom upper last with
  | mk slot hit =>
    cases hit with
    | false => rfl
    | true =>
      obtain ⟨equal, -, below⟩ := halving_hit_sound compare fuel bottom upper last slot outcome
      exact absurd equal (missing slot (by omega))

/-- The search for an absent name returns its insertion point when the halving
lands on it. -/
theorem halving_lands (smaller : ∀ i, i < wanted → compare i = .lt)
    (larger : ∀ i, wanted ≤ i → i < size → compare i = .gt)
    (fuel bottom upper last : Nat) (inside : upper ≤ size) (enough : upper < bottom + fuel)
    (lands : Lands bottom upper wanted) :
    halving compare fuel bottom upper last = (wanted, false) := by
  induction lands generalizing fuel last with
  | middle proper exhausted =>
    obtain _ | _ | fuel := fuel
    · omega
    · omega
    · have turned := larger _ (Nat.le_refl _) (by omega)
      simp only [halving, proper, if_true, turned]
      rw [if_neg (by omega)]
  | @behind bottom upper wanted proper later inductionHypothesis =>
    obtain _ | fuel := fuel
    · omega
    · have bounds := lands_bounds later
      have turned := smaller ((bottom + upper) / 2) (by omega)
      simp only [halving, proper, if_true, turned]
      exact inductionHypothesis smaller larger _ _ inside (by omega)
  | @before bottom upper wanted proper later inductionHypothesis =>
    obtain _ | fuel := fuel
    · omega
    · have bounds := lands_bounds later
      have turned := larger ((bottom + upper) / 2) (by omega) (by omega)
      simp only [halving, proper, if_true, turned]
      exact inductionHypothesis smaller larger _ _ (by omega) (by omega)

/-- An insertion point returned for an absent name is one the halving lands on. -/
theorem lands_of_halving (smaller : ∀ i, i < wanted → compare i = .lt)
    (larger : ∀ i, wanted ≤ i → i < size → compare i = .gt)
    (fuel bottom upper last : Nat) (inside : upper ≤ size) (enough : upper < bottom + fuel)
    (proper : bottom < upper)
    (landed : halving compare fuel bottom upper last = (wanted, false)) :
    Lands bottom upper wanted := by
  induction fuel generalizing bottom upper last with
  | zero => omega
  | succ fuel inductionHypothesis =>
    by_cases left : (bottom + upper) / 2 < wanted
    · simp only [halving, proper, if_true, smaller _ left] at landed
      by_cases more : (bottom + upper) / 2 + 1 < upper
      · exact .behind proper (inductionHypothesis _ _ _ inside (by omega) more landed)
      · -- an exhausted interval returns the last probe, a slot below the wanted one
        cases fuel with
        | zero => omega
        | succ fuel =>
          simp only [halving, more, if_false, Prod.mk.injEq, and_true] at landed
          omega
    · simp only [halving, proper, if_true, larger _ (Nat.not_lt.mp left) (by omega)] at landed
      by_cases more : bottom < (bottom + upper) / 2 - 1
      · exact .before proper
          (inductionHypothesis _ _ _ (by omega) (by omega) more landed)
      · cases fuel with
        | zero => omega
        | succ fuel =>
          simp only [halving, more, if_false, Prod.mk.injEq, and_true] at landed
          exact landed ▸ .middle proper (Nat.not_lt.mp more)

end

/-- How the slots of a table compare with a name of rank `wanted` that it holds. -/
def compareHeld (wanted i : Nat) : Ordering := compare i wanted

/-- How the slots of a table compare with a name of rank `wanted` that it lacks. -/
def compareAbsent (wanted i : Nat) : Ordering := if i < wanted then .lt else .gt

/-- Whether a slot is reached is decided by searching for it. -/
instance Probed.decidable (upper wanted : Nat) : Decidable (Probed 0 upper wanted) :=
  decidable_of_iff ((halving (compareHeld wanted) (upper + 1) 0 upper 0).2 = true) <| by
    have smaller : ∀ i, i < wanted → compareHeld wanted i = .lt :=
      fun i below => Nat.compare_eq_lt.mpr below
    have larger : ∀ i, wanted < i → i < upper → compareHeld wanted i = .gt :=
      fun i above _ => Nat.compare_eq_gt.mpr above
    obtain ⟨reached, missed⟩ := halving_present smaller (Nat.compare_eq_eq.mpr rfl) larger
      (upper + 1) 0 upper 0 (Nat.le_refl _) (by omega)
    constructor
    · intro hit
      by_contra lost
      rw [missed lost] at hit
      cases hit
    · intro probed
      rw [reached probed]

/-- Whether the search stops at an insertion point is decided by searching for it. -/
instance Lands.decidable (upper wanted : Nat) : Decidable (Lands 0 upper wanted) :=
  decidable_of_iff (0 < upper ∧
      halving (compareAbsent wanted) (upper + 1) 0 upper 0 = (wanted, false)) <| by
    have smaller : ∀ i, i < wanted → compareAbsent wanted i = .lt := fun i below => if_pos below
    have larger : ∀ i, wanted ≤ i → i < upper → compareAbsent wanted i = .gt :=
      fun i reached _ => if_neg (Nat.not_lt.mpr reached)
    constructor
    · intro ⟨proper, landed⟩
      exact lands_of_halving smaller larger _ _ _ _ (Nat.le_refl _) (by omega) proper landed
    · intro lands
      have bounds := lands_bounds lands
      exact ⟨by omega, halving_lands smaller larger _ _ _ _ (Nat.le_refl _) (by omega) lands⟩

end Ezcfg.RamNvram

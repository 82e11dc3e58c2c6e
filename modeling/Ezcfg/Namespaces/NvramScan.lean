import Ezcfg.Namespaces.MetaScan

/-!
# The loop in the RAM table

A slot is passed when the length it keeps is too short, or when its name is not the namespace
itself. At the first slot that is not passed a pair is made, appended and released, and from then on
the list holds a pair that is gone.
-/

namespace Ezcfg.Namespaces

open Foundation NvPairs
open RamNvram (Ram NvramNode Memory)

/-- The loop goes on behind a slot. -/
def Passed (memory : Memory) (ns : CString) (np : NvramNode) : Prop :=
  np.nlen < ns.length + 1 ∨ ∃ name, np.nameText memory = some name ∧ name ≠ ns

section Slots

variable {grants : Nat → PairGrants} {memory : Memory} {ns : CString} {made : Nat} {np : NvramNode}
  {slots : List NvramNode} {listing : Listing}

/-- A slot with a name is gone through. -/
theorem takeWhile_named (named : np.name.isSome = true) :
    ((np :: slots).takeWhile fun np => np.name.isSome) =
      np :: slots.takeWhile fun np => np.name.isSome := by
  simp [named]

/-- At a slot without a name the loop ends. -/
theorem takeWhile_unnamed (unnamed : ¬ np.name.isSome = true) :
    ((np :: slots).takeWhile fun np => np.name.isSome) = [] := by
  simp [unnamed]

/-- A slot that is passed changes nothing. -/
theorem nvramLoop_passed (named : np.name.isSome = true) (passed : Passed memory ns np) :
    nvramLoop grants memory ns made (np :: slots) listing =
      nvramLoop grants memory ns made slots listing := by
  rw [nvramLoop, if_neg (by simp [Option.isSome_iff_ne_none.mp named])]
  by_cases short : np.nlen < ns.length + 1
  · rw [if_pos short]
  · obtain short' | ⟨name, isName, other⟩ := passed
    · exact absurd short' short
    · rw [if_neg short, isName]
      exact if_pos other

/-- When every slot is passed the list is left as it was. -/
theorem nvramLoop_all
    (passed : ∀ np ∈ slots.takeWhile fun np => np.name.isSome, Passed memory ns np) :
    nvramLoop grants memory ns made slots listing = some (retOk, listing) := by
  induction slots with
  | nil => rfl
  | cons np slots inductionHypothesis =>
    by_cases named : np.name.isSome = true
    · rw [takeWhile_named named] at passed
      rw [nvramLoop_passed named (passed np List.mem_cons_self)]
      exact inductionHypothesis fun other member => passed other (List.mem_cons_of_mem np member)
    · rw [nvramLoop, if_pos (by simpa using named)]
      rfl

/-- At a slot that is not passed a name cannot be read, or it is the namespace. -/
theorem not_passed (stopped : ¬Passed memory ns np) :
    ¬ np.nlen < ns.length + 1 ∧ (np.nameText memory = none ∨ np.nameText memory = some ns) := by
  rw [Passed, not_or] at stopped
  refine ⟨stopped.1, ?_⟩
  cases isName : np.nameText memory with
  | none => exact .inl rfl
  | some name =>
    by_cases same : name = ns
    · exact .inr (congrArg some same)
    · exact absurd ⟨name, isName, same⟩ stopped.2

/-- What a slot with the namespace itself comes to, when everything is granted. -/
theorem nvramLoop_stopped (named : np.name.isSome = true) (stopped : ¬Passed memory ns np)
    (all : (grants made).All) :
    nvramLoop grants memory ns made (np :: slots) listing = none ∨
      ∃ nvp, nvramLoop grants memory ns made (np :: slots) listing =
        ((linkedListAppend true { listing with pairs := (listing.pairs.alloc nvp).2 }
            (listing.pairs.alloc nvp).1).bind fun (ret, listing') =>
          (nvPairDel listing' (listing.pairs.alloc nvp).1).bind fun listing' =>
            if ret ≠ retOk then some (retFail, listing')
            else nvramLoop grants memory ns (made + 1) slots listing') := by
  obtain ⟨long, unreadable | isName⟩ := not_passed stopped
  · left
    rw [nvramLoop, if_neg (by simp [Option.isSome_iff_ne_none.mp named]), if_neg long, unreadable]
    rfl
  · obtain ⟨-, -, newGranted, node⟩ := all
    rw [nvramLoop, if_neg (by simp [Option.isSome_iff_ne_none.mp named]), if_neg long, isName]
    have same : ¬ (ns ≠ ns) := fun differ => differ rfl
    cases np.value.mapM fun q => (memory.read q).map RamNvram.Block.text with
    | none =>
      left
      apply (bind_of_some rfl).trans
      exact if_neg same
    | some value =>
      right
      cases pair : ezcfgNvPairNew (some ns) value (grants made).new with
      | none =>
        rw [newGranted] at pair
        cases value <;> cases pair
      | some nvp =>
        refine ⟨nvp, ?_⟩
        simp [nvPairNew, pair, node]

/-- A list with a pair that is gone stays as it is, or is compared with. -/
theorem nvramLoop_gone {p : Ptr} (list : listing.list = [p]) (gone : listing.pairs.read p = none)
    (inside : p < listing.pairs.length) (all : ∀ n, (grants n).All) :
    nvramLoop grants memory ns made slots listing = none ∨
      nvramLoop grants memory ns made slots listing = some (retOk, listing) := by
  induction slots with
  | nil => exact .inr rfl
  | cons np slots inductionHypothesis =>
    by_cases named : np.name.isSome = true
    · by_cases passed : Passed memory ns np
      · rw [nvramLoop_passed named passed]
        exact inductionHypothesis
      · left
        obtain none | ⟨nvp, comes⟩ :=
          @nvramLoop_stopped grants memory ns made np slots listing named passed (all made)
        · exact none
        · have stuck : linkedListAppend true
              { listing with pairs := (listing.pairs.alloc nvp).2 } (listing.pairs.alloc nvp).1 =
                none := by
            have still : (listing.pairs.alloc nvp).2.read p = none := by
              simpa only [Heap.read, Heap.alloc, List.getElem?_append_left inside] using gone
            rw [linkedListAppend, list, appendLoop, still]
            rfl
          rw [comes, stuck]
          rfl
    · right
      rw [nvramLoop, if_pos (by simpa using named)]
      rfl

/-- When a slot is not passed the list that is returned holds a pair that is gone. -/
theorem nvramLoop_dangling
    (stopped : ¬ ∀ np ∈ slots.takeWhile fun np => np.name.isSome, Passed memory ns np)
    (all : ∀ n, (grants n).All) {ret : Int}
    (done : nvramLoop grants memory ns made slots ⟨[], []⟩ = some (ret, listing)) :
    ret = retOk ∧ ∃ p ∈ listing.list, listing.pairs.read p = none := by
  induction slots with
  | nil => exact absurd (fun np member => absurd member List.not_mem_nil) stopped
  | cons np slots inductionHypothesis =>
    by_cases named : np.name.isSome = true
    · by_cases passed : Passed memory ns np
      · rw [nvramLoop_passed named passed] at done
        refine inductionHypothesis (fun every => stopped ?_) done
        rw [takeWhile_named named]
        intro other member
        rcases List.mem_cons.mp member with rfl | later
        · exact passed
        · exact every other later
      · obtain none | ⟨nvp, comes⟩ :=
          @nvramLoop_stopped grants memory ns made np slots ⟨[], []⟩ named passed (all made)
        · rw [none] at done
          cases done
        · rw [comes] at done
          have next : nvramLoop grants memory ns (made + 1) slots ⟨[none], [0]⟩ =
              some (ret, listing) := done
          obtain none | same := @nvramLoop_gone grants memory ns (made + 1) slots ⟨[none], [0]⟩ 0
            rfl rfl (by decide) all
          · rw [none] at next
            cases next
          · obtain ⟨rfl, rfl⟩ := Prod.mk.inj (Option.some.inj (same.symm.trans next))
            exact ⟨rfl, 0, List.mem_singleton_self 0, rfl⟩
    · refine absurd (fun other member => ?_) stopped
      rw [takeWhile_unnamed named] at member
      exact absurd member List.not_mem_nil

end Slots

end Ezcfg.Namespaces

import Ezcfg.RamNvram.Layout

/-!
# Changing a batch of entries

`ezcfg_common_set_nvram_entries` performs the pairs of a list one after another
on the live table and stops at the first one that is refused. Nothing is undone.
The result is all or nothing exactly when no pair is refused, or when the pairs
in front of the first refused one leave the contents as they were.

`refuses` says on the table before a call whether the call is refused: by the
missing name, by the search, by the room left and by the memory granted.
-/

namespace Ezcfg.Context

open Foundation RamNvram

/-- `struct ezcfg_nv_pair`; either string may be NULL. -/
structure NvPair where
  n : Option CString
  v : Option CString
deriving DecidableEq

/-- One round of the loop, with what the memory allocator grants it: a pair
without a value is an unset. -/
def changePair (ram : Ram) : NvPair × Grants → Option (Int × Ram)
  | (⟨none, _⟩, _) => some (retFail, ram)
  | (⟨some name, none⟩, _) => nvramUnsetEntry ram name
  | (⟨some name, some value⟩, grants) => nvramSetEntry ram name value grants

/-- The loop over the list. -/
def changePairs (ram : Ram) : List (NvPair × Grants) → Option (Int × Ram)
  | [] => some (retOk, ram)
  | pair :: rest => do
    let (ret, ram) ← changePair ram pair
    if ret ≠ retOk then some (retFail, ram) else changePairs ram rest

/-- Without a RAM store the first pair that has a name fails an assertion. -/
def ezcfgCommonSetNvramEntries (nvram : Option Ram) (list : List (NvPair × Grants)) :
    Option (Int × Option Ram) :=
  match nvram, list with
  | some ram, list => (changePairs ram list).map fun (ret, ram) => (ret, some ram)
  | none, [] => some (retOk, none)
  | none, (pair, _) :: _ => if pair.n.isNone then some (retFail, none) else none

/-- All the sets and unsets in list order, whatever they return. -/
def applyAll (ram : Ram) : List (NvPair × Grants) → Option Ram
  | [] => some ram
  | pair :: rest => do
    let (_, ram) ← changePair ram pair
    applyAll ram rest

/-- The names and values in the live slots; none is a string that cannot be read. -/
def contents (ram : Ram) : List (Option CString × Option CString) :=
  (ram.nvram.nodeList.take ram.nvram.nodeListUsed).map fun np =>
    (np.nameText ram.memory, (np.value.bind ram.memory.read).map Block.text)

/-- The batch took effect as a whole or left the contents alone. -/
def AllOrNothing (ram : Ram) (list : List (NvPair × Grants)) : Prop :=
  ∃ ret after, ezcfgCommonSetNvramEntries (some ram) list = some (ret, some after) ∧
    ((ret = retOk ∧ applyAll ram list = some after) ∨
      (ret = retFail ∧ contents after = contents ram))

/-- Whether a pair is refused, told from the table before it. -/
def refuses (ram : Ram) : NvPair × Grants → Prop
  | (⟨none, _⟩, _) => True
  | (⟨some name, none⟩, _) => ∃ i, findNvramEntryPosition ram name = some (i, false)
  | (⟨some name, some value⟩, grants) =>
    if ram.nvram.nodeListUsed = 0 then ¬ (grants.name = true ∧ grants.value = true)
    else match findNvramEntryPosition ram name with
      | some (i, true) => grants.value = false ∧
          ∃ np, ram.nvram.nodeList[i.toNat]? = some np ∧ np.vlen ≤ (value.length : Int)
      | some (_, false) => ram.nvram.nodeListUsed = ram.nvram.nodeListSize ∨
          ¬ (grants.name = true ∧ grants.value = true)
      | none => False

/-- The pairs of a list are performed in order and none of them is refused. -/
inductive Accepted : Ram → List (NvPair × Grants) → Ram → Prop
  | nil {ram : Ram} : Accepted ram [] ram
  | cons {ram mid after : Ram} {pair : NvPair × Grants} {rest : List (NvPair × Grants)} {ret : Int}
      (allowed : ¬ refuses ram pair) (taken : changePair ram pair = some (ret, mid))
      (later : Accepted mid rest after) : Accepted ram (pair :: rest) after

/-- Contents depend on the live slots and on what can be read through them. -/
theorem contents_congr {ram : Ram} {memory : Memory}
    (same : ∀ p, memory.read p = ram.memory.read p) :
    contents { ram with memory := memory } = contents ram := by
  simp only [contents, NvramNode.nameText, Option.bind_eq_bind]
  have reads : Heap.read memory = Heap.read ram.memory := funext same
  rw [reads]

/-- A refused insertion leaves the contents alone. -/
theorem insertEntry_contents (ram : Ram) (i : Nat) (name value : CString) (grants : Grants)
    (refused : ¬ (grants.name = true ∧ grants.value = true)) :
    ∃ after, insertEntry ram i name value grants = some (retFail, after) ∧
      contents after = contents ram := by
  obtain ⟨after, failed, kept⟩ := insertEntry_refused ram i name value grants refused
  exact ⟨_, failed, contents_congr kept⟩

/-- An insertion that is granted its copies does not fail. -/
theorem insertEntry_accepted {ram after : Ram} {i : Nat} {name value : CString} {grants : Grants}
    {ret : Int} (granted : grants.name = true ∧ grants.value = true)
    (taken : insertEntry ram i name value grants = some (ret, after)) : ret = retOk := by
  simp only [insertEntry, strdup, granted.1, granted.2, if_true, fillSlot, Option.bind_eq_bind,
    Option.bind_eq_some_iff, Option.some.injEq, Prod.mk.injEq] at taken
  obtain ⟨_, _, _, _, code, _⟩ := taken
  exact code.symm

/-- A replacement that needs no copy, or is granted it, does not fail. -/
theorem replaceValue_accepted {ram after : Ram} {i : Nat} {value : CString} {grants : Grants}
    {ret : Int}
    (allowed : ¬ (grants.value = false ∧
      ∃ np, ram.nvram.nodeList[i]? = some np ∧ np.vlen ≤ (value.length : Int)))
    (taken : replaceValue ram i value grants = some (ret, after)) : ret = retOk := by
  cases slot : ram.nvram.nodeList[i]? with
  | none => simp [replaceValue, slot] at taken
  | some np =>
    simp only [replaceValue, slot, Option.bind_eq_bind, Option.bind_some] at taken
    by_cases fits : (value.length : Int) < np.vlen
    · simp only [fits, if_true, Option.bind_eq_some_iff, Option.some.injEq, Prod.mk.injEq] at taken
      obtain ⟨_, _, _, _, code, _⟩ := taken
      exact code.symm
    · cases granted : grants.value with
      | false => exact absurd ⟨granted, np, slot, Int.not_lt.mp fits⟩ allowed
      | true =>
        simp only [fits, if_false, strdup, granted, if_true, Option.bind_eq_some_iff,
          Option.some.injEq, Prod.mk.injEq] at taken
        obtain ⟨_, _, _, _, code, _⟩ := taken
        exact code.symm

/-- A pair that is refused fails and leaves the contents alone. -/
theorem changePair_refused {ram : Ram} {pair : NvPair × Grants} (refused : refuses ram pair) :
    ∃ after, changePair ram pair = some (retFail, after) ∧ contents after = contents ram := by
  obtain ⟨⟨n, v⟩, grants⟩ := pair
  cases n with
  | none => exact ⟨ram, rfl, rfl⟩
  | some name =>
    cases v with
    | none =>
      obtain ⟨i, missed⟩ := refused
      exact ⟨ram, by simp [changePair, nvramUnsetEntry, missed], rfl⟩
    | some value =>
      simp only [refuses] at refused
      by_cases unused : ram.nvram.nodeListUsed = 0
      · rw [if_pos unused] at refused
        simp only [changePair, set_first ram name value grants unused]
        exact insertEntry_contents ram 0 name value grants refused
      · rw [if_neg unused] at refused
        simp only [changePair, nvramSetEntry, if_neg unused]
        cases found : findNvramEntryPosition ram name with
        | none => simp only [found] at refused
        | some position =>
          obtain ⟨i, equal⟩ := position
          rw [found] at refused
          cases equal with
          | true =>
            obtain ⟨ungranted, np, slot, outgrown⟩ := refused
            refine ⟨ram, ?_, rfl⟩
            simp [replaceValue, slot, Int.not_lt.mpr outgrown, strdup, ungranted]
          | false =>
            simp only [Option.bind_eq_bind, Option.bind_some, Bool.false_eq_true, if_false]
            by_cases full : ram.nvram.nodeListUsed = ram.nvram.nodeListSize
            · exact ⟨ram, if_pos full, rfl⟩
            · rw [if_neg full]
              exact insertEntry_contents ram i.toNat name value grants
                (refused.resolve_left full)

/-- A pair that is not refused succeeds unless it faults. -/
theorem changePair_accepted {ram after : Ram} {pair : NvPair × Grants} {ret : Int}
    (allowed : ¬ refuses ram pair) (taken : changePair ram pair = some (ret, after)) :
    ret = retOk := by
  obtain ⟨⟨n, v⟩, grants⟩ := pair
  cases n with
  | none => exact absurd trivial allowed
  | some name =>
    cases v with
    | none =>
      cases found : findNvramEntryPosition ram name with
      | none => simp [changePair, nvramUnsetEntry, found] at taken
      | some position =>
        obtain ⟨i, equal⟩ := position
        cases equal with
        | false => exact absurd ⟨i, found⟩ allowed
        | true =>
          simp only [changePair, nvramUnsetEntry, found, Option.bind_eq_bind, Option.bind_some,
            if_true, Option.bind_eq_some_iff, Option.some.injEq, Prod.mk.injEq] at taken
          obtain ⟨_, _, _, _, _, _, _, _, code, _⟩ := taken
          exact code.symm
    | some value =>
      simp only [refuses] at allowed
      by_cases unused : ram.nvram.nodeListUsed = 0
      · rw [if_pos unused, not_not] at allowed
        simp only [changePair, set_first ram name value grants unused] at taken
        exact insertEntry_accepted allowed taken
      · rw [if_neg unused] at allowed
        simp only [changePair, nvramSetEntry, if_neg unused] at taken
        cases found : findNvramEntryPosition ram name with
        | none => simp [found] at taken
        | some position =>
          obtain ⟨i, equal⟩ := position
          rw [found] at allowed taken
          cases equal with
          | true => exact replaceValue_accepted allowed taken
          | false =>
            simp only [not_or, not_not] at allowed
            simp only [Option.bind_eq_bind, Option.bind_some, Bool.false_eq_true, if_false,
              allowed.1] at taken
            exact insertEntry_accepted allowed.2 taken

/-- Accepted pairs are performed, all of them, before the rest of the list. -/
theorem changePairs_append {ram mid : Ram} {first : List (NvPair × Grants)}
    (accepted : Accepted ram first mid) (rest : List (NvPair × Grants)) :
    changePairs ram (first ++ rest) = changePairs mid rest := by
  induction accepted with
  | nil => rfl
  | cons allowed taken _ inductionHypothesis =>
    have code := changePair_accepted allowed taken
    simp only [List.cons_append, changePairs, taken, Option.bind_eq_bind, Option.bind_some, code,
      ne_eq, not_true, if_false, inductionHypothesis]

/-- Accepted pairs are all the sets and unsets in list order. -/
theorem applyAll_of_accepted {ram after : Ram} {list : List (NvPair × Grants)}
    (accepted : Accepted ram list after) : applyAll ram list = some after := by
  induction accepted with
  | nil => rfl
  | cons _ taken _ inductionHypothesis =>
    simp only [applyAll, taken, Option.bind_eq_bind, Option.bind_some, inductionHypothesis]

/-- A list is accepted to its end, or up to a pair that is refused, or up to one
that faults. -/
theorem accepted_cases (ram : Ram) (list : List (NvPair × Grants)) :
    (∃ after, Accepted ram list after) ∨
    ∃ first pair rest mid, list = first ++ pair :: rest ∧ Accepted ram first mid ∧
      (refuses mid pair ∨ changePair mid pair = none) := by
  induction list generalizing ram with
  | nil => exact .inl ⟨ram, .nil⟩
  | cons pair rest inductionHypothesis =>
    by_cases refused : refuses ram pair
    · exact .inr ⟨[], pair, rest, ram, rfl, .nil, .inl refused⟩
    · cases taken : changePair ram pair with
      | none => exact .inr ⟨[], pair, rest, ram, rfl, .nil, .inr taken⟩
      | some result =>
        obtain ⟨ret, mid⟩ := result
        rcases inductionHypothesis mid with ⟨after, accepted⟩ |
          ⟨first, stopped, later, last, rfl, accepted, stop⟩
        · exact .inl ⟨after, .cons refused taken accepted⟩
        · exact .inr ⟨pair :: first, stopped, later, last, rfl, .cons refused taken accepted, stop⟩

instance (ram : Ram) (list : List (NvPair × Grants)) : Decidable (AllOrNothing ram list) :=
  match performed : changePairs ram list with
  | none => .isFalse fun ⟨_, _, done, _⟩ => by
      simp [ezcfgCommonSetNvramEntries, performed] at done
  | some (ret, after) => decidable_of_iff
      ((ret = retOk ∧ applyAll ram list = some after) ∨
        (ret = retFail ∧ contents after = contents ram)) <| by
    simp [AllOrNothing, ezcfgCommonSetNvramEntries, performed]

end Ezcfg.Context

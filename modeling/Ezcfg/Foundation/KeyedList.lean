import Mathlib.Data.List.Basic

/-!
# Lists without equal elements

Elements are compared by a relation that need not be equality. Adding an element puts it in
the place of an equal one where there is one, and at one of the two ends otherwise; so no
two elements of a list that is built by adding and removing are equal. Every proof about an
operation goes by the first equal element, `split_first`.
-/

namespace Foundation

namespace KeyedList

universe u v
variable {α : Type u} (same : α → α → Bool)

/-- Put the element in the place of the first equal one. -/
def replace (x : α) : List α → Option (List α)
  | [] => none
  | y :: rest => if same y x then some (x :: rest) else (replace x rest).map (y :: ·)

/-- Replace an equal element, or add in front. -/
def insert (x : α) (list : List α) : List α := (replace same x list).getD (x :: list)

/-- Replace an equal element, or add behind. -/
def append (x : α) (list : List α) : List α := (replace same x list).getD (list ++ [x])

/-- Take the first equal element out. -/
def remove (x : α) : List α → Option (List α)
  | [] => none
  | y :: rest => if same y x then some rest else (remove x rest).map (y :: ·)

/-- No two elements are equal. -/
def Distinct (list : List α) : Prop := list.Pairwise fun a b => ¬ same a b

variable {same}

/-- Either no element is equal, or there is a first one that is. -/
theorem split_first (same : α → α → Bool) (x : α) (list : List α) :
    (∀ y ∈ list, ¬ same y x) ∨
      ∃ front old back, list = front ++ old :: back ∧ (∀ y ∈ front, ¬ same y x) ∧ same old x := by
  induction list with
  | nil => exact .inl (by simp)
  | cons y rest inductionHypothesis =>
    by_cases here : same y x
    · exact .inr ⟨[], y, rest, rfl, by simp, here⟩
    · rcases inductionHypothesis with absent | ⟨front, old, back, rfl, passed, found⟩
      · exact .inl (by simpa [here] using absent)
      · exact .inr ⟨y :: front, old, back, rfl, by simpa [here] using passed, found⟩

/-- Where no element is equal, none is replaced. -/
theorem replace_absent {x : α} {list : List α} (absent : ∀ y ∈ list, ¬ same y x) :
    replace same x list = none := by
  induction list with
  | nil => rfl
  | cons y rest inductionHypothesis =>
    have later := inductionHypothesis fun z member => absent z (List.mem_cons_of_mem _ member)
    have here : ¬ same y x := absent y List.mem_cons_self
    rw [replace, if_neg here, later]
    rfl

/-- The first equal element is replaced. -/
theorem replace_first {x old : α} {front : List α} (back : List α)
    (passed : ∀ y ∈ front, ¬ same y x) (found : same old x) :
    replace same x (front ++ old :: back) = some (front ++ x :: back) := by
  induction front with
  | nil => exact if_pos found
  | cons y rest inductionHypothesis =>
    have later := inductionHypothesis fun z member => passed z (List.mem_cons_of_mem _ member)
    have here : ¬ same y x := passed y List.mem_cons_self
    rw [List.cons_append, replace, if_neg here, later]
    rfl

/-- Where no element is equal, none is taken out. -/
theorem remove_absent {x : α} {list : List α} (absent : ∀ y ∈ list, ¬ same y x) :
    remove same x list = none := by
  induction list with
  | nil => rfl
  | cons y rest inductionHypothesis =>
    have later := inductionHypothesis fun z member => absent z (List.mem_cons_of_mem _ member)
    have here : ¬ same y x := absent y List.mem_cons_self
    rw [remove, if_neg here, later]
    rfl

/-- The first equal element is taken out. -/
theorem remove_first {x old : α} {front : List α} (back : List α)
    (passed : ∀ y ∈ front, ¬ same y x) (found : same old x) :
    remove same x (front ++ old :: back) = some (front ++ back) := by
  induction front with
  | nil => exact if_pos found
  | cons y rest inductionHypothesis =>
    have later := inductionHypothesis fun z member => passed z (List.mem_cons_of_mem _ member)
    have here : ¬ same y x := passed y List.mem_cons_self
    rw [List.cons_append, remove, if_neg here, later]
    rfl

/-- Where no element is equal, none is found. -/
theorem find_absent {x : α} {list : List α} (absent : ∀ y ∈ list, ¬ same y x) :
    list.find? (same · x) = none := List.find?_eq_none.mpr absent

/-- The first equal element is found. -/
theorem find_first {x old : α} {front : List α} (back : List α)
    (passed : ∀ y ∈ front, ¬ same y x) (found : same old x) :
    (front ++ old :: back).find? (same · x) = some old := by
  rw [List.find?_append, find_absent passed]
  simp [found]

section Distinct

variable (equivalence : Equivalence fun a b : α => same a b = true)
include equivalence

/-- An element that takes the place of an equal one differs from the others. -/
theorem Distinct.replaced {x old : α} {front back : List α}
    (distinct : Distinct same (front ++ old :: back)) (passed : ∀ y ∈ front, ¬ same y x)
    (found : same old x) : Distinct same (front ++ x :: back) := by
  obtain ⟨ahead, behind, across⟩ := List.pairwise_append.mp distinct
  obtain ⟨first, rest⟩ := List.pairwise_cons.mp behind
  refine List.pairwise_append.mpr ⟨ahead, List.pairwise_cons.mpr ⟨?_, rest⟩, ?_⟩
  · intro b member equal
    exact first b member (equivalence.trans found equal)
  · intro a member b later
    rcases List.mem_cons.mp later with rfl | behind
    · exact passed a member
    · exact across a member b (List.mem_cons_of_mem _ behind)

/-- Adding in front keeps the elements apart. -/
theorem Distinct.insert {list : List α} (distinct : Distinct same list) (x : α) :
    Distinct same (insert same x list) := by
  rcases split_first same x list with absent | ⟨front, old, back, rfl, passed, found⟩
  · rw [KeyedList.insert, replace_absent absent]
    refine List.pairwise_cons.mpr ⟨?_, distinct⟩
    intro b member equal
    exact absent b member (equivalence.symm equal)
  · rw [KeyedList.insert, replace_first back passed found]
    exact distinct.replaced equivalence passed found

/-- Adding behind keeps the elements apart. -/
theorem Distinct.append {list : List α} (distinct : Distinct same list) (x : α) :
    Distinct same (append same x list) := by
  rcases split_first same x list with absent | ⟨front, old, back, rfl, passed, found⟩
  · rw [KeyedList.append, replace_absent absent]
    refine List.pairwise_append.mpr ⟨distinct, List.pairwise_singleton _ x, ?_⟩
    intro a member b last
    rw [List.mem_singleton.mp last]
    exact absent a member
  · rw [KeyedList.append, replace_first back passed found]
    exact distinct.replaced equivalence passed found

/-- What is in a list to which an element is added in front: the element, and those that are
not equal to it. -/
theorem Distinct.mem_insert {list : List α} (distinct : Distinct same list) (x y : α) :
    y ∈ KeyedList.insert same x list ↔ y = x ∨ y ∈ list ∧ ¬ same y x := by
  rcases split_first same x list with absent | ⟨front, old, back, rfl, passed, found⟩
  · rw [KeyedList.insert, replace_absent absent]
    show y ∈ x :: list ↔ _
    rw [List.mem_cons]
    constructor
    · rintro (rfl | member)
      · exact .inl rfl
      · exact .inr ⟨member, absent y member⟩
    · rintro (rfl | ⟨member, -⟩)
      · exact .inl rfl
      · exact .inr member
  · have replaced := distinct.replaced equivalence passed found
    obtain ⟨-, behind, across⟩ := List.pairwise_append.mp replaced
    rw [KeyedList.insert, replace_first back passed found]
    show y ∈ front ++ x :: back ↔ _
    rw [List.mem_append, List.mem_cons, List.mem_append, List.mem_cons]
    constructor
    · rintro (ahead | rfl | later)
      · exact .inr ⟨.inl ahead, passed y ahead⟩
      · exact .inl rfl
      · refine .inr ⟨.inr (.inr later), ?_⟩
        intro equal
        exact (List.pairwise_cons.mp behind).1 y later (equivalence.symm equal)
    · rintro (rfl | ⟨ahead | rfl | later, other⟩)
      · exact .inr (.inl rfl)
      · exact .inl ahead
      · exact absurd found other
      · exact .inr (.inr later)

/-- What is in a list to which elements are added one after the other: the last one among equal
ones, and what is not equal to any of them. -/
theorem Distinct.mem_foldl_insert {list : List α} (distinct : Distinct same list) (xs : List α)
    (y : α) : y ∈ xs.foldl (fun list x => KeyedList.insert same x list) list ↔
      (∃ front back, xs = front ++ y :: back ∧ ∀ x ∈ back, ¬ same y x) ∨
        y ∈ list ∧ ∀ x ∈ xs, ¬ same y x := by
  induction xs generalizing list with
  | nil =>
    rw [List.foldl_nil]
    constructor
    · intro member
      exact .inr ⟨member, by simp⟩
    · rintro (⟨front, back, parts, -⟩ | ⟨member, -⟩)
      · exact absurd parts.symm (by simp)
      · exact member
  | cons x xs inductionHypothesis =>
    rw [List.foldl_cons, inductionHypothesis (distinct.insert equivalence x),
      distinct.mem_insert equivalence, List.forall_mem_cons]
    constructor
    · rintro (⟨front, back, rfl, last⟩ | ⟨rfl | ⟨member, other⟩, apart⟩)
      · exact .inl ⟨x :: front, back, rfl, last⟩
      · exact .inl ⟨[], xs, rfl, apart⟩
      · exact .inr ⟨member, other, apart⟩
    · rintro (⟨front, back, parts, last⟩ | ⟨member, other, apart⟩)
      · cases front with
        | nil =>
          obtain ⟨rfl, rfl⟩ := List.cons.inj parts
          exact .inr ⟨.inl rfl, last⟩
        | cons first front =>
          obtain ⟨rfl, rfl⟩ := List.cons.inj parts
          exact .inl ⟨front, back, rfl, last⟩
      · exact .inr ⟨.inr ⟨member, other⟩, apart⟩

end Distinct

/-- Taking an element out keeps the others apart. -/
theorem Distinct.remove {list rest : List α} (distinct : Distinct same list) {x : α}
    (taken : remove same x list = some rest) : Distinct same rest := by
  rcases split_first same x list with absent | ⟨front, old, back, rfl, passed, found⟩
  · rw [remove_absent absent] at taken
    cases taken
  · rw [remove_first back passed found] at taken
    obtain rfl := Option.some.inj taken
    exact distinct.sublist (List.Sublist.append (List.Sublist.refl _) (List.sublist_cons_self _ _))

end KeyedList

end Foundation

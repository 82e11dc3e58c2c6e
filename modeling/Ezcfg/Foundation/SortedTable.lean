import Mathlib.Order.Lattice
import Mathlib.Algebra.Group.Nat.Defs
import Mathlib.Logic.Function.Basic
import Mathlib.Data.List.Basic

/-!
# Association lists with strictly increasing keys

A table is a list of key and value pairs whose keys strictly increase. Every
statement about one key goes through its rank, the number of smaller keys: the
entries before the rank are smaller, the entry at the rank holds the key exactly
when the key is present, and the entries after it are larger. Insertion at the
rank, replacement and removal keep the order and change the denoted finite map
at that key only.

Keys come from any linear order; values are unrestricted.
-/

namespace Foundation.SortedTable

universe u v
variable {K : Type u} {V : Type v}

/-- The keys of a table, in table order. -/
def keys (entries : List (K × V)) : List K := entries.map Prod.fst

@[simp] theorem keys_length (entries : List (K × V)) : (keys entries).length = entries.length :=
  List.length_map _

@[simp] theorem keys_eq_nil_iff (entries : List (K × V)) : keys entries = [] ↔ entries = [] :=
  List.map_eq_nil_iff

section Denotation
variable [DecidableEq K]

/-- The finite map a list of entries denotes: the first entry of a key counts. -/
def valueOf (entries : List (K × V)) (key : K) : Option V :=
  (entries.find? fun entry => decide (entry.1 = key)).map Prod.snd

/-- A key has a value exactly when some entry carries it. -/
theorem valueOf_eq_none_iff (entries : List (K × V)) (key : K) :
    valueOf entries key = none ↔ key ∉ keys entries := by
  simp only [valueOf, keys, Option.map_eq_none_iff, List.find?_eq_none, decide_eq_true_eq,
    List.mem_map, not_exists, not_and]

/-- A key without an entry in the first part is looked up in the second. -/
theorem valueOf_append (first second : List (K × V)) (key : K)
    (absent : key ∉ keys first) : valueOf (first ++ second) key = valueOf second key := by
  have skipped : first.find? (fun entry => decide (entry.1 = key)) = none :=
    Option.map_eq_none_iff.mp ((valueOf_eq_none_iff first key).mpr absent)
  simp [valueOf, List.find?_append, skipped]

/-- Keys other than that of a middle entry are looked up around it. -/
theorem valueOf_other (first second : List (K × V)) (entry : K × V) (key : K)
    (different : key ≠ entry.1) :
    valueOf (first ++ entry :: second) key = valueOf (first ++ second) key := by
  simp [valueOf, List.find?_append, Ne.symm different]

/-- The key of a middle entry has that entry's value, when the key does not
occur before it. -/
theorem valueOf_middle (first second : List (K × V)) (key : K) (value : V)
    (absent : key ∉ keys first) : valueOf (first ++ (key, value) :: second) key = some value := by
  rw [valueOf_append first _ key absent]
  simp [valueOf]

/-- A new entry for an absent key updates the map at that key. -/
theorem valueOf_insert (first second : List (K × V)) (key : K) (value : V)
    (absent : key ∉ keys first) :
    valueOf (first ++ (key, value) :: second) =
      Function.update (valueOf (first ++ second)) key (some value) := by
  funext tested
  by_cases same : tested = key
  · subst tested
    rw [Function.update_self, valueOf_middle first second key value absent]
  · rw [Function.update_of_ne same, valueOf_other first second (key, value) tested same]

/-- A new value for an existing entry updates the map at its key. -/
theorem valueOf_replace (first second : List (K × V)) (key : K) (old value : V)
    (absent : key ∉ keys first) :
    valueOf (first ++ (key, value) :: second) =
      Function.update (valueOf (first ++ (key, old) :: second)) key (some value) := by
  rw [valueOf_insert first second key value absent, valueOf_insert first second key old absent,
    Function.update_idem]

/-- Removing the only entry of a key erases the key from the map. -/
theorem valueOf_erase (first second : List (K × V)) (key : K) (old : V)
    (before : key ∉ keys first) (after : key ∉ keys second) :
    valueOf (first ++ second) =
      Function.update (valueOf (first ++ (key, old) :: second)) key none := by
  have gone : valueOf (first ++ second) key = none := by
    rw [valueOf_eq_none_iff]
    simp only [keys, List.map_append, List.mem_append, not_or] at *
    exact ⟨before, after⟩
  rw [valueOf_insert first second key old before, Function.update_idem, ← gone,
    Function.update_eq_self]

end Denotation

variable [LinearOrder K]

/-- Keys strictly increase. -/
def Sorted (entries : List (K × V)) : Prop := (keys entries).Pairwise (· < ·)

/-- How many keys are smaller. -/
def rank (names : List K) (key : K) : Nat := names.countP fun name => decide (name < key)

theorem rank_le_length (names : List K) (key : K) : rank names key ≤ names.length :=
  List.countP_le_length

theorem rank_le_entries (entries : List (K × V)) (key : K) :
    rank (keys entries) key ≤ entries.length := by
  simpa only [keys_length] using rank_le_length (keys entries) key

/-- Increasing keys split at the rank of a key into the smaller ones and the rest. -/
theorem split_at_rank (names : List K) (key : K) (sorted : names.Pairwise (· < ·)) :
    (∀ name ∈ names.take (rank names key), name < key) ∧
      ∀ name ∈ names.drop (rank names key), key ≤ name := by
  induction names with
  | nil => simp [rank]
  | cons first rest inductionHypothesis =>
    obtain ⟨lowest, restSorted⟩ := List.pairwise_cons.mp sorted
    by_cases below : first < key
    · have counted : rank (first :: rest) key = rank rest key + 1 := by
        simp [rank, below]
      obtain ⟨smaller, larger⟩ := inductionHypothesis restSorted
      rw [counted]
      constructor
      · intro name member
        rcases List.mem_cons.mp (by simpa using member) with rfl | later
        · exact below
        · exact smaller name later
      · simpa using larger
    · have bounded : ∀ name ∈ rest, ¬ name < key := fun name member =>
        not_lt.mpr ((not_lt.mp below).trans (lowest name member).le)
      have none_below : rank (first :: rest) key = 0 := by
        simp only [rank, List.countP_cons, below, decide_false, Bool.false_eq_true, if_false,
          Nat.add_zero]
        exact List.countP_eq_zero.mpr (by simpa using bounded)
      rw [none_below]
      refine ⟨by simp, ?_⟩
      intro name member
      rcases List.mem_cons.mp (by simpa using member) with rfl | later
      · exact not_lt.mp below
      · exact not_lt.mp (bounded name later)

/-- A position below the rank holds a smaller key. -/
theorem lt_of_lt_rank {names : List K} {key name : K} (sorted : names.Pairwise (· < ·))
    {i : Nat} (held : names[i]? = some name) (below : i < rank names key) : name < key := by
  refine (split_at_rank names key sorted).1 name (List.mem_of_getElem? (i := i) ?_)
  rw [List.getElem?_take_of_lt below, held]

/-- A position from the rank on holds the key or a larger one. -/
theorem le_of_rank_le {names : List K} {key name : K} (sorted : names.Pairwise (· < ·))
    {i : Nat} (held : names[i]? = some name) (reached : rank names key ≤ i) : key ≤ name := by
  refine (split_at_rank names key sorted).2 name
    (List.mem_of_getElem? (i := i - rank names key) ?_)
  rw [List.getElem?_drop, Nat.add_sub_cancel' reached, held]

/-- The rank of a key held at a position is that position. -/
theorem rank_of_held {names : List K} {key : K} (sorted : names.Pairwise (· < ·))
    {i : Nat} (held : names[i]? = some key) : rank names key = i := by
  apply Nat.le_antisymm
  · refine Nat.le_of_not_lt fun before => ?_
    exact lt_irrefl _ (lt_of_lt_rank sorted held before)
  · refine Nat.le_of_not_lt fun behind => ?_
    obtain ⟨bound, exact⟩ := List.getElem?_eq_some_iff.mp held
    have earlier : rank names key < names.length := Nat.lt_trans behind bound
    have least : key ≤ names[rank names key] :=
      le_of_rank_le sorted (List.getElem?_eq_getElem earlier) (Nat.le_refl _)
    have increasing : names[rank names key] < names[i] :=
      List.pairwise_iff_getElem.mp sorted _ _ earlier bound behind
    rw [exact] at increasing
    exact absurd least (not_le.mpr increasing)

/-- A key is present exactly when the position of its rank holds it. -/
theorem mem_iff_at_rank {names : List K} (key : K) (sorted : names.Pairwise (· < ·)) :
    key ∈ names ↔ names[rank names key]? = some key := by
  constructor
  · intro member
    obtain ⟨i, held⟩ := List.getElem?_of_mem member
    rw [rank_of_held sorted held, held]
  · exact List.mem_of_getElem?

/-- Sorted entries fall apart around the rank of a present key. -/
theorem split_present {entries : List (K × V)} {key : K} (sorted : Sorted entries)
    (present : key ∈ keys entries) : ∃ first value second,
      entries = first ++ (key, value) :: second ∧
        first.length = rank (keys entries) key ∧ key ∉ keys first ∧ key ∉ keys second := by
  obtain ⟨⟨name, value⟩, member, same⟩ := List.mem_map.mp present
  obtain ⟨first, second, parts⟩ := List.append_of_mem member
  obtain rfl : name = key := same
  have increasing := sorted
  simp only [Sorted, parts, keys, List.map_append, List.map_cons, List.pairwise_append,
    List.pairwise_cons, List.mem_cons, forall_eq_or_imp] at increasing
  obtain ⟨-, ⟨above, -⟩, below⟩ := increasing
  refine ⟨first, value, second, parts, ?_, ?_, ?_⟩
  · have held : (keys entries)[first.length]? = some name := by simp [keys, parts]
    exact (rank_of_held sorted held).symm
  · exact fun inFirst => lt_irrefl _ (below name inFirst).1
  · exact fun inSecond => lt_irrefl _ (above name inSecond)

/-- Sorted entries fall apart at the rank of an absent key. -/
theorem split_absent {entries : List (K × V)} {key : K} (sorted : Sorted entries)
    (absent : key ∉ keys entries) : ∃ first second,
      entries = first ++ second ∧ first.length = rank (keys entries) key ∧
        (∀ name ∈ keys first, name < key) ∧ ∀ name ∈ keys second, key < name := by
  have bound := rank_le_entries entries key
  obtain ⟨smaller, larger⟩ := split_at_rank (keys entries) key sorted
  refine ⟨entries.take (rank (keys entries) key), entries.drop (rank (keys entries) key),
    (List.take_append_drop _ _).symm, List.length_take_of_le bound, ?_, ?_⟩
  · simpa only [keys, List.map_take] using smaller
  · intro name member
    have inside : name ∈ (keys entries).drop (rank (keys entries) key) := by
      simpa only [keys, List.map_drop] using member
    refine (larger name inside).lt_of_ne ?_
    rintro rfl
    exact absent (List.mem_of_mem_drop inside)

/-- Insertion behind a first part. -/
theorem insertIdx_between {α : Type u} (first second : List α) (entry : α) :
    (first ++ second).insertIdx first.length entry = first ++ entry :: second := by
  induction first with
  | nil => simp
  | cons head tail inductionHypothesis => simp [inductionHypothesis]

/-- Inserting an absent key at its rank keeps the order. -/
theorem sorted_insertIdx {entries : List (K × V)} {key : K} (sorted : Sorted entries)
    (absent : key ∉ keys entries) (value : V) :
    Sorted (entries.insertIdx (rank (keys entries) key) (key, value)) := by
  obtain ⟨first, second, parts, position, smaller, larger⟩ := split_absent sorted absent
  rw [← position, parts, insertIdx_between]
  rw [Sorted, parts] at sorted
  simp only [Sorted, keys, List.map_append, List.map_cons, List.pairwise_append,
    List.pairwise_cons, List.mem_cons] at *
  refine ⟨sorted.1, ⟨larger, sorted.2.1⟩, ?_⟩
  rintro below inFirst above (rfl | inSecond)
  · exact smaller below inFirst
  · exact sorted.2.2 below inFirst above inSecond

/-- Insertion of an absent key at its rank updates the denoted map at that key. -/
theorem valueOf_insertIdx {entries : List (K × V)} {key : K} (sorted : Sorted entries)
    (absent : key ∉ keys entries) (value : V) :
    valueOf (entries.insertIdx (rank (keys entries) key) (key, value)) =
      Function.update (valueOf entries) key (some value) := by
  obtain ⟨first, second, parts, position, smaller, -⟩ := split_absent sorted absent
  rw [← position, parts, insertIdx_between]
  exact valueOf_insert first second key value fun member => lt_irrefl _ (smaller key member)

/-- A new value at the rank of a present key keeps the keys. -/
theorem keys_set {entries : List (K × V)} {key : K} (sorted : Sorted entries)
    (present : key ∈ keys entries) (value : V) :
    keys (entries.set (rank (keys entries) key) (key, value)) = keys entries := by
  obtain ⟨first, old, second, parts, position, -, -⟩ := split_present sorted present
  rw [← position, parts]
  simp [keys]

/-- A new value at the rank of a present key updates the denoted map at that key. -/
theorem valueOf_set {entries : List (K × V)} {key : K} (sorted : Sorted entries)
    (present : key ∈ keys entries) (value : V) :
    valueOf (entries.set (rank (keys entries) key) (key, value)) =
      Function.update (valueOf entries) key (some value) := by
  obtain ⟨first, old, second, parts, position, before, -⟩ := split_present sorted present
  rw [← position, parts]
  simpa using valueOf_replace first second key old value before

/-- Removal at a position keeps the order. -/
theorem sorted_eraseIdx {entries : List (K × V)} (sorted : Sorted entries) (i : Nat) :
    Sorted (entries.eraseIdx i) := by
  have shorter : (keys (entries.eraseIdx i)).Sublist (keys entries) :=
    (List.eraseIdx_sublist entries i).map Prod.fst
  exact List.Pairwise.sublist shorter sorted

/-- Removal at the rank of a present key erases the key from the denoted map. -/
theorem valueOf_eraseIdx {entries : List (K × V)} {key : K} (sorted : Sorted entries)
    (present : key ∈ keys entries) :
    valueOf (entries.eraseIdx (rank (keys entries) key)) =
      Function.update (valueOf entries) key none := by
  obtain ⟨first, old, second, parts, position, before, after⟩ := split_present sorted present
  rw [← position, parts]
  simpa [List.eraseIdx_append_of_length_le] using valueOf_erase first second key old before after

end Foundation.SortedTable

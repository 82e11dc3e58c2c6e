import Mathlib.Data.List.InsertIdx
import Ezcfg.Foundation.SortedTable
import Ezcfg.RamNvram.Halving
import Ezcfg.RamNvram.Table

/-!
# The position of a name

`find_nvram_entry_position` only reads the names of the slots in use. On increasing names it
is the halving of their number, with the rank of the name as what is wanted: a name that is
there is found where the halving probes its rank, and a name that is not there gets its rank
where the halving lands on it. The slots may share their strings.
-/

namespace Ezcfg.RamNvram

open Foundation
open Foundation.SortedTable (rank keys Sorted)

/-- The slots in use have these names, in this order. -/
structure Named (ram : Ram) (names : List CString) : Prop where
  used : ram.nvram.nodeListUsed = names.length
  slot : ∀ {i : Nat} {name : CString}, names[i]? = some name → nodeName ram i = some name

/-- How the search compares slot `i` with a name. -/
def probe (names : List CString) (name : CString) (i : Nat) : Ordering :=
  match names[i]? with
  | some held => strcmp held name
  | none => .eq

/-- A slot in use is compared by its name. -/
theorem probe_of_held {names : List CString} {held : CString} {i : Nat} (name : CString)
    (here : names[i]? = some held) : probe names name i = strcmp held name := by
  rw [probe, here]

namespace Named

variable {ram : Ram} {names : List CString}

/-- The search loop never faults and is the halving search on the names.

The C bounds are signed, and a turn to the left at slot zero makes the upper one
negative. The interval is then empty, as it is for the natural number zero. -/
theorem findLoop_eq (named : Named ram names) (name : CString) (fuel bottom middle : Nat)
    (upper : Int) (inside : upper ≤ names.length) (enough : upper.toNat ≤ bottom + fuel) :
    findLoop ram name (fuel + 1) bottom upper middle =
      some (((halving (probe names name) (fuel + 1) bottom upper.toNat middle).1 : Int),
        (halving (probe names name) (fuel + 1) bottom upper.toNat middle).2) := by
  induction fuel generalizing bottom upper middle with
  | zero =>
    have closed : ¬ (bottom : Int) < upper := by omega
    have closedNat : ¬ bottom < upper.toNat := by omega
    simp [findLoop, halving, closed, closedNat]
  | succ fuel inductionHypothesis =>
    by_cases proper : (bottom : Int) < upper
    · have properNat : bottom < upper.toNat := by omega
      have centre : ((bottom : Int) + upper) / 2 = (((bottom + upper.toNat) / 2 : Nat) : Int) := by
        omega
      have bound : (bottom + upper.toNat) / 2 < names.length := by omega
      have held := List.getElem?_eq_getElem bound
      rw [findLoop, halving]
      simp only [proper, properNat, if_true, centre, Int.toNat_natCast, named.slot held,
        Option.bind_eq_bind, Option.bind_some, probe_of_held name held]
      cases strcmp names[(bottom + upper.toNat) / 2] name with
      | eq => rfl
      | lt => exact inductionHypothesis ((bottom + upper.toNat) / 2 + 1) _ upper inside (by omega)
      | gt =>
        have shortened : ((((bottom + upper.toNat) / 2 : Nat) : Int) - 1).toNat =
            (bottom + upper.toNat) / 2 - 1 := by omega
        rw [← shortened]
        exact inductionHypothesis bottom _ _ (by omega) (by omega)
    · have properNat : ¬ bottom < upper.toNat := by omega
      simp [findLoop, halving, proper, properNat]

/-- The search is the halving of the names. -/
theorem find_eq (named : Named ram names) (name : CString) :
    findNvramEntryPosition ram name =
      some (((halving (probe names name) (names.length + 1) 0 names.length
          (names.length / 2)).1 : Int),
        (halving (probe names name) (names.length + 1) 0 names.length
          (names.length / 2)).2) := by
  have searched := named.findLoop_eq name names.length 0 (names.length / 2)
    names.length (Int.le_refl _) (by omega)
  have half : ((names.length / 2 : Nat) : Int) = (names.length : Int) / 2 := by omega
  simpa only [findNvramEntryPosition, named.used, half, Int.toNat_natCast,
    Int.natCast_zero] using searched

end Named

/-! ## Increasing names -/

section
variable {names : List CString} (sorted : names.Pairwise (· < ·)) {name : CString} {i : Nat}
include sorted

/-- Slots below the rank compare smaller. -/
theorem probe_below (below : i < rank names name) : probe names name i = .lt := by
  have bound : i < names.length :=
    Nat.lt_of_lt_of_le below (SortedTable.rank_le_length names name)
  have held := List.getElem?_eq_getElem bound
  rw [probe_of_held name held]
  exact CString.lt_iff.mp (SortedTable.lt_of_lt_rank sorted held below)

/-- Slots from the rank on compare equal or larger. -/
theorem probe_above (reached : rank names name ≤ i) (bound : i < names.length)
    (other : names[i] ≠ name) : probe names name i = .gt := by
  have held := List.getElem?_eq_getElem bound
  rw [probe_of_held name held]
  exact CString.gt_iff.mp
    (lt_of_le_of_ne (SortedTable.le_of_rank_le sorted held reached) (Ne.symm other))

end

namespace Named

variable {ram : Ram} {names : List CString} {name : CString}

/-- A present name is found exactly when the halving reaches its slot, and then
at its rank. -/
theorem find_present (named : Named ram names) (sorted : names.Pairwise (· < ·))
    (present : name ∈ names) :
    (Probed 0 names.length (rank names name) →
      findNvramEntryPosition ram name = some ((rank names name : Int), true)) ∧
    (¬ Probed 0 names.length (rank names name) →
      ∃ i : Int, findNvramEntryPosition ram name = some (i, false)) := by
  have held := (SortedTable.mem_iff_at_rank name sorted).mp present
  have equal : probe names name (rank names name) = .eq := by
    rw [probe_of_held name held]
    exact CString.eq_iff.mp rfl
  have behind : ∀ i, rank names name < i → i < names.length → probe names name i = .gt := by
    intro i later inside
    apply probe_above sorted (Nat.le_of_lt later) inside
    intro same
    have here : names[i]? = some name := by rw [List.getElem?_eq_getElem inside, same]
    exact Nat.ne_of_lt later (SortedTable.rank_of_held sorted here)
  obtain ⟨hit, miss⟩ := halving_present (fun i => probe_below sorted) equal behind
    (names.length + 1) 0 names.length (names.length / 2) (Nat.le_refl _) (by omega)
  rw [named.find_eq name]
  constructor
  · intro probed
    rw [hit probed]
  · intro lost
    exact ⟨_, by rw [miss lost]⟩

/-- An absent name is never found, and its insertion point is returned exactly when there are
no names or the halving lands on it. -/
theorem find_absent (named : Named ram names) (sorted : names.Pairwise (· < ·))
    (absent : name ∉ names) :
    ∃ i : Int, findNvramEntryPosition ram name = some (i, false) ∧
      (i = rank names name ↔ names = [] ∨ Lands 0 names.length (rank names name)) := by
  have other : ∀ i (bound : i < names.length), names[i] ≠ name := by
    intro i bound same
    exact absent (same ▸ List.getElem_mem bound)
  have larger : ∀ i, rank names name ≤ i → i < names.length → probe names name i = .gt :=
    fun i reached bound => probe_above sorted reached bound (other i bound)
  have missing : ∀ i, i < names.length → probe names name i ≠ .eq := by
    intro i bound equal
    rw [probe_of_held name (List.getElem?_eq_getElem bound)] at equal
    exact other i bound (CString.eq_iff.mpr equal)
  have missed := halving_absent missing (names.length + 1) 0 names.length (names.length / 2)
    (Nat.le_refl _)
  refine ⟨_, by rw [named.find_eq name, missed], ?_⟩
  constructor
  · intro same
    by_cases empty : names = []
    · exact .inl empty
    · right
      exact lands_of_halving (fun i => probe_below sorted) larger (names.length + 1) 0 names.length
        (names.length / 2) (Nat.le_refl _) (by omega) (List.length_pos_of_ne_nil empty)
        (Prod.ext (Int.ofNat_inj.mp same) missed)
  · rintro (rfl | lands)
    · rfl
    · rw [halving_lands (fun i => probe_below sorted) larger _ _ _ _ (Nat.le_refl _) (by omega)
        lands]

end Named

/-! ## What the search is for -/

/-- Whether the name is there is told; and it is there at the position that is returned, or
this is the number of smaller names, and the name can be inserted there. -/
def Locates (ram : Ram) (names : List CString) (name : CString) : Prop :=
  ∃ (i : Nat) (equal : Bool), findNvramEntryPosition ram name = some ((i : Int), equal) ∧
    (equal = true ↔ name ∈ names) ∧ (name ∈ names → names[i]? = some name) ∧
    (name ∉ names → i = rank names name ∧ (names.insertIdx i name).Pairwise (· < ·))

/-- Inserting an absent name at its rank keeps the order. -/
theorem pairwise_insertIdx {names : List CString} {name : CString}
    (sorted : names.Pairwise (· < ·)) (absent : name ∉ names) :
    (names.insertIdx (rank names name) name).Pairwise (· < ·) := by
  have same : keys (names.map fun held => (held, ())) = names := by
    rw [keys, List.map_map]
    exact List.map_id names
  have table : Sorted (names.map fun held => (held, ())) := by
    rw [Sorted, same]
    exact sorted
  rw [← same] at absent
  have inserted := SortedTable.sorted_insertIdx table absent ()
  rw [Sorted, keys, List.map_insertIdx, ← keys, same] at inserted
  exact inserted

/-- A name is located exactly when the halving of the names probes its rank, or, for a name
that is not there, when there are no names or the halving lands on its rank. -/
theorem locates_iff {ram : Ram} {names : List CString} (named : Named ram names)
    (sorted : names.Pairwise (· < ·)) (name : CString) :
    Locates ram names name ↔
      (name ∈ names ∧ Probed 0 names.length (rank names name)) ∨
      (name ∉ names ∧ (names = [] ∨ Lands 0 names.length (rank names name))) := by
  by_cases present : name ∈ names
  · obtain ⟨hit, miss⟩ := named.find_present sorted present
    constructor
    · rintro ⟨i, equal, found, told, -, -⟩
      left
      refine ⟨present, ?_⟩
      by_contra lost
      obtain ⟨j, missed⟩ := miss lost
      rw [found] at missed
      rw [(Prod.mk.inj (Option.some.inj missed)).2] at told
      exact absurd (told.mpr present) Bool.false_ne_true
    · rintro (⟨-, probed⟩ | ⟨absent, -⟩)
      · refine ⟨_, true, hit probed, iff_of_true rfl present, ?_, ?_⟩
        · intro _
          exact (SortedTable.mem_iff_at_rank name sorted).mp present
        · intro absent
          exact absurd present absent
      · exact absurd present absent
  · obtain ⟨j, missed, point⟩ := named.find_absent sorted present
    constructor
    · rintro ⟨i, equal, found, -, -, placed⟩
      right
      refine ⟨present, point.mp ?_⟩
      rw [found] at missed
      rw [← (Prod.mk.inj (Option.some.inj missed)).1, (placed present).1]
    · rintro (⟨held, -⟩ | ⟨-, lands⟩)
      · exact absurd held present
      · rw [point.mpr lands] at missed
        refine ⟨_, false, missed, iff_of_false Bool.false_ne_true present, ?_, ?_⟩
        · intro held
          exact absurd held present
        · intro _
          exact ⟨rfl, pairwise_insertIdx sorted present⟩

/-- The letters "a" and "c" are no terminators. -/
theorem letters_ne : (0x61 : UInt8) ≠ 0 ∧ (0x63 : UInt8) ≠ 0 := by decide

/-- The name "a". -/
def lowName : CString := .single 0x61 letters_ne.1

/-- The name "c". -/
def highName : CString := .single 0x63 letters_ne.2

/-- A table of size two with both names, each with itself as its value. -/
def twoNames : Ram where
  memory := [some ⟨2, lowName⟩, some ⟨2, lowName⟩, some ⟨2, highName⟩, some ⟨2, highName⟩]
  nvram := ⟨[⟨some 0, some 1, 2, 2⟩, ⟨some 2, some 3, 2, 2⟩], 2, 8⟩

/-- The names of this table. -/
theorem twoNames_named : Named twoNames [lowName, highName] where
  used := rfl
  slot := by
    intro i name held
    obtain _ | _ | i := i
    · exact held
    · exact held
    · cases held

/-- They increase. -/
theorem twoNames_sorted : [lowName, highName].Pairwise (· < ·) :=
  List.pairwise_pair.mpr (CString.lt_iff.mpr (by decide))

/-- The higher name is located. -/
theorem locates_high : Locates twoNames [lowName, highName] highName ↔
    (highName ∈ [lowName, highName] ∧ Probed 0 2 1) ∨
    (highName ∉ [lowName, highName] ∧ ([lowName, highName] = [] ∨ Lands 0 2 1)) :=
  locates_iff twoNames_named twoNames_sorted highName

/-- The lower name is not: the probe of the higher one leaves nothing in front of it. -/
theorem not_locates : ¬ ∀ (ram : Ram) (names : List CString) (name : CString), Named ram names →
    names.Pairwise (· < ·) → Locates ram names name := by
  intro locates
  obtain ⟨i, equal, found, told, -, -⟩ :=
    locates twoNames [lowName, highName] lowName twoNames_named twoNames_sorted
  have missed : findNvramEntryPosition twoNames lowName = some (1, false) := by decide
  rw [missed] at found
  rw [← (Prod.mk.inj (Option.some.inj found)).2] at told
  exact Bool.false_ne_true (told.mpr List.mem_cons_self)

end Ezcfg.RamNvram

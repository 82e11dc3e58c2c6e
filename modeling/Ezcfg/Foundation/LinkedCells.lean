import Mathlib.Data.List.Induction
import Ezcfg.Foundation.Heap

/-!
# Singly linked lists in a heap

A list is a chain of cells with pointers to its first and its last cell and the number of
its cells. `Segment` says that links lead through given cells with given data, and `Linked`
that the whole list is made of them and of no other live cell. Every operation keeps a list
linked; what it does to the cells is said by the entries before and after.
-/

namespace Foundation

/-- A cell of a list. -/
structure LinkedCell (α : Type) where
  data : α
  next : Option Ptr
deriving DecidableEq

/-- A list with the cells it is made of. -/
structure LinkedList (α : Type) where
  cells : Heap (LinkedCell α)
  head : Option Ptr
  tail : Option Ptr
  length : Int
deriving DecidableEq

namespace LinkedList

variable {α : Type}

/-- The list without cells. -/
def empty : LinkedList α where
  cells := []
  head := none
  tail := none
  length := 0

/-- Follow the links to the first cell that passes the test. -/
def find (test : α → Option Bool) (cells : Heap (LinkedCell α)) :
    Nat → Option Ptr → Option (Option Ptr)
  | _, none => some none
  | 0, some _ => none
  | turns + 1, some np => do
    let cell ← cells.read np
    if ← test cell.data then return some np
    else find test cells turns cell.next

/-- Follow the links to the first cell that passes the test, and keep the cell in front. -/
def findBehind (test : α → Option Bool) (cells : Heap (LinkedCell α)) :
    Nat → Ptr → Option Ptr → Option (Option (Ptr × Ptr))
  | _, _, none => some none
  | 0, _, some _ => none
  | turns + 1, npp, some np => do
    let cell ← cells.read np
    if ← test cell.data then return some (npp, np)
    else findBehind test cells turns np cell.next

/-- Put other data in a cell. -/
def setData (list : LinkedList α) (np : Ptr) (data : α) : Option (LinkedList α) := do
  let cell ← list.cells.read np
  let cells ← list.cells.write np { cell with data }
  return { list with cells }

/-- Add a cell in front. -/
def pushFront (list : LinkedList α) (data : α) : LinkedList α :=
  let (np, cells) := list.cells.alloc ⟨data, list.head⟩
  { cells, head := some np, tail := if list.tail = none then some np else list.tail,
    length := list.length + 1 }

/-- Add a cell behind. -/
def pushBack (list : LinkedList α) (data : α) : Option (LinkedList α) :=
  let (np, cells) := list.cells.alloc ⟨data, none⟩
  match list.tail with
  | none => some { cells, head := some np, tail := some np, length := list.length + 1 }
  | some last => do
    let cell ← cells.read last
    let cells ← cells.write last { cell with next := some np }
    return { list with cells, tail := some np, length := list.length + 1 }

/-- Release a cell that has been unlinked. -/
def dropCell (list : LinkedList α) (np : Ptr) : Option (LinkedList α) := do
  let cells ← list.cells.free np
  return { list with cells, length := list.length - 1 }

/-- Unlink the first cell. -/
def unlinkHead (list : LinkedList α) (np : Ptr) : Option (LinkedList α) := do
  let cell ← list.cells.read np
  return { list with head := cell.next, tail := if cell.next = none then none else list.tail }

/-- Unlink a cell behind another. -/
def unlinkBehind (list : LinkedList α) (npp np : Ptr) : Option (LinkedList α) := do
  let cell ← list.cells.read np
  let before ← list.cells.read npp
  let cells ← list.cells.write npp { before with next := cell.next }
  return { list with cells, tail := if cell.next = none then some npp else list.tail }

/-- The links lead through the entries, from the start to the stop. -/
def Segment (cells : Heap (LinkedCell α)) : Option Ptr → List (Ptr × α) → Option Ptr → Prop
  | start, [], stop => start = stop
  | start, (p, data) :: rest, stop =>
    start = some p ∧ ∃ next, cells.read p = some ⟨data, next⟩ ∧ Segment cells next rest stop

/-- The list is made of the entries, and of no other live cell. -/
structure Linked (list : LinkedList α) (entries : List (Ptr × α)) : Prop where
  chain : Segment list.cells list.head entries none
  owned : list.cells.Owns (entries.map Prod.fst)
  last : list.tail = (entries.map Prod.fst).getLast?
  counted : list.length = entries.length

/-! ## Segments -/

/-- Links through entries one behind the other. -/
theorem segment_append {cells : Heap (LinkedCell α)} {start stop : Option Ptr}
    {front back : List (Ptr × α)} : Segment cells start (front ++ back) stop ↔
      ∃ middle, Segment cells start front middle ∧ Segment cells middle back stop := by
  induction front generalizing start with
  | nil =>
    constructor
    · exact fun segment => ⟨start, rfl, segment⟩
    · rintro ⟨_, rfl, segment⟩
      exact segment
  | cons entry front inductionHypothesis =>
    obtain ⟨p, data⟩ := entry
    constructor
    · rintro ⟨here, next, cell, rest⟩
      obtain ⟨middle, first, second⟩ := inductionHypothesis.mp rest
      exact ⟨middle, ⟨here, next, cell, first⟩, second⟩
    · rintro ⟨middle, ⟨here, next, cell, first⟩, second⟩
      exact ⟨here, next, cell, inductionHypothesis.mpr ⟨middle, first, second⟩⟩

/-- Links depend only on the cells they lead through. -/
theorem Segment.frame {cells after : Heap (LinkedCell α)} {start stop : Option Ptr}
    {entries : List (Ptr × α)} (segment : Segment cells start entries stop)
    (same : ∀ p ∈ entries.map Prod.fst, after.read p = cells.read p) :
    Segment after start entries stop := by
  induction entries generalizing start with
  | nil => exact segment
  | cons entry rest inductionHypothesis =>
    obtain ⟨p, data⟩ := entry
    obtain ⟨here, next, cell, later⟩ := segment
    refine ⟨here, next, (same p (by simp)).trans cell, ?_⟩
    exact inductionHypothesis later fun q member => same q (by simp [List.mem_map.mp member])

section Find

variable {cells : Heap (LinkedCell α)} {test : α → Option Bool} {start : Option Ptr}

/-- Where no entry passes the test, the search comes to the end. -/
theorem find_absent {entries : List (Ptr × α)} (segment : Segment cells start entries none)
    (absent : ∀ entry ∈ entries, test entry.2 = some false) {turns : Nat}
    (enough : entries.length ≤ turns) : find test cells turns start = some none := by
  induction entries generalizing start turns with
  | nil =>
    obtain rfl : start = none := segment
    rw [find]
  | cons entry rest inductionHypothesis =>
    obtain ⟨p, data⟩ := entry
    obtain ⟨rfl, next, cell, later⟩ := segment
    obtain ⟨turns, rfl⟩ := Nat.exists_eq_add_one_of_ne_zero (n := turns) (by
      rw [List.length_cons] at enough
      omega)
    have here : test data = some false := absent (p, data) List.mem_cons_self
    have further := inductionHypothesis later
      (fun entry member => absent entry (List.mem_cons_of_mem _ member))
      (Nat.le_of_succ_le_succ enough)
    simp [find, cell, here, further]

/-- The first entry that passes the test is found. -/
theorem find_first {front back : List (Ptr × α)} {p : Ptr} {data : α}
    (segment : Segment cells start (front ++ (p, data) :: back) none)
    (passed : ∀ entry ∈ front, test entry.2 = some false) (found : test data = some true)
    {turns : Nat} (enough : front.length < turns) :
    find test cells turns start = some (some p) := by
  induction front generalizing start turns with
  | nil =>
    obtain ⟨rfl, next, cell, -⟩ := segment
    obtain ⟨turns, rfl⟩ := Nat.exists_eq_add_one_of_ne_zero (n := turns) (by omega)
    simp [find, cell, found]
  | cons entry front inductionHypothesis =>
    obtain ⟨q, other⟩ := entry
    obtain ⟨rfl, next, cell, later⟩ := segment
    obtain ⟨turns, rfl⟩ := Nat.exists_eq_add_one_of_ne_zero (n := turns) (by omega)
    have here : test other = some false := passed (q, other) List.mem_cons_self
    have further := inductionHypothesis later
      (fun entry member => passed entry (List.mem_cons_of_mem _ member))
      (Nat.lt_of_succ_lt_succ enough)
    simp [find, cell, here, further]

/-- The search behind a cell comes to the end as the search does. -/
theorem findBehind_absent {entries : List (Ptr × α)} (npp : Ptr)
    (segment : Segment cells start entries none)
    (absent : ∀ entry ∈ entries, test entry.2 = some false) {turns : Nat}
    (enough : entries.length ≤ turns) : findBehind test cells turns npp start = some none := by
  induction entries generalizing start turns npp with
  | nil =>
    obtain rfl : start = none := segment
    rw [findBehind]
  | cons entry rest inductionHypothesis =>
    obtain ⟨p, data⟩ := entry
    obtain ⟨rfl, next, cell, later⟩ := segment
    obtain ⟨turns, rfl⟩ := Nat.exists_eq_add_one_of_ne_zero (n := turns) (by
      rw [List.length_cons] at enough
      omega)
    have here : test data = some false := absent (p, data) List.mem_cons_self
    have further := inductionHypothesis p later
      (fun entry member => absent entry (List.mem_cons_of_mem _ member))
      (Nat.le_of_succ_le_succ enough)
    simp [findBehind, cell, here, further]

/-- The first entry that passes the test is found with the one in front of it. -/
theorem findBehind_first {front back : List (Ptr × α)} {q p : Ptr} {other data : α}
    {middle : Option Ptr} (start : cells.read q = some ⟨other, middle⟩)
    (segment : Segment cells middle (front ++ (p, data) :: back) none)
    (passed : ∀ entry ∈ front, test entry.2 = some false) (found : test data = some true)
    {turns : Nat} (enough : front.length < turns) :
    findBehind test cells turns q middle =
      some (some ((((q, other) :: front).getLast (by simp)).1, p)) := by
  induction front generalizing q other middle turns with
  | nil =>
    obtain ⟨rfl, next, cell, -⟩ := segment
    obtain ⟨turns, rfl⟩ := Nat.exists_eq_add_one_of_ne_zero (n := turns) (by omega)
    simp [findBehind, cell, found]
  | cons entry front inductionHypothesis =>
    obtain ⟨r, between⟩ := entry
    obtain ⟨rfl, next, cell, later⟩ := segment
    obtain ⟨turns, rfl⟩ := Nat.exists_eq_add_one_of_ne_zero (n := turns) (by omega)
    have here : test between = some false := passed (r, between) List.mem_cons_self
    have further := inductionHypothesis cell later
      (fun entry member => passed entry (List.mem_cons_of_mem _ member))
      (Nat.lt_of_succ_lt_succ enough)
    simp [findBehind, cell, here, further]

end Find

/-! ## Operations -/

section Operations

variable {list : LinkedList α} {entries front back : List (Ptr × α)} {p : Ptr} {data : α}

/-- The list without cells is linked. -/
theorem linked_empty : Linked (empty : LinkedList α) [] := ⟨rfl, Heap.owns_nil, rfl, rfl⟩

/-- An entry is the data of its cell. -/
theorem Linked.read (linked : list.Linked (front ++ (p, data) :: back)) :
    ∃ next, list.cells.read p = some ⟨data, next⟩ := by
  obtain ⟨_, -, -, next, cell, -⟩ := segment_append.mp linked.chain
  exact ⟨next, cell⟩

/-- The tail is missing exactly where there are no entries. -/
theorem Linked.tail_eq_none (linked : list.Linked entries) : list.tail = none ↔ entries = [] := by
  rw [linked.last, List.getLast?_eq_none_iff, List.map_eq_nil_iff]

/-- The head is missing exactly where there are no entries. -/
theorem Linked.head_eq_none (linked : list.Linked entries) : list.head = none ↔ entries = [] := by
  cases entries with
  | nil => exact iff_of_true linked.chain rfl
  | cons entry rest => exact iff_of_false (by simp [linked.chain.1]) nofun

/-- No more entries than cells. -/
theorem Linked.length_le (linked : list.Linked entries) : entries.length ≤ list.cells.length := by
  have bounded : entries.map Prod.fst ⊆ List.range list.cells.length := by
    intro q member
    obtain ⟨cell, live⟩ := linked.owned.live member
    exact List.mem_range.mpr (Heap.live_bound live)
  have shorter := List.Nodup.length_le_of_subset linked.owned.1 bounded
  rwa [List.length_map, List.length_range] at shorter

/-- The pointer of an entry is that of no other. -/
theorem Linked.apart (linked : list.Linked (front ++ (p, data) :: back)) :
    (∀ q ∈ front.map Prod.fst, q ≠ p) ∧ ∀ q ∈ back.map Prod.fst, q ≠ p := by
  have distinct := linked.owned.1
  rw [List.map_append, List.map_cons] at distinct
  obtain ⟨-, behind, across⟩ := List.pairwise_append.mp distinct
  obtain ⟨first, -⟩ := List.pairwise_cons.mp behind
  exact ⟨fun q member => across q member p List.mem_cons_self,
    fun q member same => first q member same.symm⟩

/-- Other data in a cell. -/
theorem Linked.setData {old : α} (linked : list.Linked (front ++ (p, old) :: back)) (data : α) :
    ∃ after, list.setData p data = some after ∧ after.Linked (front ++ (p, data) :: back) := by
  obtain ⟨ahead, behind⟩ := linked.apart
  obtain ⟨middle, first, rfl, next, cell, second⟩ := segment_append.mp linked.chain
  obtain ⟨cells, done, owned, written, others⟩ := linked.owned.write
    (p := p) (by simp) (⟨data, next⟩ : LinkedCell α)
  refine ⟨{ list with cells }, by simp [LinkedList.setData, cell, done], ?_, ?_, ?_, ?_⟩
  · exact segment_append.mpr ⟨some p, first.frame fun q member => others q (ahead q member),
      rfl, next, written, second.frame fun q member => others q (behind q member)⟩
  · simpa using owned
  · simpa using linked.last
  · simpa using linked.counted

/-- A new cell in front. -/
theorem Linked.pushFront (linked : list.Linked entries) (data : α) :
    (list.pushFront data).Linked ((list.cells.length, data) :: entries) where
  chain := by
    refine ⟨rfl, list.head, Heap.read_alloc _ _, linked.chain.frame fun q member => ?_⟩
    obtain ⟨cell, live⟩ := linked.owned.live member
    exact (Heap.alloc_extends _ _ q cell live).trans live.symm
  owned := linked.owned.alloc _
  last := by
    cases entries with
    | nil => simp [LinkedList.pushFront, linked.tail_eq_none.mpr rfl, Heap.alloc]
    | cons entry rest =>
      simp [LinkedList.pushFront, linked.last]
  counted := by simp [LinkedList.pushFront, linked.counted]

/-- A new cell behind. -/
theorem Linked.pushBack (linked : list.Linked entries) (data : α) :
    ∃ after, list.pushBack data = some after ∧
      after.Linked (entries ++ [(list.cells.length, data)]) := by
  have extended : ∀ q cell, list.cells.read q = some cell →
      (list.cells.alloc ⟨data, none⟩).2.read q = some cell := Heap.alloc_extends _ _
  have owns := linked.owned.alloc (⟨data, none⟩ : LinkedCell α)
  have fresh := Heap.read_alloc list.cells (⟨data, none⟩ : LinkedCell α)
  cases entries using List.reverseRecOn with
  | nil =>
    have missing := linked.tail_eq_none.mpr rfl
    refine ⟨⟨(list.cells.alloc ⟨data, none⟩).2, some list.cells.length, some list.cells.length,
      list.length + 1⟩, ?_, ⟨rfl, none, fresh, rfl⟩, owns, rfl, by simp [linked.counted]⟩
    simp only [LinkedList.pushBack, missing]
    rfl
  | append_singleton front entry =>
    obtain ⟨p, old⟩ := entry
    obtain ⟨ahead, -⟩ := linked.apart
    have tail : list.tail = some p := by simp [linked.last]
    obtain ⟨middle, first, rfl, next, cell, ended⟩ := segment_append.mp linked.chain
    obtain rfl : next = none := ended
    obtain ⟨cells, done, owned, written, others⟩ := owns.write (p := p) (by simp)
      (⟨old, some list.cells.length⟩ : LinkedCell α)
    have new : (list.cells.alloc (⟨data, none⟩ : LinkedCell α)).1 = list.cells.length := rfl
    have later : list.cells.length ≠ p := (Nat.ne_of_lt (Heap.live_bound cell)).symm
    refine ⟨{ list with cells, tail := some list.cells.length, length := list.length + 1 }, ?_, ?_,
      ?_, by simp, by simp [linked.counted]; omega⟩
    · simp only [LinkedList.pushBack, tail, extended p _ cell, Option.bind_eq_bind,
        Option.bind_some, new, done]
      rfl
    · rw [List.append_assoc]
      refine segment_append.mpr ⟨some p, first.frame fun q member => ?_, rfl, _, written, rfl, none,
        ?_, rfl⟩
      · obtain ⟨cell, live⟩ := linked.owned.live (p := q) (by simp [List.mem_map.mp member])
        rw [others q (ahead q member), extended q cell live, live]
      · exact (others _ later).trans fresh
    · refine owned.perm ?_
      simp only [List.map_append, List.map_cons, List.map_nil]
      exact (List.perm_append_singleton _ _).symm

/-- The first cell leaves the list. -/
theorem Linked.unlinkHead (linked : list.Linked ((p, data) :: entries)) :
    ∃ between after, list.unlinkHead p = some between ∧ between.dropCell p = some after ∧
      after.Linked entries := by
  have behind : ∀ q ∈ entries.map Prod.fst, q ≠ p := fun q member same =>
    (List.nodup_cons.mp linked.owned.1).1 (same ▸ member)
  obtain ⟨-, next, cell, second⟩ := linked.chain
  have owns : list.cells.Owns (p :: entries.map Prod.fst) := linked.owned
  obtain ⟨cells, done, owned, others⟩ := owns.free
  refine ⟨_, ⟨cells, next, if next = none then none else list.tail, list.length - 1⟩,
    by simp only [LinkedList.unlinkHead, cell, Option.bind_eq_bind, Option.bind_some]; rfl,
    by simp only [dropCell, done, Option.bind_eq_bind, Option.bind_some]; rfl,
    second.frame fun q member => others q (behind q member), owned, ?_, ?_⟩
  · cases entries with
    | nil =>
      obtain rfl : next = none := second
      rfl
    | cons entry rest =>
      obtain ⟨rfl, -⟩ := second
      simp [linked.last]
  · simp [linked.counted]

/-- A later cell leaves the list. -/
theorem Linked.unlinkBehind {q : Ptr} {other : α}
    (linked : list.Linked (front ++ (q, other) :: (p, data) :: back)) :
    ∃ between after, list.unlinkBehind q p = some between ∧ between.dropCell p = some after ∧
      after.Linked (front ++ (q, other) :: back) := by
  obtain ⟨aheadQ, behindQ⟩ := linked.apart
  have linked' := linked
  rw [show front ++ (q, other) :: (p, data) :: back = (front ++ [(q, other)]) ++ (p, data) :: back by
    simp] at linked'
  obtain ⟨aheadP, behindP⟩ := linked'.apart
  obtain ⟨middle, first, rfl, _, before, rfl, next, cell, second⟩ := segment_append.mp linked.chain
  obtain ⟨written, write, owned, new, others⟩ := linked.owned.write
    (p := q) (by simp) (⟨other, next⟩ : LinkedCell α)
  have moved : ((front ++ (q, other) :: (p, data) :: back).map Prod.fst).Perm
      (p :: (front ++ (q, other) :: back).map Prod.fst) := by
    have middle : ((front.map Prod.fst ++ [q]) ++ p :: back.map Prod.fst).Perm
        (p :: ((front.map Prod.fst ++ [q]) ++ back.map Prod.fst)) := List.perm_middle
    simpa using middle
  obtain ⟨cells, free, owned, others'⟩ := (owned.perm moved).free
  have apart : q ≠ p := aheadP q (by simp)
  refine ⟨_, ⟨cells, list.head, if next = none then some q else list.tail, list.length - 1⟩,
    by simp only [LinkedList.unlinkBehind, cell, before, write, Option.bind_eq_bind,
      Option.bind_some]; rfl,
    by simp only [dropCell, free, Option.bind_eq_bind, Option.bind_some]; rfl,
    segment_append.mpr ⟨some q, ?_, rfl, next, ?_, ?_⟩, owned, ?_, ?_⟩
  · refine first.frame fun r member => ?_
    rw [others' r (aheadP r (by simp [List.mem_map.mp member])), others r (aheadQ r member)]
  · rw [others' q apart, new]
  · refine second.frame fun r member => ?_
    rw [others' r (behindP r member), others r (behindQ r (by simp [List.mem_map.mp member]))]
  · cases back with
    | nil =>
      obtain rfl : next = none := second
      simp
    | cons entry rest =>
      obtain ⟨rfl, -⟩ := second
      simp [linked.last]
  · simp [linked.counted]
    omega

end Operations

end LinkedList

end Foundation

import Mathlib.Data.List.Forall2
import Mathlib.Data.List.Nodup
import Ezcfg.Foundation.SortedTable
import Ezcfg.RamNvram.Position

/-!
# Tables that hold a list of entries

`Lists` relates a table to the entries its live slots point at: each live node
owns two live blocks, and no block is owned twice. `Represents` also fixes the
value lengths. Nothing is said about the order of the names. Every operation is
then an operation on the list of entries, at the position the halving search
returns.

The slots behind the live ones are a parameter, so that the invariant in which
they are empty and the weaker one in which they are not are read off the same
lemmas.
-/

namespace Ezcfg.RamNvram

open Foundation
open Foundation.SortedTable (keys Sorted rank valueOf)

/-- A name with its value. -/
abbrev Entry := CString × CString

/-- The blocks a node owns. -/
def NvramNode.owned (np : NvramNode) : List Ptr := np.name.toList ++ np.value.toList

/-- The blocks a list of nodes owns. -/
def owned (nodes : List NvramNode) : List Ptr := nodes.flatMap NvramNode.owned

/-- A node whose two blocks are live and hold an entry. The value length kept in
the node is the size of the value block. -/
inductive Holds (memory : Memory) : NvramNode → Entry → Prop
  | intro {p q : Ptr} {name value : Block} {nlen vlen : Int}
      (nameLive : memory.read p = some name) (valueLive : memory.read q = some value)
      (room : value.text.length < value.size) (sized : vlen = value.size) :
      Holds memory ⟨some p, some q, nlen, vlen⟩ (name.text, value.text)

/-- A node whose two blocks are live and hold an entry, whatever lengths it keeps. -/
inductive Points (memory : Memory) : NvramNode → Entry → Prop
  | intro {p q : Ptr} {name value : Block} {nlen vlen : Int}
      (nameLive : memory.read p = some name) (valueLive : memory.read q = some value) :
      Points memory ⟨some p, some q, nlen, vlen⟩ (name.text, value.text)

/-- The live slots point at the entries; the slots behind them are `tail`. -/
structure Lists (ram : Ram) (live tail : List NvramNode) (entries : List Entry) : Prop where
  layout : ram.nvram.nodeList = live ++ tail
  used : ram.nvram.nodeListUsed = live.length
  points : List.Forall₂ (Points ram.memory) live entries
  distinct : (owned live).Nodup

/-- The live slots hold the entries; the slots behind them are `tail`. -/
structure Represents (ram : Ram) (live tail : List NvramNode) (entries : List Entry) : Prop where
  layout : ram.nvram.nodeList = live ++ tail
  used : ram.nvram.nodeListUsed = live.length
  holds : List.Forall₂ (Holds ram.memory) live entries
  distinct : (owned live).Nodup

theorem owned_append (first second : List NvramNode) :
    owned (first ++ second) = owned first ++ owned second := List.flatMap_append

theorem owned_cons (np : NvramNode) (rest : List NvramNode) :
    owned (np :: rest) = np.owned ++ owned rest := List.flatMap_cons

/-- The node keeps the lengths of an entry's strings with their terminators. -/
def Measures (np : NvramNode) (entry : Entry) : Prop :=
  np.nlen = (entry.1.length : Int) + 1 ∧ np.vlen = (entry.2.length : Int) + 1

/-- The lengths that nodes keep, added up. -/
def spaceOf : List NvramNode → Int
  | [] => 0
  | np :: rest => np.nlen + np.vlen + spaceOf rest

/-- The live slots keep the lengths of the entries, and the table keeps their sum. -/
structure Accounts (ram : Ram) (live : List NvramNode) (entries : List Entry) : Prop where
  lengths : List.Forall₂ Measures live entries
  total : ram.nvram.totalSpaceUsed = BitVec.ofInt 32 (spaceOf live)

/-- The node in the middle can be added up first. -/
theorem spaceOf_middle (first second : List NvramNode) (np : NvramNode) :
    spaceOf (first ++ np :: second) = spaceOf (first ++ second) + np.nlen + np.vlen := by
  induction first with
  | nil =>
    rw [List.nil_append, List.nil_append, spaceOf]
    omega
  | cons head rest inductionHypothesis =>
    rw [List.cons_append, List.cons_append, spaceOf, spaceOf, inductionHypothesis]
    omega

/-- A total that was right is right again after a node has been added to it. -/
theorem spaceOf_filled {first second : List NvramNode} {total : BitVec 32}
    (right : total = BitVec.ofInt 32 (spaceOf (first ++ second))) (np : NvramNode) :
    total + BitVec.ofInt 32 np.nlen + BitVec.ofInt 32 np.vlen =
      BitVec.ofInt 32 (spaceOf (first ++ np :: second)) := by
  rw [spaceOf_middle, BitVec.ofInt_add, BitVec.ofInt_add, right]

/-- A total that was right is right again after a node has been taken from it. -/
theorem spaceOf_removed {first second : List NvramNode} {np : NvramNode} {total : BitVec 32}
    (right : total = BitVec.ofInt 32 (spaceOf (first ++ np :: second))) :
    total - BitVec.ofInt 32 np.nlen - BitVec.ofInt 32 np.vlen =
      BitVec.ofInt 32 (spaceOf (first ++ second)) := by
  rw [right, spaceOf_middle, BitVec.ofInt_add, BitVec.ofInt_add, BitVec.sub_sub, BitVec.add_assoc,
    BitVec.add_sub_cancel]

/-- A total that was right is right again after the value length of a node has changed. -/
theorem spaceOf_changed {first second : List NvramNode} {p q r : Option Ptr} {nlen old new : Int}
    {total : BitVec 32}
    (right : total = BitVec.ofInt 32 (spaceOf (first ++ ⟨p, q, nlen, old⟩ :: second))) :
    total - BitVec.ofInt 32 old + BitVec.ofInt 32 new =
      BitVec.ofInt 32 (spaceOf (first ++ ⟨p, r, nlen, new⟩ :: second)) := by
  rw [right, spaceOf_middle, spaceOf_middle, BitVec.ofInt_add, BitVec.ofInt_add, BitVec.ofInt_add,
    BitVec.ofInt_add, BitVec.add_sub_cancel]

/-- The lengths of a table in two parts with a node between them. -/
theorem Accounts.cut {ram : Ram} {before behind : List NvramNode} {np : NvramNode}
    {first second : List Entry} {entry : Entry}
    (accounts : Accounts ram (before ++ np :: behind) (first ++ entry :: second))
    (same : before.length = first.length) :
    List.Forall₂ Measures before first ∧ Measures np entry ∧
      List.Forall₂ Measures behind second := by
  have lower := List.forall₂_take before.length accounts.lengths
  have upper := List.forall₂_drop before.length accounts.lengths
  rw [List.take_left, same, List.take_left] at lower
  rw [List.drop_left, same, List.drop_left] at upper
  cases upper with
  | cons here rest => exact ⟨lower, here, rest⟩

/-- A node that holds an entry points at it. -/
theorem Holds.points {memory : Memory} {np : NvramNode} {entry : Entry}
    (holds : Holds memory np entry) : Points memory np entry := by
  cases holds with
  | intro nameLive valueLive _ _ => exact .intro nameLive valueLive

/-- What holds entries points at them. -/
theorem Represents.lists {ram : Ram} {live tail : List NvramNode} {entries : List Entry}
    (image : Represents ram live tail entries) : Lists ram live tail entries :=
  ⟨image.layout, image.used, image.holds.imp fun _ _ => Holds.points, image.distinct⟩

/-- Blocks of nodes that point at entries are live. -/
theorem owned_live {memory : Memory} {nodes : List NvramNode} {entries : List Entry}
    (points : List.Forall₂ (Points memory) nodes entries) (p : Ptr) (member : p ∈ owned nodes) :
    ∃ block, memory.read p = some block := by
  induction points with
  | nil => simp [owned] at member
  | cons here _ inductionHypothesis =>
    rw [owned_cons, List.mem_append] at member
    rcases member with inHead | inTail
    · cases here with
      | intro nameLive valueLive =>
        simp only [NvramNode.owned, Option.toList_some, List.cons_append, List.nil_append,
          List.mem_cons, List.not_mem_nil, or_false] at inHead
        rcases inHead with rfl | rfl
        · exact ⟨_, nameLive⟩
        · exact ⟨_, valueLive⟩
    · exact inductionHypothesis inTail

/-- A change of memory outside the owned blocks keeps what nodes hold. -/
theorem holds_frame {memory after : Memory} {nodes : List NvramNode} {entries : List Entry}
    (holds : List.Forall₂ (Holds memory) nodes entries)
    (unchanged : ∀ p ∈ owned nodes, ∀ block, memory.read p = some block →
      after.read p = some block) :
    List.Forall₂ (Holds after) nodes entries := by
  induction holds with
  | nil => exact .nil
  | cons here _ inductionHypothesis =>
    rw [owned_cons] at unchanged
    refine .cons ?_ (inductionHypothesis fun p member =>
      unchanged p (List.mem_append_right _ member))
    cases here with
    | intro nameLive valueLive room sized =>
      refine .intro (unchanged _ ?_ _ nameLive) (unchanged _ ?_ _ valueLive) room sized <;>
        simp [NvramNode.owned]

/-- How the search compares slot `i` with a name. -/
def Represents.verdict (entries : List Entry) (name : CString) (i : Nat) : Ordering :=
  match entries[i]? with
  | some entry => strcmp entry.1 name
  | none => .eq

/-- A node that points at an entry has that entry's name. -/
theorem nameText_of_points {memory : Memory} {np : NvramNode} {entry : Entry}
    (points : Points memory np entry) : np.nameText memory = some entry.1 := by
  cases points with
  | intro nameLive _ => simp [NvramNode.nameText, nameLive]

namespace Lists

open Represents (verdict)

variable {ram : Ram} {live tail : List NvramNode} {entries : List Entry}

/-- As many live slots as entries. -/
theorem length_eq (image : Lists ram live tail entries) : live.length = entries.length :=
  image.points.length_eq

theorem used_eq (image : Lists ram live tail entries) :
    ram.nvram.nodeListUsed = entries.length := image.used.trans image.length_eq

theorem size_eq (image : Lists ram live tail entries) :
    ram.nvram.nodeListSize = entries.length + tail.length := by
  rw [Nvram.nodeListSize, image.layout, List.length_append, image.length_eq]

/-- Live slot `i` reads the name of entry `i`. -/
theorem nodeName_eq (image : Lists ram live tail entries) {i : Nat} {entry : Entry}
    (held : entries[i]? = some entry) : nodeName ram i = some entry.1 := by
  obtain ⟨bound, exact⟩ := List.getElem?_eq_some_iff.mp held
  have liveBound : i < live.length := image.length_eq ▸ bound
  have here := image.points.get liveBound bound
  simp only [List.get_eq_getElem, exact] at here
  simp only [nodeName, image.layout, List.getElem?_append_left liveBound,
    List.getElem?_eq_getElem liveBound, Option.bind_eq_bind, Option.bind_some]
  exact nameText_of_points here

/-- The names of the live slots are the names of the entries. -/
theorem liveNames_eq (image : Lists ram live tail entries) :
    ram.liveNames = some (keys entries) := by
  have taken : ram.nvram.nodeList.take ram.nvram.nodeListUsed = live := by
    rw [image.layout, image.used, List.take_left]
  rw [Ram.liveNames, taken]
  have points := image.points
  clear image taken
  induction points with
  | nil => rfl
  | cons here _ inductionHypothesis =>
    simp [nameText_of_points here, inductionHypothesis, keys]

/-- The slots in use have the names of the entries. -/
theorem named (image : Lists ram live tail entries) : Named ram (keys entries) where
  used := by rw [SortedTable.keys_length, image.used_eq]
  slot := by
    intro i name held
    rw [keys, List.getElem?_map] at held
    obtain ⟨entry, here, rfl⟩ := Option.map_eq_some_iff.mp held
    exact image.nodeName_eq here

/-- Slots compare by the names of the entries. -/
theorem verdict_eq (entries : List Entry) (name : CString) :
    verdict entries name = probe (keys entries) name := by
  funext i
  rw [verdict, probe, keys, List.getElem?_map]
  cases entries[i]? <;> rfl

/-- The search of a represented table, as the halving of its entries. -/
theorem find_eq (image : Lists ram live tail entries) (name : CString) :
    findNvramEntryPosition ram name =
      some (((halving (verdict entries name) (entries.length + 1) 0 entries.length
          (entries.length / 2)).1 : Int),
        (halving (verdict entries name) (entries.length + 1) 0 entries.length
          (entries.length / 2)).2) := by
  have searched := image.named.find_eq name
  rw [SortedTable.keys_length, ← verdict_eq] at searched
  exact searched

/-- A present name is found exactly when the halving reaches its slot, and then
at its rank. -/
theorem find_present (image : Lists ram live tail entries) (sorted : Sorted entries)
    {name : CString} (present : name ∈ keys entries) :
    (Probed 0 entries.length (rank (keys entries) name) →
      findNvramEntryPosition ram name = some ((rank (keys entries) name : Int), true)) ∧
    (¬ Probed 0 entries.length (rank (keys entries) name) →
      ∃ i : Int, findNvramEntryPosition ram name = some (i, false)) := by
  have found := image.named.find_present sorted present
  rw [SortedTable.keys_length] at found
  exact found

/-- An absent name is never found, and its insertion point is returned when the
halving lands on it. -/
theorem find_absent (image : Lists ram live tail entries) (sorted : Sorted entries)
    {name : CString} (absent : name ∉ keys entries) :
    (∃ i : Int, findNvramEntryPosition ram name = some (i, false)) ∧
    (Lands 0 entries.length (rank (keys entries) name) →
      findNvramEntryPosition ram name = some ((rank (keys entries) name : Int), false)) := by
  obtain ⟨i, missed, point⟩ := image.named.find_absent sorted absent
  constructor
  · exact ⟨i, missed⟩
  · intro lands
    rw [← SortedTable.keys_length] at lands
    rw [missed, point.mpr (.inr lands)]

/-- The search misses a name that is absent or whose slot is not reached. -/
theorem find_missed (image : Lists ram live tail entries) (sorted : Sorted entries)
    {name : CString}
    (lost : ¬ (name ∈ keys entries ∧ Probed 0 entries.length (rank (keys entries) name))) :
    ∃ i : Int, findNvramEntryPosition ram name = some (i, false) := by
  by_cases present : name ∈ keys entries
  · exact (image.find_present sorted present).2 fun probed => lost ⟨present, probed⟩
  · exact (image.find_absent sorted present).1

end Lists

/-- A full table of positive size has entries. -/
theorem Represents.in_use {ram : Ram} {live : List NvramNode} {entries : List Entry}
    (image : Represents ram live [] entries) (positive : 0 < ram.nvram.nodeListSize) :
    entries ≠ [] := by
  rintro rfl
  rw [image.lists.size_eq] at positive
  exact Nat.lt_irrefl 0 positive

end Ezcfg.RamNvram

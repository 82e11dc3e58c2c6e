import Ezcfg.Foundation.SortedTable
import Ezcfg.MetaNvram.Buffer

/-!
# Buffers that hold a list of entries

Entries are names with the bytes stored behind the separator: the value, and in
front of it the separators that pad an entry which was longer before. `Represents`
relates a buffer to the entries packed in it.

The search compares a name with whole entries, separator included. It passes an
entry exactly when the name is above the entry's name, except where the entry's
name is a proper prefix of the wanted one and the next byte is below the
separator: there it stops early. `misleads` is that exception, and without it the
search is the search for a rank.
-/

namespace Ezcfg.MetaNvram

open Foundation
open Foundation.ByteArea (stringAt write memmove pack)
open Foundation.SortedTable (keys Sorted rank)

/-- What the buffer takes for a name: a nonempty string without a separator. -/
def IsName (s : CString) : Prop := s.bytes ≠ [] ∧ equals ∉ s.bytes

instance (s : CString) : Decidable (IsName s) :=
  inferInstanceAs (Decidable (s.bytes ≠ [] ∧ equals ∉ s.bytes))

/-- Names, in the order of `strcmp`. -/
abbrev Name := {s : CString // IsName s}

/-- A value with the separators that fill up its entry. -/
structure Stored where
  pad : Nat
  value : CString
deriving DecidableEq

/-- The bytes behind the separator of an entry. -/
def Stored.bytes (stored : Stored) : List UInt8 :=
  List.replicate stored.pad equals ++ stored.value.bytes

abbrev Entry := Name × Stored

/-- The string an entry is stored as. -/
def Entry.text (entry : Entry) : List UInt8 := entry.1.val.bytes ++ equals :: entry.2.bytes

/-- The strings of a list of entries. -/
def texts (entries : List Entry) : List (List UInt8) := entries.map Entry.text

/-- The bytes that entries take, without the final terminator. -/
def extent (entries : List Entry) : Nat := (pack (texts entries)).length

/-- The buffer starts with the packed entries and a terminator. Before anything was
set the counter is zero and the data area is clear; otherwise it counts these
bytes. -/
structure Represents (buffer : Buffer) (entries : List Entry) : Prop where
  layout : ∃ junk, buffer.data = pack (texts entries) ++ 0 :: junk
  used : buffer.dataUsed = extent entries + 1 ∨
    (buffer.dataUsed = 0 ∧ entries = [] ∧ ∀ byte ∈ buffer.data, byte = 0)
  addressable : buffer.data.length < 2 ^ 31

@[simp] theorem texts_nil : texts [] = [] := rfl

@[simp] theorem texts_append (first second : List Entry) :
    texts (first ++ second) = texts first ++ texts second := List.map_append

@[simp] theorem texts_cons (entry : Entry) (rest : List Entry) :
    texts (entry :: rest) = entry.text :: texts rest := rfl

theorem extent_append (first second : List Entry) :
    extent (first ++ second) = extent first + extent second := by
  simp [extent]

theorem extent_cons (entry : Entry) (rest : List Entry) :
    extent (entry :: rest) = entry.text.length + 1 + extent rest := by
  simp only [extent, texts_cons, ByteArea.pack_cons, List.length_append, List.length_cons]
  omega

/-- Entries contain no terminator. -/
theorem text_nonul (entry : Entry) : (0 : UInt8) ∉ entry.text := by
  obtain ⟨⟨name, named⟩, pad, value⟩ := entry
  simp only [Entry.text, Stored.bytes, List.mem_append, List.mem_cons, List.mem_replicate, not_or]
  refine ⟨name.nonul, by decide, ?_, value.nonul⟩
  rintro ⟨-, same⟩
  exact absurd same (by decide)

/-- There are no more entries than bytes they take. -/
theorem length_le_extent (entries : List Entry) : entries.length ≤ extent entries := by
  induction entries with
  | nil => exact Nat.zero_le _
  | cons entry rest inductionHypothesis =>
    rw [extent_cons, List.length_cons]
    omega

/-- The first string is a proper prefix of the second, which goes on with a byte
below the separator. -/
def misleads : List UInt8 → List UInt8 → Bool
  | [], [] => false
  | [], byte :: _ => byte < equals
  | _ :: _, [] => false
  | x :: xs, y :: ys => x == y && misleads xs ys

/-- Some stored name misleads the search for a name. -/
def Misled (entries : List Entry) (name : Name) : Prop :=
  ∃ stored ∈ keys entries, misleads stored.val.bytes name.val.bytes = true

instance (entries : List Entry) (name : Name) : Decidable (Misled entries name) :=
  inferInstanceAs (Decidable (∃ stored ∈ keys entries, _))

/-- A name that misleads is below the misled one. -/
theorem lt_of_misleads (stored name : List UInt8) (misled : misleads stored name = true) :
    strcmp stored name = .lt := by
  induction stored generalizing name with
  | nil =>
    cases name with
    | nil => simp [misleads] at misled
    | cons => rfl
  | cons x xs inductionHypothesis =>
    cases name with
    | nil => simp [misleads] at misled
    | cons y ys =>
      simp only [misleads, Bool.and_eq_true, beq_iff_eq] at misled
      obtain ⟨rfl, later⟩ := misled
      simp [strcmp, inductionHypothesis ys later]

/-- Comparing a name with an entry of the same name finds no difference, and the
separator behind it. -/
theorem probe_hit (name rest : List UInt8) :
    strncmp name.length name (name ++ equals :: rest) = .eq ∧
      (name ++ equals :: rest)[name.length]? = some equals := by
  constructor
  · exact (strncmp_length_eq_iff _ _).mpr (List.prefix_append _ _)
  · simp

/-- A name above the name of an entry passes it, unless it is misled. -/
theorem probe_pass (name stored rest : List UInt8) (free : equals ∉ name)
    (above : strcmp stored name = .lt) (straight : misleads stored name = false) :
    strncmp name.length name (stored ++ equals :: rest) = .gt := by
  induction name generalizing stored with
  | nil => cases stored <;> simp [strcmp] at above
  | cons y ys inductionHypothesis =>
    simp only [List.mem_cons, not_or] at free
    cases stored with
    | nil =>
      simp only [misleads, decide_eq_false_iff_not] at straight
      have larger : equals < y :=
        UInt8.lt_of_le_of_ne (UInt8.not_lt.mp straight) free.1
      simp [strncmp, straight, larger]
    | cons x xs =>
      simp only [strcmp] at above
      simp only [misleads, Bool.and_eq_false_iff, beq_eq_false_iff_ne] at straight
      simp only [List.cons_append, List.length_cons, strncmp]
      split at above
      · rename_i below
        rw [if_neg (UInt8.not_lt.mpr (UInt8.le_of_lt below)), if_pos below]
      · split at above
        · cases above
        · rename_i notBelow notAbove
          have same : x = y := byte_eq_of_not_lt notBelow notAbove
          rw [if_neg notAbove, if_neg notBelow]
          exact inductionHypothesis xs free.2 above (straight.resolve_left fun other => other same)

/-- Elsewhere the search stops without a hit: in front of a larger name, or misled. -/
theorem probe_stop (name stored rest : List UInt8) (free : equals ∉ name)
    (different : stored ≠ name)
    (stops : strcmp name stored = .lt ∨ misleads stored name = true) :
    strncmp name.length name (stored ++ equals :: rest) = .lt ∨
      (strncmp name.length name (stored ++ equals :: rest) = .eq ∧ name.length < stored.length ∧
        ∃ byte ∈ stored, (stored ++ equals :: rest)[name.length]? = some byte) := by
  induction name generalizing stored with
  | nil =>
    cases stored with
    | nil => exact absurd rfl different
    | cons x xs => exact .inr ⟨rfl, by simp, x, by simp⟩
  | cons y ys inductionHypothesis =>
    simp only [List.mem_cons, not_or] at free
    cases stored with
    | nil =>
      have smaller : y < equals := by simpa [strcmp, misleads] using stops
      simp [strncmp, smaller]
    | cons x xs =>
      simp only [List.cons_append, List.length_cons, strncmp]
      by_cases below : y < x
      · simp [below]
      · by_cases above : x < y
        · have apart : x ≠ y := UInt8.ne_of_lt above
          simp [strcmp, below, above, misleads, apart] at stops
        · have same : x = y := byte_eq_of_not_lt above below
          subst same
          simp only [below, if_false]
          have others : xs ≠ ys := fun equal => different (by rw [equal])
          have later : strcmp ys xs = .lt ∨ misleads xs ys = true := by
            simpa [strcmp, misleads] using stops
          rcases inductionHypothesis xs free.2 others later with smaller |
            ⟨equal, shorter, byte, member, held⟩
          · exact .inl smaller
          · exact .inr ⟨equal, Nat.succ_lt_succ shorter, byte, List.mem_cons_of_mem _ member, by
              simpa using held⟩

/-- The search on the entries themselves: the index where it stops, and whether it
hit. -/
def scan (name : Name) : List Entry → Nat × Bool
  | [] => (0, false)
  | entry :: rest =>
    if entry.1 = name then (0, true)
    else if name < entry.1 ∨ misleads entry.1.val.bytes name.val.bytes = true then (0, false)
    else ((scan name rest).1 + 1, (scan name rest).2)

/-- The search of packed entries is the scan of the entries: each turn of the loop
passes one of them. -/
theorem findLoop_eq (name : Name) (before entries : List Entry) (junk : List UInt8) (fuel : Nat)
    (enough : entries.length < fuel) :
    findLoop (pack (texts before) ++ (pack (texts entries) ++ 0 :: junk)) name.val.bytes fuel
        (extent before) =
      some (extent (before ++ entries.take (scan name entries).1), (scan name entries).2) := by
  induction entries generalizing before fuel with
  | nil =>
    obtain _ | fuel := fuel
    · cases enough
    · have here := ByteArea.stringAt_between (pack (texts before)) [] junk List.not_mem_nil
      rw [List.append_nil] at here
      simp [findLoop, here, extent, scan]
  | cons entry rest inductionHypothesis =>
    obtain _ | fuel := fuel
    · cases enough
    obtain ⟨nonempty, free⟩ := name.property
    have here := ByteArea.stringAt_between (pack (texts before)) entry.text
      (pack (texts rest) ++ 0 :: junk) (text_nonul entry)
    have area : pack (texts before) ++ (pack (texts (entry :: rest)) ++ 0 :: junk) =
        pack (texts before) ++ entry.text ++ 0 :: (pack (texts rest) ++ 0 :: junk) := by simp
    have filled : entry.text ≠ [] := by simp [Entry.text]
    have inside : ∀ k, k < entry.text.length → ∀ after : List UInt8,
        (pack (texts before) ++ (entry.text ++ after))[(pack (texts before)).length + k]? =
          entry.text[k]? := by
      intro k shorter after
      rw [List.getElem?_append_right (Nat.le_add_right _ _),
        Nat.add_sub_cancel_left, List.getElem?_append_left shorter]
    rw [area, findLoop]
    simp only [extent, here, Option.bind_eq_bind, Option.bind_some, filled, if_false]
    by_cases same : entry.1 = name
    · obtain ⟨compared, held⟩ := probe_hit name.val.bytes entry.2.bytes
      have shape : entry.text = name.val.bytes ++ equals :: entry.2.bytes := by
        rw [Entry.text, same]
      have longer : name.val.bytes.length < entry.text.length := by simp [shape]
      rw [← shape] at compared held
      simp [compared, Nat.lt_succ_of_lt longer, inside _ longer, held, scan, same]
    · have different : entry.1.val.bytes ≠ name.val.bytes := fun equal =>
        same (Subtype.ext (CString.ext equal))
      by_cases stops : name < entry.1 ∨ misleads entry.1.val.bytes name.val.bytes = true
      · have stopped : scan name (entry :: rest) = (0, false) := by
          rw [scan, if_neg same, if_pos stops]
        rw [stopped]
        rcases probe_stop name.val.bytes entry.1.val.bytes entry.2.bytes free different stops with
          smaller | ⟨equal, shorter, byte, member, held⟩
        · rw [← Entry.text] at smaller
          simp [smaller]
        · rw [← Entry.text] at equal held
          have longer : name.val.bytes.length < entry.text.length := by
            simp only [Entry.text, List.length_append, List.length_cons]
            omega
          have other : byte ≠ equals := by
            rintro rfl
            exact entry.1.property.2 member
          simp [equal, Nat.lt_succ_of_lt longer, inside _ longer, held, other]
      · obtain ⟨notBelow, straight⟩ := not_or.mp stops
        have above : entry.1 < name := lt_of_le_of_ne (not_lt.mp notBelow) same
        have passed := probe_pass name.val.bytes entry.1.val.bytes entry.2.bytes free above
          (by simpa using straight)
        rw [← Entry.text] at passed
        have next := inductionHypothesis (before ++ [entry]) fuel
          (by simpa using enough)
        have position : extent (before ++ [entry]) =
            (pack (texts before)).length + (entry.text.length + 1) := by
          rw [extent_append, extent_cons]
          rfl
        have reached : extent (before ++ [entry] ++ rest.take (scan name rest).1) =
            extent (before ++ (entry :: rest).take ((scan name rest).1 + 1)) := by simp
        rw [position, reached] at next
        rw [scan, if_neg same, if_neg stops, passed]
        simpa only [extent, texts_append, texts_cons, texts_nil, ByteArea.pack_append, ByteArea.pack_cons,
          ByteArea.pack_nil, List.append_assoc, List.cons_append, List.nil_append] using next

/-- A scan stops at an entry or behind the last one. -/
theorem scan_bound (name : Name) (entries : List Entry) :
    (scan name entries).1 ≤ entries.length := by
  induction entries with
  | nil => exact Nat.le_refl _
  | cons entry rest inductionHypothesis =>
    rw [scan]
    split
    · exact Nat.zero_le _
    · split
      · exact Nat.zero_le _
      · exact Nat.succ_le_succ inductionHypothesis

/-- A scan that hits is at an entry of the wanted name. -/
theorem scan_hit {name : Name} {entries : List Entry} {i : Nat}
    (hit : scan name entries = (i, true)) :
    ∃ stored, entries[i]? = some (name, stored) := by
  induction entries generalizing i with
  | nil => simp [scan] at hit
  | cons entry rest inductionHypothesis =>
    simp only [scan] at hit
    split at hit
    · rename_i same
      obtain ⟨rfl, -⟩ := Prod.mk.inj hit
      exact ⟨entry.2, by rw [List.getElem?_cons_zero, ← same]⟩
    · split at hit
      · cases hit
      · obtain ⟨rfl, found⟩ := Prod.mk.inj hit
        obtain ⟨stored, held⟩ := inductionHypothesis (Prod.ext rfl found)
        exact ⟨stored, by rw [List.getElem?_cons_succ, held]⟩

/-- A scan that is not misled stops at the rank of the name, and hits exactly when
the name is present. -/
theorem scan_straight {name : Name} {entries : List Entry} (sorted : Sorted entries)
    (straight : ¬ Misled entries name) :
    scan name entries = (rank (keys entries) name, decide (name ∈ keys entries)) := by
  induction entries with
  | nil => rfl
  | cons entry rest inductionHypothesis =>
    obtain ⟨lowest, restSorted⟩ := List.pairwise_cons.mp sorted
    have behind : ¬ Misled rest name := fun ⟨stored, member, misled⟩ =>
      straight ⟨stored, List.mem_cons_of_mem _ member, misled⟩
    have here : ¬ misleads entry.1.val.bytes name.val.bytes = true := fun misled =>
      straight ⟨entry.1, List.mem_cons_self, misled⟩
    have none_below : ¬ entry.1 < name → rank (keys (entry :: rest)) name = 0 := by
      intro above
      refine List.countP_eq_zero.mpr fun other member => ?_
      rcases List.mem_cons.mp member with rfl | later
      · simpa using above
      · simpa using (not_lt.mp above).trans (lowest other later).le
    by_cases same : entry.1 = name
    · rw [scan, if_pos same, none_below (by rw [same]; exact lt_irrefl _)]
      simp [keys, same]
    · by_cases smaller : name < entry.1
      · have absent : name ∉ keys (entry :: rest) := by
          intro member
          rcases List.mem_cons.mp member with rfl | later
          · exact same rfl
          · exact lt_asymm smaller (lowest name later)
        rw [scan, if_neg same, if_pos (.inl smaller), none_below (lt_asymm smaller),
          decide_eq_false absent]
      · have above : entry.1 < name := lt_of_le_of_ne (not_lt.mp smaller) same
        have counted : rank (keys (entry :: rest)) name = rank (keys rest) name + 1 := by
          simp [rank, keys, above]
        have member : name ∈ keys (entry :: rest) ↔ name ∈ keys rest := by
          simp [keys, Ne.symm same]
        rw [scan, if_neg same, if_neg (not_or.mpr ⟨smaller, here⟩),
          inductionHypothesis restSorted behind, counted]
        simp only [member]

/-- A misled scan never hits: what misleads it comes before the wanted name. -/
theorem scan_misled {name : Name} {entries : List Entry} (sorted : Sorted entries)
    (misled : Misled entries name) : (scan name entries).2 = false := by
  induction entries with
  | nil => rfl
  | cons entry rest inductionHypothesis =>
    obtain ⟨lowest, restSorted⟩ := List.pairwise_cons.mp sorted
    obtain ⟨stored, member, wrong⟩ := misled
    have below : stored < name := lt_of_misleads _ _ wrong
    have different : entry.1 ≠ name := by
      rintro rfl
      rcases List.mem_cons.mp member with rfl | later
      · exact lt_irrefl _ below
      · exact lt_asymm below (lowest stored later)
    rw [scan, if_neg different]
    split
    · rfl
    · rename_i passed
      rcases List.mem_cons.mp member with rfl | later
      · exact absurd (.inr wrong) passed
      · exact inductionHypothesis restSorted ⟨stored, later, wrong⟩

namespace Represents

variable {buffer : Buffer} {entries : List Entry}

/-- The search of a buffer is the scan of its entries. -/
theorem find_eq (image : Represents buffer entries) (name : Name) :
    findNvramEntryPosition buffer name.val =
      some (extent (entries.take (scan name entries).1), (scan name entries).2) := by
  obtain ⟨junk, layout⟩ := image.layout
  have counted := length_le_extent entries
  have bound : entries.length < buffer.data.length := by
    rw [layout, List.length_append, List.length_cons]
    rw [extent] at counted
    omega
  have searched := findLoop_eq name [] entries junk buffer.data.length bound
  rw [findNvramEntryPosition]
  rw [layout] at searched ⊢
  simpa [extent] using searched

/-- The search finds a present name at the offset of its rank unless it is misled. -/
theorem find_straight (image : Represents buffer entries) (sorted : Sorted entries)
    {name : Name} (straight : ¬ Misled entries name) :
    findNvramEntryPosition buffer name.val =
      some (extent (entries.take (rank (keys entries) name)), decide (name ∈ keys entries)) := by
  rw [image.find_eq, scan_straight sorted straight]

/-- The search misses a name that is absent or misled. -/
theorem find_missed (image : Represents buffer entries) (sorted : Sorted entries)
    {name : Name} (lost : name ∈ keys entries → Misled entries name) :
    ∃ i ≤ entries.length,
      findNvramEntryPosition buffer name.val = some (extent (entries.take i), false) := by
  refine ⟨(scan name entries).1, scan_bound name entries, ?_⟩
  rw [image.find_eq]
  by_cases present : name ∈ keys entries
  · rw [scan_misled sorted (lost present)]
  · cases hit : (scan name entries).2 with
    | false => rfl
    | true =>
      obtain ⟨stored, held⟩ := scan_hit (Prod.ext rfl hit)
      exact absurd (List.mem_map_of_mem (List.mem_of_getElem? held)) present

end Represents

end Ezcfg.MetaNvram

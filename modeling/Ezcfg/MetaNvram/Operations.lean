import Ezcfg.MetaNvram.Updates

/-!
# The operations on a buffer of increasing names

One specification for each function of the source, on the entries the buffer
holds. `needed` is the number of bytes that the other entries as they are stored,
the new entry and the final terminator take; it is read off the packed strings,
not off the search. A set that is not misled succeeds exactly when this many bytes
are there.
-/

namespace Ezcfg.MetaNvram

open Foundation
open Foundation.ByteArea (stringAt write memmove pack unpack)
open Foundation.SortedTable (keys Sorted rank valueOf)

/-- The packed strings of a buffer. -/
def Buffer.strings (buffer : Buffer) : List (List UInt8) :=
  unpack buffer.data.length buffer.data

/-- The bytes in front of the separator. -/
def nameBytes (s : List UInt8) : List UInt8 := s.takeWhile (· ≠ equals)

/-- The names stored in a buffer. -/
def Buffer.names (buffer : Buffer) : List (List UInt8) := buffer.strings.map nameBytes

/-- What a set has to make room for: the entries of the other names, the new entry
and the final terminator. -/
def needed (buffer : Buffer) (name : Name) (value : CString) : Nat :=
  (pack (buffer.strings.filter fun s => nameBytes s ≠ name.val.bytes)).length +
    entrySize name value + 1

/-- The name in front of the separator of an entry is the name of the entry. -/
theorem nameBytes_text (entry : Entry) : nameBytes entry.text = entry.1.val.bytes := by
  obtain ⟨⟨name, named⟩, stored⟩ := entry
  have free : ∀ byte ∈ name.bytes, decide (byte ≠ equals) = true := by
    intro byte member
    rw [decide_eq_true_eq]
    rintro rfl
    exact named.2 member
  rw [nameBytes, Entry.text, List.takeWhile_append_of_pos free]
  simp

namespace Represents

variable {buffer : Buffer} {entries : List Entry}

/-- The strings of a represented buffer are those of its entries. -/
theorem strings_eq (image : Represents buffer entries) : buffer.strings = texts entries := by
  obtain ⟨junk, layout⟩ := image.layout
  have counted := length_le_extent entries
  have enough : (texts entries).length < buffer.data.length := by
    rw [layout, List.length_append, List.length_cons, ← extent, texts, List.length_map]
    omega
  rw [Buffer.strings]
  rw [layout] at enough ⊢
  refine ByteArea.unpack_pack _ junk _ ?_ enough
  intro s member
  obtain ⟨entry, -, rfl⟩ := List.mem_map.mp member
  exact ⟨by simp [Entry.text], text_nonul entry⟩

/-- The names of a represented buffer are those of its entries. -/
theorem names_eq (image : Represents buffer entries) :
    buffer.names = (keys entries).map fun name => name.val.bytes := by
  rw [Buffer.names, image.strings_eq, texts, keys, List.map_map, List.map_map]
  exact List.map_congr_left fun entry _ => nameBytes_text entry

/-- The entries of other names are kept by the filter, the entry of the name is not. -/
theorem needed_eq (image : Represents buffer entries) (name : Name) (value : CString) :
    needed buffer name value =
      extent (entries.filter fun entry => entry.1 ≠ name) + entrySize name value + 1 := by
  have kept : (texts entries).filter (fun s => decide (nameBytes s ≠ name.val.bytes)) =
      texts (entries.filter fun entry => decide (entry.1 ≠ name)) := by
    rw [texts, List.filter_map]
    congr 1
    refine List.filter_congr fun entry _ => ?_
    rw [Function.comp_apply, nameBytes_text]
    have same : entry.1.val.bytes = name.val.bytes ↔ entry.1 = name :=
      ⟨fun equal => Subtype.ext (CString.ext equal), fun equal => by rw [equal]⟩
    simp [same]
  rw [needed, image.strings_eq, kept, extent]

/-- What is needed around the entry of a present name. -/
theorem needed_present (image : Represents buffer entries) {first second : List Entry}
    {name : Name} {old : Stored} (parts : entries = first ++ (name, old) :: second)
    (before : name ∉ keys first) (behind : name ∉ keys second) (value : CString) :
    needed buffer name value = extent (first ++ (name, .plain value) :: second) + 1 := by
  have others : ∀ part : List Entry, name ∉ keys part →
      part.filter (fun entry => decide (entry.1 ≠ name)) = part := by
    intro part absent
    refine List.filter_eq_self.mpr fun entry member => ?_
    rw [decide_eq_true_eq]
    rintro rfl
    exact absent (List.mem_map_of_mem member)
  rw [image.needed_eq, parts, List.filter_append, List.filter_cons_of_neg (by simp),
    others first before, others second behind, extent_append, extent_append, extent_cons,
    text_plain_length]
  omega

/-- What is needed for an absent name. -/
theorem needed_absent (image : Represents buffer entries) {name : Name}
    (absent : name ∉ keys entries) (value : CString) :
    needed buffer name value = extent entries + entrySize name value + 1 := by
  have others : entries.filter (fun entry => decide (entry.1 ≠ name)) = entries := by
    refine List.filter_eq_self.mpr fun entry member => ?_
    rw [decide_eq_true_eq]
    rintro rfl
    exact absent (List.mem_map_of_mem member)
  rw [image.needed_eq, others]

/-- No set needs more than a new entry on top of what is there. -/
theorem needed_le (image : Represents buffer entries) (name : Name) (value : CString) :
    needed buffer name value ≤ extent entries + entrySize name value + 1 := by
  have shorter : ∀ part : List Entry,
      extent (part.filter fun entry => decide (entry.1 ≠ name)) ≤ extent part := by
    intro part
    induction part with
    | nil => exact Nat.le_refl _
    | cons entry rest inductionHypothesis =>
      rw [List.filter_cons, extent_cons]
      split
      · rw [extent_cons]
        omega
      · omega
  rw [image.needed_eq]
  have bound := shorter entries
  omega

end Represents

/-- The result of setting a name: the order is kept, and the name alone has changed,
to an entry of the given value. -/
structure Put (entries : List Entry) (name : Name) (value : CString) (entries' : List Entry) :
    Prop where
  sorted : Sorted entries'
  stored : ∃ pad, valueOf entries' = Function.update (valueOf entries) name (some ⟨pad, value⟩)

/-- The lengths of a set fit the ints they are stored in, and a first entry does not
fill the data area to the last byte. -/
def LengthsFit (buffer : Buffer) (name : Name) (value : CString) : Prop :=
  entrySize name value < 2 ^ 31 ∧ (buffer.dataUsed = 0 →
    entrySize name value + 1 < 2 ^ 31 ∧ entrySize name value + 1 ≠ buffer.data.length)

instance (buffer : Buffer) (name : Name) (value : CString) :
    Decidable (LengthsFit buffer name value) :=
  inferInstanceAs (Decidable (_ ∧ (_ → _)))

/-- A value replaced at the split of sorted entries. -/
theorem put_replaced {entries first second : List Entry} {name : Name} {old : Stored}
    (sorted : Sorted entries) (parts : entries = first ++ (name, old) :: second)
    (before : name ∉ keys first) (pad : Nat) (value : CString) :
    Put entries name value (first ++ (name, ⟨pad, value⟩) :: second) := by
  constructor
  · have same : keys (first ++ (name, ⟨pad, value⟩) :: second) = keys entries := by
      simp [parts, keys]
    rw [Sorted, same]
    exact sorted
  · refine ⟨pad, ?_⟩
    rw [parts]
    exact SortedTable.valueOf_replace first second name old ⟨pad, value⟩ before

namespace Represents

variable {buffer : Buffer} {entries : List Entry}

/-- Setting a name in a buffer that is in use, when the search is not misled. -/
theorem set_straight (image : Represents buffer entries) (sorted : Sorted entries)
    (inUse : buffer.dataUsed ≠ 0) {name : Name} (straight : ¬ Misled entries name)
    (value : CString) (small : entrySize name value < 2 ^ 31) :
    (needed buffer name value ≤ buffer.data.length ∧
      ∃ after entries', metaNvramSetEntry buffer name.val value = some (retOk, after) ∧
        after.data.length = buffer.data.length ∧ Represents after entries' ∧
        Put entries name value entries') ∨
    (buffer.data.length < needed buffer name value ∧
      metaNvramSetEntry buffer name.val value = some (retFail, buffer)) := by
  have found := image.find_straight sorted straight
  by_cases present : name ∈ keys entries
  · obtain ⟨first, old, second, parts, position, before, behind⟩ :=
      SortedTable.split_present sorted present
    have reduced : metaNvramSetEntry buffer name.val value =
        replaceEntry buffer (extent first) name.val value := by
      have offset : entries.take (rank (keys entries) name) = first := by
        rw [← position, parts, List.take_left]
      rw [metaNvramSetEntry, if_neg inUse, found, decide_eq_true present, offset]
      exact search_hit _ (fun p => replaceEntry buffer p name.val value)
        (fun p => insertEntry buffer p name.val value)
    rw [reduced, image.needed_present parts before behind]
    rcases Nat.lt_or_ge buffer.data.length
      (extent (first ++ (name, Stored.plain value) :: second) + 1) with large | room
    · exact .inr ⟨large, image.replaceEntry_full inUse parts value small (by omega)⟩
    · refine .inl ⟨room, ?_⟩
      rcases Nat.lt_or_ge ((Entry.text (name, old)).length + 1) (entrySize name value) with
        outgrown | fits
      · obtain ⟨after, done, same, result⟩ :=
          image.replaceEntry_grow inUse parts value small outgrown (by omega)
        exact ⟨after, _, done, same, result, put_replaced sorted parts before 0 value⟩
      · obtain ⟨after, done, same, result⟩ :=
          image.replaceEntry_pad inUse parts value small fits
        exact ⟨after, _, done, same, result, put_replaced sorted parts before _ value⟩
  · obtain ⟨first, second, parts, position, smaller, -⟩ :=
      SortedTable.split_absent sorted present
    have reduced : metaNvramSetEntry buffer name.val value =
        insertEntry buffer (extent first) name.val value := by
      have offset : entries.take (rank (keys entries) name) = first := by
        rw [← position, parts, List.take_left]
      rw [metaNvramSetEntry, if_neg inUse, found, decide_eq_false present, offset]
      exact search_missed _ (fun p => replaceEntry buffer p name.val value)
        (fun p => insertEntry buffer p name.val value)
    rw [reduced, image.needed_absent present]
    rcases Nat.lt_or_ge buffer.data.length (extent entries + entrySize name value + 1) with
      large | room
    · exact .inr ⟨large, image.insertEntry_full inUse _ name value small (by omega)⟩
    · obtain ⟨after, done, same, result⟩ :=
        image.insertEntry_spec inUse parts name value small (by omega)
      refine .inl ⟨room, after, _, done, same, result, ?_⟩
      have inserted : entries.insertIdx (rank (keys entries) name) (name, Stored.plain value) =
          first ++ (name, .plain value) :: second := by
        rw [← position, parts, SortedTable.insertIdx_between]
      rw [← inserted]
      exact ⟨SortedTable.sorted_insertIdx sorted present _,
        0, SortedTable.valueOf_insertIdx sorted present _⟩

/-- A set whose search missed is refused when a new entry does not fit. -/
theorem set_lost (image : Represents buffer entries) (inUse : buffer.dataUsed ≠ 0) {name : Name}
    {p : Nat} (missed : findNvramEntryPosition buffer name.val = some (p, false))
    (value : CString) (small : entrySize name value < 2 ^ 31)
    (large : buffer.data.length < extent entries + entrySize name value + 1) :
    metaNvramSetEntry buffer name.val value = some (retFail, buffer) := by
  have reduced : metaNvramSetEntry buffer name.val value =
      insertEntry buffer p name.val value := by
    rw [metaNvramSetEntry, if_neg inUse, missed]
    exact search_missed _ (fun p => replaceEntry buffer p name.val value)
      (fun p => insertEntry buffer p name.val value)
  rw [reduced]
  exact image.insertEntry_full inUse p name value small (by omega)

/-- The first set of a buffer. -/
theorem set_first (image : Represents buffer entries) (unused : buffer.dataUsed = 0)
    (name : Name) (value : CString) (lengths : LengthsFit buffer name value) :
    (needed buffer name value ≤ buffer.data.length ∧
      ∃ after entries', metaNvramSetEntry buffer name.val value = some (retOk, after) ∧
        after.data.length = buffer.data.length ∧ Represents after entries' ∧
        Put entries name value entries') ∨
    (buffer.data.length < needed buffer name value ∧
      metaNvramSetEntry buffer name.val value = some (retFail, buffer)) := by
  obtain ⟨-, first⟩ := lengths
  obtain ⟨small, notFull⟩ := first unused
  have empty : entries = [] := by
    rcases image.used with counted | ⟨-, empty, -⟩
    · omega
    · exact empty
  subst empty
  have required : needed buffer name value = entrySize name value + 1 := by
    rw [image.needed_absent List.not_mem_nil]
    simp [extent]
  rw [metaNvramSetEntry, if_pos unused, required]
  rcases Nat.lt_or_ge buffer.data.length (entrySize name value + 1) with large | room
  · exact .inr ⟨large, setFirst_full unused name value small large⟩
  · obtain ⟨after, done, same, result⟩ :=
      image.setFirst_spec unused name value (by omega)
    refine .inl ⟨room, after, _, done, same, result, ?_, 0, ?_⟩
    · simp [Sorted, keys]
    · exact SortedTable.valueOf_insert [] [] name (Stored.plain value) List.not_mem_nil

/-- Removing a present name that the search is not misled about. -/
theorem unset_present (image : Represents buffer entries) (sorted : Sorted entries) {name : Name}
    (present : name ∈ keys entries) (straight : ¬ Misled entries name) :
    ∃ after entries', metaNvramUnsetEntry buffer name.val = some (retOk, after) ∧
      after.data.length = buffer.data.length ∧ after.dataUsed ≠ 0 ∧
      Represents after entries' ∧ Sorted entries' ∧
      valueOf entries' = Function.update (valueOf entries) name none := by
  obtain ⟨first, old, second, parts, position, before, behind⟩ :=
    SortedTable.split_present sorted present
  have found := image.find_straight sorted straight
  have inUse : buffer.dataUsed ≠ 0 := by
    rcases image.used with counted | ⟨-, empty, -⟩
    · omega
    · rw [empty] at present
      cases present
  have offset : entries.take (rank (keys entries) name) = first := by
    rw [← position, parts, List.take_left]
  rw [offset, decide_eq_true present] at found
  obtain ⟨after, done, same, counted, result⟩ := image.unset_found inUse parts found
  refine ⟨after, first ++ second, done, same, counted, result, ?_, ?_⟩
  · have erased : entries.eraseIdx first.length = first ++ second := by
      rw [parts, List.eraseIdx_append_of_length_le (Nat.le_refl _), Nat.sub_self,
        List.eraseIdx_cons_zero]
    rw [← erased]
    exact SortedTable.sorted_eraseIdx sorted _
  · rw [parts]
    exact SortedTable.valueOf_erase first second name old before behind

/-- A lookup of a present name that the search is not misled about. -/
theorem get_present (image : Represents buffer entries) (sorted : Sorted entries) {name : Name}
    {stored : Stored} (held : valueOf entries name = some stored)
    (straight : ¬ Misled entries name) (proper : stored.value.bytes.head? ≠ some equals) :
    metaNvramGetEntryValue buffer name.val true = some (retOk, some stored.value.bytes) := by
  have present : name ∈ keys entries := by
    by_contra absent
    rw [(SortedTable.valueOf_eq_none_iff entries name).mpr absent] at held
    cases held
  obtain ⟨first, found, second, parts, position, before, -⟩ :=
    SortedTable.split_present sorted present
  have same : found = stored := by
    rw [parts, SortedTable.valueOf_middle first second name found before] at held
    exact Option.some.inj held
  subst same
  have searched := image.find_straight sorted straight
  have offset : entries.take (rank (keys entries) name) = first := by
    rw [← position, parts, List.take_left]
  rw [offset, decide_eq_true present] at searched
  exact image.get_found parts proper searched

end Represents

end Ezcfg.MetaNvram

import Ezcfg.MetaNvram.Entries
import Ezcfg.MetaNvram.Search

/-!
# What the operations do to packed entries

Each way in which an operation edits the buffer is described once, by the entries
before and after. Sets edit the packed strings of the entries; a removal moves what
follows the entry down over it. Bytes behind the final terminator are never looked at
again.
-/

namespace Ezcfg.MetaNvram

open Foundation
open Foundation.ByteArea (stringAt write memmove pack)
open Foundation.SortedTable (keys Sorted rank)

/-- The bytes a new entry takes, its terminator included. -/
def entrySize (name : Name) (value : CString) : Nat := name.val.length + value.length + 2

/-- An entry without padding. -/
def Stored.plain (value : CString) : Stored := ⟨0, value⟩

/-- The length the code computes is the size of the entry if that fits an int. -/
theorem newEntryLen_eq {name : Name} {value : CString} (small : entrySize name value < 2 ^ 31) :
    newEntryLen name.val value = entrySize name value := by
  exact newEntryLen_small small

theorem text_length (name : Name) (stored : Stored) :
    (Entry.text (name, stored)).length + 1 = entrySize name stored.value + stored.pad := by
  simp only [Entry.text, Stored.bytes, entrySize, CString.length, List.length_append,
    List.length_cons, List.length_replicate]
  omega

theorem text_plain_length (name : Name) (value : CString) :
    (Entry.text (name, .plain value)).length + 1 = entrySize name value :=
  text_length name (.plain value)

namespace Represents

variable {buffer : Buffer} {entries : List Entry}

/-- The strings of the entries are packed in the buffer. -/
theorem packs (image : Represents buffer entries) : Packs buffer (texts entries) where
  layout := image.layout
  used := image.used.imp_right fun ⟨unused, empty, clear⟩ => ⟨unused, by rw [empty, texts_nil], clear⟩
  addressable := image.addressable

/-- A buffer that holds the strings of entries represents them. -/
theorem of_packs (packs : Packs buffer (texts entries)) : Represents buffer entries where
  layout := packs.layout
  used := packs.used.imp_right fun ⟨unused, empty, clear⟩ =>
    ⟨unused, List.map_eq_nil_iff.mp empty, clear⟩
  addressable := packs.addressable

/-- The strings of entries around one of them. -/
theorem texts_parts {first second : List Entry} {entry : Entry}
    (parts : entries = first ++ entry :: second) :
    texts entries = texts first ++ entry.text :: texts second := by
  rw [parts, texts_append, texts_cons]

/-- A buffer in use counts its entries and the final terminator. -/
theorem used_eq (image : Represents buffer entries) (inUse : buffer.dataUsed ≠ 0) :
    buffer.dataUsed = extent entries + 1 :=
  image.packs.used_eq inUse

/-- The counted bytes lie in the data area. -/
theorem used_le (image : Represents buffer entries) : buffer.dataUsed ≤ buffer.dataSize :=
  image.packs.used_le

/-- An edited data area of the same length represents the entries packed in it. -/
theorem edited (image : Represents buffer entries) {data : List UInt8} (junk : List UInt8)
    {entries' : List Entry} {used : Int} (same : data.length = buffer.data.length)
    (layout : data = pack (texts entries') ++ 0 :: junk) (counted : used = extent entries' + 1) :
    Represents ⟨data, used⟩ entries' :=
  ⟨⟨junk, layout⟩, .inl counted, by rw [same]; exact image.addressable⟩

/-- The first entry of a clear buffer, when it is too large for it. -/
theorem setFirst_full (unused : buffer.dataUsed = 0)
    (name : Name) (value : CString) (small : entrySize name value + 1 < 2 ^ 31)
    (large : buffer.data.length < entrySize name value + 1) :
    setFirst buffer name.val value = some (retFail, buffer) := by
  have needed : checkedInt (newEntryLen name.val value + 1) =
      some ((entrySize name value : Int) + 1) := by
    rw [newEntryLen_eq (by omega), checkedInt, if_pos (by omega)]
  have refused : (entrySize name value : Int) + 1 > buffer.dataSize - buffer.dataUsed := by
    rw [unused, Buffer.dataSize]
    omega
  simp only [setFirst, needed, Option.bind_eq_bind, Option.bind_some, refused, if_true]

/-- The first entry of a clear buffer, when two bytes or more remain behind it. -/
theorem setFirst_spec (image : Represents buffer entries) (unused : buffer.dataUsed = 0)
    (name : Name) (value : CString) (room : entrySize name value + 1 < buffer.data.length) :
    ∃ after, setFirst buffer name.val value = some (retOk, after) ∧
      after.data.length = buffer.data.length ∧ Represents after [(name, .plain value)] := by
  obtain ⟨after, done, same, packs⟩ := image.packs.setFirst_packs unused name.val value room
  exact ⟨after, done, same, of_packs packs⟩

/-- Where an entry of a represented buffer lies. -/
theorem cut_entry (image : Represents buffer entries) {first second : List Entry} {entry : Entry}
    (parts : entries = first ++ entry :: second) : ∃ junk,
      buffer.data = pack (texts first) ++ entry.text ++ [0] ++ (pack (texts second) ++ [0]) ++ junk ∧
      stringAt buffer.data (extent first) = some entry.text := by
  obtain ⟨junk, layout⟩ := image.layout
  have area : buffer.data =
      pack (texts first) ++ entry.text ++ [0] ++ (pack (texts second) ++ [0]) ++ junk := by
    rw [layout, parts]
    simp
  refine ⟨junk, area, ?_⟩
  have read := ByteArea.stringAt_between (pack (texts first)) entry.text
    (pack (texts second) ++ [0] ++ junk) (text_nonul entry)
  rw [area]
  simpa [extent] using read

/-- A replacement that would overrun the data area is refused. -/
theorem replaceEntry_full (image : Represents buffer entries) (inUse : buffer.dataUsed ≠ 0)
    {first second : List Entry} {name : Name} {old : Stored}
    (parts : entries = first ++ (name, old) :: second) (value : CString)
    (small : entrySize name value < 2 ^ 31)
    (large : (buffer.data.length : Int) <
      extent (first ++ (name, .plain value) :: second) + 1) :
    replaceEntry buffer (extent first) name.val value = some (retFail, buffer) := by
  obtain ⟨junk, -, read⟩ := image.cut_entry parts
  have counted := image.used_eq inUse
  have refused : (entrySize name value : Int) > buffer.dataSize - buffer.dataUsed +
      ((Entry.text (name, old)).length + 1) := by
    rw [counted, parts, Buffer.dataSize]
    simp only [extent_append, extent_cons, text_plain_length] at large ⊢
    omega
  simp only [replaceEntry, read, Option.bind_eq_bind, Option.bind_some, newEntryLen_eq small,
    refused, if_true]

/-- A value that fits behind the name of its old entry is moved to the end of it. -/
theorem replaceEntry_pad (image : Represents buffer entries) (inUse : buffer.dataUsed ≠ 0)
    {first second : List Entry} {name : Name} {old : Stored}
    (parts : entries = first ++ (name, old) :: second) (value : CString)
    (small : entrySize name value < 2 ^ 31)
    (fits : entrySize name value ≤ (Entry.text (name, old)).length + 1) :
    ∃ after, replaceEntry buffer (extent first) name.val value = some (retOk, after) ∧
      after.data.length = buffer.data.length ∧
      Represents after (first ++
        (name, ⟨(Entry.text (name, old)).length + 1 - entrySize name value, value⟩) :: second) := by
  have lengths := text_length name old
  have oldLength : old.bytes.length = old.pad + old.value.length := by
    rw [Stored.bytes, List.length_append, List.length_replicate]
    rfl
  simp only [entrySize] at lengths fits
  have shorter : value.length ≤ old.bytes.length := by omega
  obtain ⟨after, done, same, packs⟩ := image.packs.replaceEntry_packs_pad inUse
    (text_nonul (name, old)) (texts_parts parts) value small shorter
  refine ⟨after, done, same, of_packs ?_⟩
  have rounds : (Entry.text (name, old)).length + 1 - entrySize name value =
      old.bytes.length - value.length := by
    rw [entrySize]
    omega
  rw [rounds, texts_append, texts_cons]
  exact packs

/-- A longer value moves what follows up and takes the place this leaves. -/
theorem replaceEntry_grow (image : Represents buffer entries) (inUse : buffer.dataUsed ≠ 0)
    {first second : List Entry} {name : Name} {old : Stored}
    (parts : entries = first ++ (name, old) :: second) (value : CString)
    (small : entrySize name value < 2 ^ 31)
    (outgrown : (Entry.text (name, old)).length + 1 < entrySize name value)
    (room : (extent (first ++ (name, .plain value) :: second) : Int) + 1 ≤ buffer.data.length) :
    ∃ after, replaceEntry buffer (extent first) name.val value = some (retOk, after) ∧
      after.data.length = buffer.data.length ∧
      Represents after (first ++ (name, .plain value) :: second) := by
  have lengths := text_length name old
  have oldLength : old.bytes.length = old.pad + old.value.length := by
    rw [Stored.bytes, List.length_append, List.length_replicate]
    rfl
  simp only [entrySize] at lengths outgrown
  have shorter : old.bytes.length < value.length := by omega
  rw [extent, texts_append, texts_cons] at room
  obtain ⟨after, done, same, packs⟩ := image.packs.replaceEntry_packs_grow inUse
    (text_nonul (name, old)) (texts_parts parts) value small shorter (Int.ofNat_le.mp room)
  refine ⟨after, done, same, of_packs ?_⟩
  rw [texts_append, texts_cons]
  exact packs

/-- An insertion that would overrun the data area is refused. -/
theorem insertEntry_full (image : Represents buffer entries) (inUse : buffer.dataUsed ≠ 0)
    (p : Nat) (name : Name) (value : CString) (small : entrySize name value < 2 ^ 31)
    (large : (buffer.data.length : Int) < extent entries + entrySize name value + 1) :
    insertEntry buffer p name.val value = some (retFail, buffer) := by
  have refused : (entrySize name value : Int) > buffer.dataSize - buffer.dataUsed := by
    rw [image.used_eq inUse, Buffer.dataSize]
    omega
  simp only [insertEntry, newEntryLen_eq small, refused, if_true]

/-- An insertion that fits moves what follows up and takes the place this leaves. -/
theorem insertEntry_spec (image : Represents buffer entries) (inUse : buffer.dataUsed ≠ 0)
    {first second : List Entry} (parts : entries = first ++ second) (name : Name)
    (value : CString) (small : entrySize name value < 2 ^ 31)
    (room : (extent entries : Int) + entrySize name value + 1 ≤ buffer.data.length) :
    ∃ after, insertEntry buffer (extent first) name.val value = some (retOk, after) ∧
      after.data.length = buffer.data.length ∧
      Represents after (first ++ (name, .plain value) :: second) := by
  have split : texts entries = texts first ++ texts second := by
    rw [parts, texts_append]
  obtain ⟨after, done, same, packs⟩ := image.packs.insertEntry_packs inUse split name.val value
    small (Int.ofNat_le.mp room)
  refine ⟨after, done, same, of_packs ?_⟩
  rw [texts_append, texts_cons]
  exact packs

/-- A removal moves what follows down over the entry. -/
theorem unset_found (image : Represents buffer entries) (inUse : buffer.dataUsed ≠ 0)
    {first second : List Entry} {entry : Entry} (parts : entries = first ++ entry :: second)
    {name : CString} (found : findNvramEntryPosition buffer name = some (extent first, true)) :
    ∃ after, metaNvramUnsetEntry buffer name = some (retOk, after) ∧
      after.data.length = buffer.data.length ∧ after.dataUsed ≠ 0 ∧
      Represents after (first ++ second) := by
  obtain ⟨after, done, same, counted, packs⟩ := image.packs.unset_packs inUse (texts_parts parts)
    (text_nonul entry) found
  refine ⟨after, done, same, counted, of_packs ?_⟩
  rw [texts_append]
  exact packs

/-- A lookup skips the separators and hands out the value behind them. -/
theorem get_found (image : Represents buffer entries) {first second : List Entry} {name : Name}
    {stored : Stored} (parts : entries = first ++ (name, stored) :: second)
    (proper : stored.value.bytes.head? ≠ some equals)
    (found : findNvramEntryPosition buffer name.val = some (extent first, true)) :
    metaNvramGetEntryValue buffer name.val true = some (retOk, some stored.value.bytes) := by
  have looked := image.packs.get_hit (texts_parts parts) (text_nonul (name, stored)) found
  rwa [Stored.bytes, dropWhile_padded, (dropWhile_eq_self_iff _).mpr proper] at looked

end Represents

end Ezcfg.MetaNvram

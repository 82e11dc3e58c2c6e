import Ezcfg.MetaNvram.Buffer

/-!
# Buffers that hold packed strings

A set writes, replaces or inserts one string among the packed ones, whatever the name
and the value are: a name may be empty or contain the separator, and then it can hit an
entry that was set under another name. The search stops in front of one of the strings
or behind the last, and it hits only a string that starts with the name and the
separator, so a replacement stays inside that string and what follows it.
-/

namespace Ezcfg.MetaNvram

open Foundation
open Foundation.ByteArea (stringAt write memmove pack)

/-- The bytes a new string takes, its terminator included. -/
def stringSize (name value : CString) : Nat := name.length + value.length + 2

/-- The buffer starts with the packed strings and a terminator. Before anything was set
the counter is zero and the data area is clear; otherwise it counts these bytes. -/
structure Packs (buffer : Buffer) (strings : List (List UInt8)) : Prop where
  layout : ∃ junk, buffer.data = pack strings ++ 0 :: junk
  used : buffer.dataUsed = (pack strings).length + 1 ∨
    (buffer.dataUsed = 0 ∧ strings = [] ∧ ∀ byte ∈ buffer.data, byte = 0)
  addressable : buffer.data.length < 2 ^ 31

/-- The length the code computes is the size of the string if that fits an int. -/
theorem newEntryLen_small {name value : CString} (small : stringSize name value < 2 ^ 31) :
    newEntryLen name value = stringSize name value := by
  rw [stringSize] at small
  rw [newEntryLen, stringSize, toInt32_of_range (by omega) (by omega)]
  omega

/-- The length of what `"%s=%s"` produces, with its terminator. -/
theorem entryBytes_length (name value : CString) :
    (entryBytes name value).length + 1 = stringSize name value := by
  simp only [entryBytes, stringSize, CString.length, List.length_append, List.length_cons]
  omega

/-- Padding fills a stretch with separators. -/
theorem padLoop_between (before old after : List UInt8) :
    padLoop (before ++ old ++ after) before.length old.length =
      some (before ++ List.replicate old.length equals ++ after) := by
  induction old generalizing before with
  | nil => simp [padLoop]
  | cons byte rest inductionHypothesis =>
    have written := ByteArea.write_between before [byte] [equals] (rest ++ after) rfl
    have next := inductionHypothesis (before ++ [equals])
    rw [List.length_append, List.length_singleton] at next
    have area : before ++ byte :: rest ++ after = before ++ [byte] ++ (rest ++ after) := by simp
    have moved : before ++ [equals] ++ (rest ++ after) = before ++ [equals] ++ rest ++ after := by
      simp
    rw [List.length_cons, padLoop, area, written, Option.bind_eq_bind, Option.bind_some, moved,
      next]
    simp [List.replicate_succ]

namespace Packs

variable {buffer : Buffer} {strings : List (List UInt8)}

/-- A buffer in use counts its strings and the final terminator. -/
theorem used_eq (packs : Packs buffer strings) (inUse : buffer.dataUsed ≠ 0) :
    buffer.dataUsed = (pack strings).length + 1 :=
  packs.used.resolve_right fun unused => inUse unused.1

/-- The counted bytes lie in the data area. -/
theorem used_le (packs : Packs buffer strings) : buffer.dataUsed ≤ buffer.dataSize := by
  obtain ⟨junk, layout⟩ := packs.layout
  have size : buffer.data.length = (pack strings).length + (junk.length + 1) := by
    rw [layout, List.length_append, List.length_cons]
  rw [Buffer.dataSize]
  rcases packs.used with counted | ⟨unused, -⟩ <;> omega

/-- An edited data area of the same length holds the strings packed in it. -/
theorem edited (packs : Packs buffer strings) {data : List UInt8} (junk : List UInt8)
    {strings' : List (List UInt8)} {used : Int} (same : data.length = buffer.data.length)
    (layout : data = pack strings' ++ 0 :: junk) (counted : used = (pack strings').length + 1) :
    Packs ⟨data, used⟩ strings' :=
  ⟨⟨junk, layout⟩, .inl counted, by rw [same]; exact packs.addressable⟩

/-- Where a string of a buffer lies. -/
theorem cut_string (packs : Packs buffer strings) {first second : List (List UInt8)}
    {s : List UInt8} (parts : strings = first ++ s :: second) (nonul : (0 : UInt8) ∉ s) :
    ∃ junk, buffer.data = pack first ++ s ++ [0] ++ (pack second ++ [0]) ++ junk ∧
      stringAt buffer.data (pack first).length = some s := by
  obtain ⟨junk, layout⟩ := packs.layout
  have area : buffer.data = pack first ++ s ++ [0] ++ (pack second ++ [0]) ++ junk := by
    rw [layout, parts]
    simp
  refine ⟨junk, area, ?_⟩
  have read := ByteArea.stringAt_between (pack first) s (pack second ++ [0] ++ junk) nonul
  rw [area]
  simpa using read

/-- The first string of a clear buffer, when two bytes or more remain behind it. -/
theorem setFirst_packs (packs : Packs buffer strings) (unused : buffer.dataUsed = 0)
    (name value : CString) (room : stringSize name value + 1 < buffer.data.length) :
    ∃ after, setFirst buffer name value = some (retOk, after) ∧
      after.data.length = buffer.data.length ∧ Packs after [entryBytes name value] := by
  have clear : ∀ byte ∈ buffer.data, byte = 0 := by
    rcases packs.used with counted | ⟨-, -, clear⟩
    · omega
    · exact clear
  have addressable := packs.addressable
  have needed : checkedInt (newEntryLen name value + 1) =
      some ((stringSize name value : Int) + 1) := by
    rw [newEntryLen_small (by omega), checkedInt, if_pos (by omega)]
  have accepted : ¬ (stringSize name value : Int) + 1 > buffer.dataSize - buffer.dataUsed := by
    rw [unused, Buffer.dataSize]
    omega
  obtain ⟨rest, total⟩ := Nat.exists_eq_add_of_lt room
  have zeros : buffer.data = List.replicate (stringSize name value) 0 ++
      ([0] ++ [0] ++ List.replicate rest 0) := by
    have size : stringSize name value + 1 + rest + 1 = stringSize name value + (rest + 1 + 1) := by
      omega
    rw [List.eq_replicate_of_mem clear, total, size, List.replicate_add, List.replicate_succ,
      List.replicate_succ]
    rfl
  let text := entryBytes name value
  have textLength : (text ++ [0]).length = stringSize name value := by
    rw [List.length_append, List.length_singleton, entryBytes_length]
  have written : sprintf buffer.data 0 text =
      some (text ++ [0] ++ ([0] ++ [0] ++ List.replicate rest 0)) := by
    rw [sprintf, zeros]
    refine ByteArea.write_between [] (List.replicate (stringSize name value) 0) (text ++ [0])
      ([0] ++ [0] ++ List.replicate rest 0) ?_
    rw [List.length_replicate, textLength]
  have terminated : write (text ++ [0] ++ ([0] ++ [0] ++ List.replicate rest 0))
      (stringSize name value + 1) [0] =
      some (text ++ [0] ++ ([0] ++ [0] ++ List.replicate rest 0)) := by
    have stored := ByteArea.write_between (text ++ [0] ++ [0]) [0] [0] (List.replicate rest 0) rfl
    rw [List.length_append, textLength] at stored
    simpa only [List.append_assoc, List.length_singleton] using stored
  have position : ((stringSize name value : Int) + 1).toNat = stringSize name value + 1 := by omega
  have positive : (0 : Int) ≤ (stringSize name value : Int) + 1 := by omega
  have same : (text ++ [0] ++ ([0] ++ [0] ++ List.replicate rest 0)).length =
      buffer.data.length := by
    rw [List.length_append, textLength, zeros]
    simp only [List.length_append, List.length_replicate]
  refine ⟨⟨text ++ [0] ++ ([0] ++ [0] ++ List.replicate rest 0),
    buffer.dataUsed + ((stringSize name value : Int) + 1)⟩, ?_, same,
    packs.edited ([0] ++ List.replicate rest 0) same ?_ ?_⟩
  · simp only [setFirst, needed, Option.bind_eq_bind, Option.bind_some, accepted, if_false,
      written, positive, if_true, position, terminated, text]
  · simp [text]
  · rw [unused, ByteArea.pack_cons, ByteArea.pack_nil]
    have length := entryBytes_length name value
    simp only [List.length_append, List.length_singleton]
    omega

/-- A value that fits behind the name in its string is moved to the end of the string. -/
theorem replaceEntry_packs_pad (packs : Packs buffer strings) (inUse : buffer.dataUsed ≠ 0)
    {first second : List (List UInt8)} {name : CString} {old : List UInt8}
    (nonul : (0 : UInt8) ∉ name.bytes ++ equals :: old)
    (parts : strings = first ++ (name.bytes ++ equals :: old) :: second) (value : CString)
    (small : stringSize name value < 2 ^ 31) (fits : value.length ≤ old.length) :
    ∃ after, replaceEntry buffer (pack first).length name value = some (retOk, after) ∧
      after.data.length = buffer.data.length ∧
      Packs after (first ++ (name.bytes ++
        equals :: (List.replicate (old.length - value.length) equals ++ value.bytes)) :: second) := by
  obtain ⟨junk, area, read⟩ := packs.cut_string parts nonul
  have inside := packs.used_le
  have stringLength : (name.bytes ++ equals :: old).length = name.length + old.length + 1 := by
    simp only [CString.length, List.length_append, List.length_cons]
    omega
  generalize filling : old.length - value.length = rounds
  -- the old bytes behind the separator are cut where the new value will start
  let before := pack first ++ name.bytes ++ [equals]
  let tail := pack second ++ [0] ++ junk
  let front := (old ++ [0]).take rounds
  let back := (old ++ [0]).drop rounds
  have oldLength : (old ++ [0]).length = rounds + (value.length + 1) := by
    rw [List.length_append, List.length_singleton]
    omega
  have frontLength : front.length = rounds := List.length_take_of_le (by omega)
  have backLength : back.length = (value.bytes ++ [0]).length := by
    rw [List.length_drop, oldLength, List.length_append, List.length_singleton]
    simp only [CString.length]
    omega
  have cutArea : buffer.data = before ++ front ++ (back ++ tail) := by
    have whole : front ++ back = old ++ [0] := List.take_append_drop _ _
    rw [List.append_assoc, ← List.append_assoc front, whole, area]
    simp [before, tail]
  have start : (pack first).length + name.length + 1 = before.length := by
    simp only [before, CString.length, List.length_append, List.length_singleton]
  have padded : padLoop buffer.data before.length rounds =
      some (before ++ List.replicate rounds equals ++ (back ++ tail)) := by
    rw [cutArea, ← frontLength]
    exact padLoop_between before front (back ++ tail)
  have written : sprintf (before ++ List.replicate rounds equals ++ (back ++ tail))
      (before.length + rounds) value.bytes =
        some (before ++ List.replicate rounds equals ++ (value.bytes ++ [0]) ++ tail) := by
    have stored := ByteArea.write_between (before ++ List.replicate rounds equals) back
      (value.bytes ++ [0]) tail backLength
    rw [List.length_append, List.length_replicate] at stored
    rw [sprintf, ← List.append_assoc]
    exact stored
  have accepted : ¬ (stringSize name value : Int) > buffer.dataSize - buffer.dataUsed +
      ((name.bytes ++ equals :: old).length + 1) := by
    rw [stringLength, stringSize]
    omega
  have keeps : ((name.bytes ++ equals :: old).length : Int) + 1 ≥
      (stringSize name value : Int) := by
    rw [stringLength, stringSize]
    omega
  have count : (((name.bytes ++ equals :: old).length : Int) + 1 - stringSize name value).toNat =
      rounds := by
    rw [stringLength, stringSize]
    omega
  have same : (before ++ List.replicate rounds equals ++ (value.bytes ++ [0]) ++ tail).length =
      buffer.data.length := by
    rw [cutArea, List.length_append, List.length_append, ← backLength]
    simp only [List.length_append, List.length_replicate, frontLength]
    omega
  refine ⟨⟨before ++ List.replicate rounds equals ++ (value.bytes ++ [0]) ++ tail,
    buffer.dataUsed⟩, ?_, same, packs.edited junk same ?_ ?_⟩
  · simp only [replaceEntry, read, Option.bind_eq_bind, Option.bind_some, newEntryLen_small small,
      accepted, if_false, keeps, if_true, count, start, padded, written]
  · simp [before, tail]
  · rw [packs.used_eq inUse, parts]
    have valueLength : value.bytes.length = value.length := rfl
    simp only [ByteArea.pack_append, ByteArea.pack_cons, List.length_append, List.length_cons,
      List.length_replicate]
    omega

/-- A longer value moves what follows up and takes the place this leaves. -/
theorem replaceEntry_packs_grow (packs : Packs buffer strings) (inUse : buffer.dataUsed ≠ 0)
    {first second : List (List UInt8)} {name : CString} {old : List UInt8}
    (nonul : (0 : UInt8) ∉ name.bytes ++ equals :: old)
    (parts : strings = first ++ (name.bytes ++ equals :: old) :: second) (value : CString)
    (small : stringSize name value < 2 ^ 31) (outgrown : old.length < value.length)
    (room : (pack (first ++ entryBytes name value :: second)).length + 1 ≤ buffer.data.length) :
    ∃ after, replaceEntry buffer (pack first).length name value = some (retOk, after) ∧
      after.data.length = buffer.data.length ∧
      Packs after (first ++ entryBytes name value :: second) := by
  obtain ⟨junk, area, read⟩ := packs.cut_string parts nonul
  have counted := packs.used_eq inUse
  have stringLength : (name.bytes ++ equals :: old).length = name.length + old.length + 1 := by
    simp only [CString.length, List.length_append, List.length_cons]
    omega
  have newLength := entryBytes_length name value
  have packed : (pack (first ++ entryBytes name value :: second)).length =
      (pack first).length + stringSize name value + (pack second).length := by
    simp only [ByteArea.pack_append, ByteArea.pack_cons, List.length_append, List.length_cons]
    omega
  have oldPacked : (pack strings).length =
      (pack first).length + (name.length + old.length + 2) + (pack second).length := by
    rw [parts, ByteArea.pack_append, ByteArea.pack_cons, List.length_append, List.length_append,
      List.length_cons, stringLength]
    omega
  have sizes : buffer.data.length = (pack first).length + (name.length + old.length + 1) + 1 +
      ((pack second).length + 1) + junk.length := by
    rw [area, ← stringLength]
    simp only [List.length_append, List.length_singleton]
  let moved := pack second ++ [0]
  obtain ⟨growth, larger⟩ := Nat.exists_eq_add_of_lt outgrown
  rw [stringSize] at small packed newLength
  have spareRoom : growth + 1 ≤ junk.length := by omega
  let spare := junk.take (growth + 1)
  let after := junk.drop (growth + 1)
  have spareLength : spare.length = growth + 1 := List.length_take_of_le spareRoom
  have whole : spare ++ after = junk := List.take_append_drop _ _
  obtain ⟨hole, shifted, holeLength⟩ := ByteArea.memmove_up
    (pack first ++ (name.bytes ++ equals :: old) ++ [0]) moved spare after
  rw [List.append_assoc _ spare after, whole, ← area] at shifted
  have frontLength : (pack first ++ (name.bytes ++ equals :: old) ++ [0]).length =
      (pack first).length + (name.length + old.length + 1) + 1 := by
    rw [List.length_append, List.length_append, stringLength]
    rfl
  have source : (pack first).length + (((name.bytes ++ equals :: old).length : Int) + 1).toNat =
      (pack first ++ (name.bytes ++ equals :: old) ++ [0]).length := by
    rw [frontLength, stringLength]
    omega
  have target : (pack first).length + ((stringSize name value : Nat) : Int).toNat =
      (pack first ++ (name.bytes ++ equals :: old) ++ [0]).length + spare.length := by
    rw [frontLength, spareLength, stringSize]
    omega
  have count : buffer.dataUsed - ((pack first).length : Int) -
      ((name.bytes ++ equals :: old).length + 1) = (moved.length : Int) := by
    have movedLength : moved.length = (pack second).length + 1 := by
      simp only [moved, List.length_append, List.length_singleton]
    rw [counted, oldPacked, movedLength, stringLength]
    omega
  let before := pack first ++ name.bytes ++ [equals]
  have start : (pack first).length + name.length + 1 = before.length := by
    simp only [before, CString.length, List.length_append, List.length_singleton]
  have cutArea : pack first ++ (name.bytes ++ equals :: old) ++ [0] ++ hole ++ moved ++ after =
      before ++ (old ++ [0] ++ hole) ++ (moved ++ after) := by
    simp [before]
  have replaced : (old ++ [0] ++ hole).length = (value.bytes ++ [0]).length := by
    have valueLength : value.bytes.length = value.length := rfl
    simp only [List.length_append, List.length_singleton, holeLength, spareLength, valueLength]
    omega
  have written : sprintf (pack first ++ (name.bytes ++ equals :: old) ++ [0] ++ hole ++ moved ++
      after) before.length value.bytes = some (before ++ (value.bytes ++ [0]) ++ (moved ++ after)) := by
    rw [sprintf, cutArea]
    exact ByteArea.write_between before _ _ _ replaced
  have accepted : ¬ (stringSize name value : Int) > buffer.dataSize - buffer.dataUsed +
      ((name.bytes ++ equals :: old).length + 1) := by
    rw [counted, oldPacked, Buffer.dataSize, stringLength, stringSize]
    omega
  have grows : ¬ ((name.bytes ++ equals :: old).length : Int) + 1 ≥
      (stringSize name value : Int) := by
    rw [stringLength, stringSize]
    omega
  have same := (ByteArea.write_length written).trans (ByteArea.memmove_length shifted)
  refine ⟨⟨before ++ (value.bytes ++ [0]) ++ (moved ++ after), buffer.dataUsed +
    ((stringSize name value : Int) - ((name.bytes ++ equals :: old).length + 1))⟩, ?_, same,
    packs.edited after same ?_ ?_⟩
  · simp only [replaceEntry, read, Option.bind_eq_bind, Option.bind_some,
      newEntryLen_small (show stringSize name value < 2 ^ 31 from small),
      accepted, if_false, grows, source, target, count, shifted, start, written]
  · simp [before, moved, entryBytes]
  · rw [counted, oldPacked, packed, stringLength, stringSize]
    omega

/-- An insertion that fits moves what follows up and takes the place this leaves. -/
theorem insertEntry_packs (packs : Packs buffer strings) (inUse : buffer.dataUsed ≠ 0)
    {first second : List (List UInt8)} (parts : strings = first ++ second) (name value : CString)
    (small : stringSize name value < 2 ^ 31)
    (room : (pack strings).length + stringSize name value + 1 ≤ buffer.data.length) :
    ∃ after, insertEntry buffer (pack first).length name value = some (retOk, after) ∧
      after.data.length = buffer.data.length ∧
      Packs after (first ++ entryBytes name value :: second) := by
  obtain ⟨junk, layout⟩ := packs.layout
  have counted := packs.used_eq inUse
  have packed : (pack strings).length = (pack first).length + (pack second).length := by
    rw [parts, ByteArea.pack_append, List.length_append]
  let moved := pack second ++ [0]
  have movedLength : moved.length = (pack second).length + 1 := by
    simp only [moved, List.length_append, List.length_singleton]
  have area : buffer.data = pack first ++ moved ++ junk := by
    rw [layout, parts]
    simp [moved]
  have sizes : buffer.data.length = (pack first).length + ((pack second).length + 1) +
      junk.length := by
    rw [area, List.length_append, List.length_append, movedLength]
  have spareRoom : stringSize name value ≤ junk.length := by omega
  let spare := junk.take (stringSize name value)
  let after := junk.drop (stringSize name value)
  have spareLength : spare.length = stringSize name value := List.length_take_of_le spareRoom
  have whole : spare ++ after = junk := List.take_append_drop _ _
  obtain ⟨hole, shifted, holeLength⟩ := ByteArea.memmove_up (pack first) moved spare after
  rw [List.append_assoc _ spare after, whole, ← area, spareLength] at shifted
  have textLength : (entryBytes name value ++ [0]).length = stringSize name value := by
    rw [List.length_append, List.length_singleton, entryBytes_length]
  have written : sprintf (pack first ++ hole ++ moved ++ after) (pack first).length
      (entryBytes name value) = some (pack first ++
        (entryBytes name value ++ [0]) ++ (moved ++ after)) := by
    rw [sprintf, List.append_assoc _ moved after]
    exact ByteArea.write_between _ _ _ _ (by rw [holeLength, spareLength, textLength])
  have count : buffer.dataUsed - ((pack first).length : Int) = (moved.length : Int) := by
    rw [counted, packed, movedLength]
    omega
  have accepted : ¬ (stringSize name value : Int) > buffer.dataSize - buffer.dataUsed := by
    rw [counted, Buffer.dataSize]
    omega
  have same := (ByteArea.write_length written).trans (ByteArea.memmove_length shifted)
  refine ⟨⟨_, buffer.dataUsed + (stringSize name value : Int)⟩, ?_, same,
    packs.edited after same ?_ ?_⟩
  · simp only [insertEntry, newEntryLen_small small, accepted, if_false, Int.toNat_natCast,
      count, shifted, Option.bind_eq_bind, Option.bind_some, written]
  · simp [moved]
  · have newLength := entryBytes_length name value
    rw [counted, packed]
    simp only [ByteArea.pack_append, ByteArea.pack_cons, List.length_append, List.length_cons]
    omega

end Packs

/-! ## Setting any name -/

/-- Strings that can be packed: none is empty, and none contains a terminator. -/
def Packable (strings : List (List UInt8)) : Prop := ∀ s ∈ strings, s ≠ [] ∧ (0 : UInt8) ∉ s

/-- A name and a value make a packable string, with any separators between them. -/
theorem packable_entry (name : CString) (rounds : Nat) (value : CString) :
    name.bytes ++ equals :: (List.replicate rounds equals ++ value.bytes) ≠ [] ∧
      (0 : UInt8) ∉ name.bytes ++ equals :: (List.replicate rounds equals ++ value.bytes) := by
  constructor
  · simp
  · simp [name.nonul, value.nonul, equals]

/-- A packable string in place of another. -/
theorem Packable.replace {first second : List (List UInt8)} {old new : List UInt8}
    (packable : Packable (first ++ old :: second)) (fresh : new ≠ [] ∧ (0 : UInt8) ∉ new) :
    Packable (first ++ new :: second) := by
  intro s member
  rcases List.mem_append.mp member with before | behind
  · exact packable s (List.mem_append_left _ before)
  · rcases List.mem_cons.mp behind with rfl | later
    · exact fresh
    · exact packable s (List.mem_append_right _ (List.mem_cons_of_mem _ later))

/-- A packable string more. -/
theorem Packable.insert {first second : List (List UInt8)} {new : List UInt8}
    (packable : Packable (first ++ second)) (fresh : new ≠ [] ∧ (0 : UInt8) ∉ new) :
    Packable (first ++ new :: second) := by
  intro s member
  rcases List.mem_append.mp member with before | behind
  · exact packable s (List.mem_append_left _ before)
  · rcases List.mem_cons.mp behind with rfl | later
    · exact fresh
    · exact packable s (List.mem_append_right _ later)

/-- Where a search comes to: in front of some of the strings, or at a string that starts
with the name and the separator. -/
inductive Lands (strings : List (List UInt8)) (name : CString) : Nat × Bool → Prop
  | missed {first second : List (List UInt8)} (parts : strings = first ++ second) :
      Lands strings name ((pack first).length, false)
  | hit {first second : List (List UInt8)} {old : List UInt8}
      (parts : strings = first ++ (name.bytes ++ equals :: old) :: second) :
      Lands strings name ((pack first).length, true)

/-- The search of packed strings lands at one of them. The induction is on the strings
left, behind those that the search has passed. -/
theorem findLoop_lands (name : CString) (before strings : List (List UInt8)) (junk : List UInt8)
    (fuel : Nat) (packable : Packable strings) (enough : strings.length < fuel) :
    ∃ place, findLoop (pack before ++ (pack strings ++ 0 :: junk)) name.bytes fuel
      (pack before).length = some place ∧ Lands (before ++ strings) name place := by
  induction strings generalizing before fuel with
  | nil =>
    obtain _ | fuel := fuel
    · cases enough
    have here := ByteArea.stringAt_between (pack before) [] junk List.not_mem_nil
    rw [List.append_nil] at here
    refine ⟨((pack before).length, false), ?_, .missed rfl⟩
    rw [findLoop, ByteArea.pack_nil, List.nil_append, bind_of_some here]
    rfl
  | cons s rest inductionHypothesis =>
    obtain _ | fuel := fuel
    · cases enough
    obtain ⟨nonempty, nonul⟩ := packable s List.mem_cons_self
    have here := ByteArea.stringAt_between (pack before) s (pack rest ++ 0 :: junk) nonul
    have area : pack before ++ (pack (s :: rest) ++ 0 :: junk) =
        pack before ++ s ++ 0 :: (pack rest ++ 0 :: junk) := by simp
    rw [area, findLoop, bind_of_some here]
    dsimp only
    rw [if_neg nonempty]
    cases compared : strncmp name.bytes.length name.bytes s with
    | lt => exact ⟨_, rfl, .missed rfl⟩
    | eq =>
      obtain ⟨tail, rfl⟩ := (strncmp_length_eq_iff _ _).mp compared
      have longer : (name.bytes ++ tail).length + 1 > name.bytes.length := by
        rw [List.length_append]
        omega
      have read : (pack before ++ (name.bytes ++ tail) ++ 0 :: (pack rest ++ 0 :: junk))[
          (pack before).length + name.bytes.length]? =
          (tail ++ 0 :: (pack rest ++ 0 :: junk)).head? := by
        rw [← List.append_assoc, List.append_assoc _ tail, ← List.length_append,
          List.getElem?_append_right (Nat.le_refl _), Nat.sub_self, List.head?_eq_getElem?]
      dsimp only
      rw [if_pos longer, read]
      cases tail with
      | nil => exact ⟨_, rfl, .missed rfl⟩
      | cons byte old =>
        by_cases separator : byte = equals
        · subst separator
          exact ⟨_, rfl, .hit rfl⟩
        · have other : (byte == equals) = false := beq_eq_false_iff_ne.mpr separator
          refine ⟨((pack before).length, false), ?_, .missed rfl⟩
          show some ((pack before).length, byte == equals) = _
          rw [other]
    | gt =>
      have passed := inductionHypothesis (before ++ [s]) fuel
        (fun t member => packable t (List.mem_cons_of_mem _ member)) (Nat.lt_of_succ_lt_succ enough)
      have position : (pack (before ++ [s])).length = (pack before).length + (s.length + 1) := by
        simp
      rw [position, List.append_assoc before] at passed
      simpa using passed

/-- No more strings than bytes they are packed in. -/
theorem length_le_pack (strings : List (List UInt8)) : strings.length ≤ (pack strings).length := by
  induction strings with
  | nil => exact Nat.zero_le _
  | cons s rest inductionHypothesis =>
    rw [ByteArea.pack_cons, List.length_append, List.length_cons, List.length_cons]
    omega

namespace Packs

variable {buffer : Buffer} {strings : List (List UInt8)}

/-- The search of a buffer lands at one of its strings. -/
theorem find_lands (packs : Packs buffer strings) (packable : Packable strings) (name : CString) :
    ∃ place, findNvramEntryPosition buffer name = some place ∧ Lands strings name place := by
  obtain ⟨junk, layout⟩ := packs.layout
  have bound : strings.length < buffer.data.length := by
    have counted := length_le_pack strings
    rw [layout, List.length_append, List.length_cons]
    omega
  have found := findLoop_lands name [] strings junk buffer.data.length packable bound
  rw [findNvramEntryPosition]
  rw [layout] at found ⊢
  simpa using found

/-- Setting any name succeeds while there is room for one more string, and takes no more
room than this string. -/
theorem set_packs (packs : Packs buffer strings) (packable : Packable strings)
    (name value : CString)
    (room : (pack strings).length + stringSize name value + 2 ≤ buffer.data.length) :
    ∃ after strings', metaNvramSetEntry buffer name value = some (retOk, after) ∧
      after.data.length = buffer.data.length ∧ Packs after strings' ∧ Packable strings' ∧
      (pack strings').length ≤ (pack strings).length + stringSize name value := by
  have addressable := packs.addressable
  have small : stringSize name value < 2 ^ 31 := by omega
  have newLength := entryBytes_length name value
  have fresh := packable_entry name 0 value
  by_cases unused : buffer.dataUsed = 0
  · obtain ⟨after, done, same, result⟩ := packs.setFirst_packs unused name value (by omega)
    refine ⟨after, _, by rw [metaNvramSetEntry, if_pos unused, done], same, result, ?_, ?_⟩
    · intro s member
      rw [List.mem_singleton.mp member]
      exact fresh
    · rw [ByteArea.pack_cons, List.length_append]
      simp only [ByteArea.pack_nil, List.length_cons, List.length_nil]
      omega
  · obtain ⟨place, found, lands⟩ := packs.find_lands packable name
    rw [metaNvramSetEntry, if_neg unused, bind_of_some found]
    cases lands with
    | @missed first second parts =>
      obtain ⟨after, done, same, result⟩ := packs.insertEntry_packs unused parts name value small
        (by omega)
      dsimp only
      rw [if_neg Bool.false_ne_true, done]
      refine ⟨after, _, rfl, same, result, (parts ▸ packable).insert fresh, ?_⟩
      rw [parts]
      simp only [ByteArea.pack_append, ByteArea.pack_cons, List.length_append, List.length_cons]
      omega
    | @hit first second old parts =>
      have whole : (pack strings).length =
          (pack first).length + (name.length + old.length + 2) + (pack second).length := by
        rw [parts]
        simp only [ByteArea.pack_append, ByteArea.pack_cons, List.length_append, List.length_cons,
          CString.length]
        omega
      rw [parts] at packable
      have nonul := (packable _ (List.mem_append_right _ List.mem_cons_self)).2
      dsimp only
      rw [if_pos rfl]
      have valueLength : value.bytes.length = value.length := rfl
      have nameLength : name.bytes.length = name.length := rfl
      rcases Nat.lt_or_ge old.length value.length with outgrown | fits
      · have grown : (pack (first ++ entryBytes name value :: second)).length =
            (pack first).length + stringSize name value + (pack second).length := by
          simp only [ByteArea.pack_append, ByteArea.pack_cons, List.length_append, List.length_cons]
          omega
        obtain ⟨after, done, same, result⟩ := packs.replaceEntry_packs_grow unused nonul parts value
          small outgrown (by omega)
        rw [done]
        refine ⟨after, _, rfl, same, result, packable.replace fresh, ?_⟩
        rw [grown]
        omega
      · obtain ⟨after, done, same, result⟩ := packs.replaceEntry_packs_pad unused nonul parts value
          small fits
        rw [done]
        refine ⟨after, _, rfl, same, result,
          packable.replace (packable_entry name (old.length - value.length) value), ?_⟩
        rw [whole]
        simp only [ByteArea.pack_append, ByteArea.pack_cons, List.length_append, List.length_cons,
          List.length_replicate]
        omega

end Packs

end Ezcfg.MetaNvram

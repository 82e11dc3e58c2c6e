import Ezcfg.Foundation.Runs
import Ezcfg.MetaNvram.Search

/-!
# Reading back what was set

A set that reports success leaves one string of the name where the next search for it
stops, whatever name, value and history there were. What a lookup hands out is the value
behind the separators of this string, so it is the value given exactly when that does not
start with a separator.
-/

namespace Ezcfg.MetaNvram

open Foundation
open Foundation.ByteArea (stringAt write memmove pack)

/-- One call that may change a buffer, with any name and value. -/
inductive Edit where
  | set (name value : CString)
  | unset (name : CString)
deriving DecidableEq

/-- Perform one edit. -/
def Buffer.edit (buffer : Buffer) : Edit → Option (Int × Buffer)
  | .set name value => metaNvramSetEntry buffer name value
  | .unset name => metaNvramUnsetEntry buffer name

/-- The buffer holds packed strings. -/
def HoldsStrings (buffer : Buffer) : Prop :=
  ∃ strings, Packs buffer strings ∧ Packable strings

/-- A value with some separators in front of it is stored behind the name, in the string at
which the search for the name stops. -/
def Placed (strings : List (List UInt8)) (name value : CString) : Prop :=
  ∃ first rounds second, strings =
      first ++ (name.bytes ++ equals :: (List.replicate rounds equals ++ value.bytes)) :: second ∧
    searchStrings name strings = (first.length, true)

/-! ## What success says about sizes -/

/-- The code of failure is not that of success. -/
theorem not_succeeded {State : Type} {state after : State}
    (done : some (retFail, state) = some (retOk, after)) : False := by
  have codes : retFail = retOk := congrArg Prod.fst (Option.some.inj done)
  exact absurd codes (by decide)

/-- Checked arithmetic has no other result. -/
theorem checkedInt_eq {n m : Int} (checked : checkedInt n = some m) : m = n := by
  rw [checkedInt] at checked
  split at checked
  · exact (Option.some.inj checked).symm
  · cases checked

/-- Bytes that were written lie in the area. -/
theorem write_room {data bytes after : List UInt8} {p : Nat}
    (written : write data p bytes = some after) : p + bytes.length ≤ data.length := by
  rw [write] at written
  split at written
  · assumption
  · cases written

/-- A string that was printed lies in the area with its terminator. -/
theorem sprintf_room {data bytes after : List UInt8} {p : Nat}
    (written : sprintf data p bytes = some after) : p + bytes.length + 1 ≤ data.length := by
  have room := write_room written
  rw [List.length_append, List.length_singleton] at room
  omega

section
variable {buffer after : Buffer} {p : Nat} {name value : CString}

/-- A first entry that was set leaves two bytes or more behind it. -/
theorem setFirst_fits (addressable : buffer.data.length < 2 ^ 31)
    (done : setFirst buffer name value = some (retOk, after)) :
    stringSize name value + 1 < buffer.data.length := by
  rw [setFirst] at done
  obtain ⟨needed, counted, rest⟩ := Option.bind_eq_some_iff.mp done
  split at rest
  · exact (not_succeeded rest).elim
  · obtain ⟨printed, written, rest⟩ := Option.bind_eq_some_iff.mp rest
    have room := sprintf_room written
    have newLength := entryBytes_length name value
    have small : stringSize name value < 2 ^ 31 := by omega
    rw [newEntryLen_small small] at counted
    obtain rfl := checkedInt_eq counted
    dsimp only at rest
    rw [if_pos (by omega)] at rest
    obtain ⟨terminated, ended, -⟩ := Option.bind_eq_some_iff.mp rest
    have behind := write_room ended
    rw [ByteArea.write_length written, List.length_singleton] at behind
    omega

/-- An entry that was inserted fits beside what was there. -/
theorem insertEntry_fits (addressable : buffer.data.length < 2 ^ 31)
    (done : insertEntry buffer p name value = some (retOk, after)) :
    stringSize name value < 2 ^ 31 ∧
      (stringSize name value : Int) ≤ buffer.dataSize - buffer.dataUsed := by
  rw [insertEntry] at done
  split at done
  · exact (not_succeeded done).elim
  · rename_i accepted
    obtain ⟨moved, shifted, rest⟩ := Option.bind_eq_some_iff.mp done
    obtain ⟨printed, written, -⟩ := Option.bind_eq_some_iff.mp rest
    have room := sprintf_room written
    rw [ByteArea.memmove_length shifted] at room
    have newLength := entryBytes_length name value
    have small : stringSize name value < 2 ^ 31 := by omega
    rw [newEntryLen_small small] at accepted
    exact ⟨small, by omega⟩

/-- A padded area keeps its length. -/
theorem padLoop_length {data padded : List UInt8} {rounds : Nat}
    (done : padLoop data p rounds = some padded) : padded.length = data.length := by
  induction rounds generalizing data p with
  | zero => rw [← Option.some.inj done]
  | succ rounds inductionHypothesis =>
    obtain ⟨next, written, rest⟩ := Option.bind_eq_some_iff.mp done
    exact (inductionHypothesis rest).trans (ByteArea.write_length written)

/-- A value that replaced another one fits in place of it. -/
theorem replaceEntry_fits (addressable : buffer.data.length < 2 ^ 31) {s : List UInt8}
    (held : stringAt buffer.data p = some s)
    (done : replaceEntry buffer p name value = some (retOk, after)) :
    stringSize name value < 2 ^ 31 ∧
      (stringSize name value : Int) ≤ buffer.dataSize - buffer.dataUsed + (s.length + 1) := by
  rw [replaceEntry, bind_of_some held] at done
  generalize lengthIs : newEntryLen name value = newLen at done
  dsimp only at done
  have valueLength : value.bytes.length = value.length := rfl
  have size : stringSize name value = name.length + value.length + 2 := rfl
  split at done
  · exact (not_succeeded done).elim
  · rename_i accepted
    have small : stringSize name value < 2 ^ 31 := by
      split at done
      · obtain ⟨padded, filled, rest⟩ := Option.bind_eq_some_iff.mp done
        obtain ⟨printed, written, -⟩ := Option.bind_eq_some_iff.mp rest
        have room := sprintf_room written
        rw [padLoop_length filled] at room
        omega
      · obtain ⟨moved, shifted, rest⟩ := Option.bind_eq_some_iff.mp done
        obtain ⟨printed, written, -⟩ := Option.bind_eq_some_iff.mp rest
        have room := sprintf_room written
        rw [ByteArea.memmove_length shifted] at room
        omega
    rw [newEntryLen_small small] at lengthIs
    subst lengthIs
    exact ⟨small, by omega⟩

end

/-! ## Where a set puts its value -/

namespace Packs

variable {buffer after : Buffer} {strings : List (List UInt8)}

/-- A set that succeeded has placed its value. -/
theorem set_placed (packs : Packs buffer strings) (packable : Packable strings)
    {name value : CString} (done : metaNvramSetEntry buffer name value = some (retOk, after)) :
    ∃ strings', Packs after strings' ∧ Packable strings' ∧ Placed strings' name value := by
  have addressable := packs.addressable
  have newLength := entryBytes_length name value
  have fresh := packable_entry name 0 value
  by_cases unused : buffer.dataUsed = 0
  · rw [metaNvramSetEntry, if_pos unused] at done
    obtain ⟨after', again, -, result⟩ :=
      packs.setFirst_packs unused name value (setFirst_fits addressable done)
    obtain rfl : after = after' := congrArg Prod.snd (Option.some.inj (done.symm.trans again))
    refine ⟨_, result, ?_, [], 0, [], rfl, ?_⟩
    · intro s member
      rw [List.mem_singleton.mp member]
      exact fresh
    · exact searchStrings_entry name value.bytes []
  · have found := packs.find_strings packable name
    have placed := searchStrings_placed name strings
    have bound := searchStrings_le name strings
    obtain ⟨i, stopped⟩ : ∃ i, i = (searchStrings name strings).1 := ⟨_, rfl⟩
    rw [← stopped] at found placed bound
    have firstLength : (strings.take i).length = i := List.length_take_of_le bound
    cases hit : (searchStrings name strings).2 with
    | false =>
      rw [hit] at found
      rw [setEntry_missed unused found] at done
      have parts : strings = strings.take i ++ strings.drop i := (List.take_append_drop i _).symm
      obtain ⟨small, accepted⟩ := insertEntry_fits addressable done
      have counted := packs.used_eq unused
      obtain ⟨after', again, -, result⟩ := packs.insertEntry_packs unused parts name value small
        (by rw [Buffer.dataSize] at accepted; omega)
      obtain rfl : after = after' := congrArg Prod.snd (Option.some.inj (done.symm.trans again))
      refine ⟨_, result, (parts ▸ packable).insert fresh, _, 0, _, rfl, ?_⟩
      rw [firstLength]
      exact placed value.bytes _
    | true =>
      rw [hit] at found
      rw [setEntry_hit unused found] at done
      obtain ⟨old, parts⟩ := searchStrings_hit (Prod.ext stopped.symm hit)
      have whole : (pack strings).length = (pack (strings.take i)).length +
          (name.length + old.length + 2) + (pack (strings.drop (i + 1))).length := by
        conv_lhs => rw [parts]
        simp only [ByteArea.pack_append, ByteArea.pack_cons, List.length_append, List.length_cons,
          CString.length]
        omega
      have proper := parts ▸ packable
      have nonul := (proper _ (List.mem_append_right _ List.mem_cons_self)).2
      obtain ⟨junk, -, held⟩ := packs.cut_string parts nonul
      obtain ⟨small, accepted⟩ := replaceEntry_fits addressable held done
      have counted := packs.used_eq unused
      have nameLength : name.bytes.length = name.length := rfl
      rcases Nat.lt_or_ge old.length value.length with outgrown | fits
      · have grown : (pack (strings.take i ++ entryBytes name value ::
            strings.drop (i + 1))).length = (pack (strings.take i)).length +
              stringSize name value + (pack (strings.drop (i + 1))).length := by
          simp only [ByteArea.pack_append, ByteArea.pack_cons, List.length_append, List.length_cons]
          omega
        rw [Buffer.dataSize, List.length_append, List.length_cons] at accepted
        obtain ⟨after', again, -, result⟩ := packs.replaceEntry_packs_grow unused nonul parts value
          small outgrown (by omega)
        obtain rfl : after = after' := congrArg Prod.snd (Option.some.inj (done.symm.trans again))
        refine ⟨_, result, proper.replace fresh, _, 0, _, rfl, ?_⟩
        rw [firstLength]
        exact placed value.bytes _
      · obtain ⟨after', again, -, result⟩ := packs.replaceEntry_packs_pad unused nonul parts value
          small fits
        obtain rfl : after = after' := congrArg Prod.snd (Option.some.inj (done.symm.trans again))
        refine ⟨_, result, proper.replace (packable_entry name _ value), _, _, _, rfl, ?_⟩
        rw [firstLength]
        exact placed _ _

end Packs

/-! ## What every edit keeps -/

section
variable {buffer after : Buffer} {name value : CString} {ret : Int}

/-- The first set reports success, or fails and changes nothing. -/
theorem setFirst_code (done : setFirst buffer name value = some (ret, after)) :
    ret = retOk ∨ after = buffer := by
  rw [setFirst] at done
  obtain ⟨needed, -, rest⟩ := Option.bind_eq_some_iff.mp done
  split at rest
  · exact .inr (congrArg Prod.snd (Option.some.inj rest)).symm
  · obtain ⟨printed, -, rest⟩ := Option.bind_eq_some_iff.mp rest
    dsimp only at rest
    split at rest
    · obtain ⟨terminated, -, rest⟩ := Option.bind_eq_some_iff.mp rest
      exact .inl (congrArg Prod.fst (Option.some.inj rest)).symm
    · cases rest

/-- An insertion reports success, or fails and changes nothing. -/
theorem insertEntry_code {p : Nat} (done : insertEntry buffer p name value = some (ret, after)) :
    ret = retOk ∨ after = buffer := by
  rw [insertEntry] at done
  split at done
  · exact .inr (congrArg Prod.snd (Option.some.inj done)).symm
  · obtain ⟨moved, -, rest⟩ := Option.bind_eq_some_iff.mp done
    obtain ⟨printed, -, rest⟩ := Option.bind_eq_some_iff.mp rest
    exact .inl (congrArg Prod.fst (Option.some.inj rest)).symm

/-- A replacement reports success, or fails and changes nothing. -/
theorem replaceEntry_code {p : Nat} (done : replaceEntry buffer p name value = some (ret, after)) :
    ret = retOk ∨ after = buffer := by
  rw [replaceEntry] at done
  generalize newEntryLen name value = newLen at done
  obtain ⟨s, -, rest⟩ := Option.bind_eq_some_iff.mp done
  dsimp only at rest
  split at rest
  · exact .inr (congrArg Prod.snd (Option.some.inj rest)).symm
  · split at rest
    · obtain ⟨padded, -, rest⟩ := Option.bind_eq_some_iff.mp rest
      obtain ⟨printed, -, rest⟩ := Option.bind_eq_some_iff.mp rest
      exact .inl (congrArg Prod.fst (Option.some.inj rest)).symm
    · obtain ⟨moved, -, rest⟩ := Option.bind_eq_some_iff.mp rest
      obtain ⟨printed, -, rest⟩ := Option.bind_eq_some_iff.mp rest
      exact .inl (congrArg Prod.fst (Option.some.inj rest)).symm

end

/-- Every edit of packed strings leaves packed strings. -/
theorem HoldsStrings.edit {buffer after : Buffer} (held : HoldsStrings buffer) {edit : Edit}
    {ret : Int} (done : buffer.edit edit = some (ret, after)) : HoldsStrings after := by
  obtain ⟨strings, packs, packable⟩ := held
  cases edit with
  | set name value =>
    have outcome : ret = retOk ∨ after = buffer := by
      by_cases unused : buffer.dataUsed = 0
      · rw [Buffer.edit, metaNvramSetEntry, if_pos unused] at done
        exact setFirst_code done
      · have found := packs.find_strings packable name
        cases hit : (searchStrings name strings).2 with
        | false =>
          rw [hit] at found
          rw [Buffer.edit, setEntry_missed unused found] at done
          exact insertEntry_code done
        | true =>
          rw [hit] at found
          rw [Buffer.edit, setEntry_hit unused found] at done
          exact replaceEntry_code done
    rcases outcome with rfl | rfl
    · obtain ⟨strings', packs', packable', -⟩ := packs.set_placed packable done
      exact ⟨strings', packs', packable'⟩
    · exact ⟨strings, packs, packable⟩
  | unset name =>
    rw [Buffer.edit] at done
    have found := packs.find_strings packable name
    cases hit : (searchStrings name strings).2 with
    | false =>
      rw [hit] at found
      rw [unset_missed found] at done
      obtain rfl : buffer = after := congrArg Prod.snd (Option.some.inj done)
      exact ⟨strings, packs, packable⟩
    | true =>
      rw [hit] at found
      obtain ⟨inUse, first, old, second, parts, place, nonul⟩ := packs.find_hit packable found
      rw [place] at found
      obtain ⟨after', again, -, -, result⟩ := packs.unset_packs inUse parts nonul found
      obtain rfl : after = after' := congrArg Prod.snd (Option.some.inj (done.symm.trans again))
      refine ⟨first ++ second, result, fun s member => packable s ?_⟩
      rw [parts]
      rcases List.mem_append.mp member with before | behind
      · exact List.mem_append_left _ before
      · exact List.mem_append_right _ (List.mem_cons_of_mem _ behind)

/-- A new buffer holds no strings, and is clear. -/
theorem new_holdsStrings {size : Int32} {start : Buffer}
    (created : localMetaNvramNew size = some start) : HoldsStrings start := by
  have bound := size.toInt_lt
  rw [localMetaNvramNew] at created
  split at created
  · rename_i accepted
    obtain rfl := Option.some.inj created
    rw [headerSize] at accepted ⊢
    obtain ⟨rest, length⟩ : ∃ rest, (size.toInt - (32 : Nat)).toNat = rest + 1 :=
      ⟨(size.toInt - (32 : Nat)).toNat - 1, by omega⟩
    rw [length]
    refine ⟨[], ⟨⟨List.replicate rest 0, rfl⟩, .inr ⟨rfl, rfl, fun byte member => ?_⟩, ?_⟩, ?_⟩
    · exact List.eq_of_mem_replicate member
    · rw [Buffer.fresh, List.length_replicate]
      omega
    · exact fun s member => absurd member List.not_mem_nil
  · cases created

/-- Every buffer that edits can lead to holds packed strings. -/
theorem reachable_holdsStrings {size : Int32} {start buffer : Buffer}
    (created : localMetaNvramNew size = some start) (reached : Reachable Buffer.edit start buffer) :
    HoldsStrings buffer := by
  refine reachable_invariant HoldsStrings (new_holdsStrings created) ?_ reached
  intro before edit ret after held done
  exact held.edit done

/-! ## What a lookup hands out -/

/-- A set that reports success is read back exactly when the value does not start with a
separator. -/
theorem readsBack_iff (size : Int32) {start buffer after : Buffer}
    (created : localMetaNvramNew size = some start) (reached : Reachable Buffer.edit start buffer)
    (name value : CString) (stored : metaNvramSetEntry buffer name value = some (retOk, after)) :
    metaNvramGetEntryValue after name true = some (retOk, some value.bytes) ↔
      value.bytes.head? ≠ some equals := by
  obtain ⟨strings, packs, packable⟩ := reachable_holdsStrings created reached
  obtain ⟨strings', packs', packable', first, rounds, second, parts, searched⟩ :=
    packs.set_placed packable stored
  have found := packs'.find_strings packable' name
  rw [searched, parts, List.take_left] at found
  have nonul := (packable_entry name rounds value).2
  rw [packs'.get_hit parts nonul found, dropWhile_padded, ← dropWhile_eq_self_iff]
  constructor
  · intro same
    exact Option.some.inj (congrArg Prod.snd (Option.some.inj same))
  · intro kept
    rw [kept]

/-- A name of one letter, and a value that starts with a separator. -/
def nameB : CString := ⟨[98], by decide, by decide⟩

def valueSeparator : CString := ⟨[61, 121], by decide, by decide⟩

/-- The buffer that holds the value under the name. -/
def separatorStored : Buffer := ⟨[98, 61, 61, 121] ++ List.replicate 4 0, 6⟩

/-- The separator in front of a value is lost. -/
theorem not_readsBack : ¬ ∀ (size : Int32) (start buffer after : Buffer) (name value : CString),
    localMetaNvramNew size = some start → Reachable Buffer.edit start buffer →
    name.bytes ≠ [] → equals ∉ name.bytes →
    metaNvramSetEntry buffer name value = some (retOk, after) →
    metaNvramGetEntryValue after name true = some (retOk, some value.bytes) := by
  intro readsBack
  have wrong := readsBack 40 (.fresh 8) (.fresh 8) separatorStored nameB valueSeparator (by decide)
    .start (by decide) (by decide) (by decide +kernel)
  revert wrong
  decide +kernel

theorem readsBack_iff_separator :
    metaNvramGetEntryValue separatorStored nameB true = some (retOk, some valueSeparator.bytes) ↔
      valueSeparator.bytes.head? ≠ some equals :=
  readsBack_iff 40 (show localMetaNvramNew 40 = some (.fresh 8) by decide) .start nameB
    valueSeparator (by decide +kernel)

end Ezcfg.MetaNvram

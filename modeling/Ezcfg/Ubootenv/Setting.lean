import Mathlib.Data.List.Flatten
import Ezcfg.Ubootenv.Entries

/-!
# Setting a variable of the environment

A call is refused when it is for a protected variable that has a value of its own, or when the
new entry is longer than the rest of the image. Every other call clears the image from the end
of the entries on, and the count of it is that of the whole image: the last bytes that it clears
lie behind the image.
-/

namespace Ezcfg.Ubootenv

open Foundation Util
open Foundation.ByteArea (pack)

/-- The entries with a variable set, or without it. -/
def setEntries (entries : List (List UInt8)) (name : CString) : Option CString → List (List UInt8)
  | some value => entries.eraseP (entryOf name.bytes) ++ [name.bytes ++ equals :: value.bytes]
  | none => entries.eraseP (entryOf name.bytes)

/-- Whether entries and the double terminator fit into an image of a size. -/
def Fits (size : Nat) (entries : List (List UInt8)) : Prop :=
  crcSize + (pack entries ++ ending entries).length ≤ size

/-- What reading a variable gives: its value, or nothing. -/
def Reads (image : List UInt8) (name : CString) : Option CString → Prop
  | some value =>
    ∀ len, value.length < len → ubootenvGet image name len = some (0, some value.bytes)
  | none => ∀ len, 0 < len → ubootenvGet image name len = some (-errParse, none)

/-- What setting a variable keeps. -/
structure Kept (image after : List UInt8) (entries : List (List UInt8)) (name : CString)
    (value : Option CString) (rc : Int) : Prop where
  success : rc = 0 → ∃ later, Environment after later ∧ Reads after name value ∧
    later.filter (fun entry => !entryOf name.bytes entry) =
      entries.filter (fun entry => !entryOf name.bytes entry)
  space : rc = -errSpace → ¬ Fits image.length (setEntries entries name value)

/-- Where the entries end that stay. -/
def stayEnd (entries : List (List UInt8)) (name : CString) : Nat :=
  crcSize + if entries = [] then 1 else (pack (entries.eraseP (entryOf name.bytes))).length

/-- Whether a variable is protected, since its value is not the one to be replaced. -/
def Protected (entries : List (List UInt8)) (name : CString) : Prop :=
  ∃ entry, entries.find? (entryOf name.bytes) = some entry ∧
    checkUbootenvName entry name.bytes defaultChecklist < 0

/-- Whether setting a variable is refused. -/
def Refused (size : Nat) (entries : List (List UInt8)) (name : CString) (value : Option CString) :
    Prop :=
  name.length < 1 ∨ Protected entries name ∨
    (size : Int) - stayEnd entries name < newEntryLen name value

variable {image : List UInt8} {entries : List (List UInt8)} {name : CString}

/-- A block is moved down inside an image. -/
theorem memmove_inside (image : List UInt8) {target source count : Nat} (down : target ≤ source)
    (inside : source + count ≤ image.length) :
    ∃ after, ByteArea.memmove image target source count = some after := by
  have length : ((image.drop source).take count).length = count := by
    rw [List.length_take, List.length_drop]
    omega
  rw [ByteArea.memmove, if_pos ⟨Int.natCast_nonneg _, by rwa [Int.toNat_natCast]⟩,
    Int.toNat_natCast, ByteArea.write, if_pos (by omega)]
  exact ⟨_, rfl⟩

/-- An int holds the length of a name. -/
theorem toInt32_length (name : CString) : toInt32 name.length = name.length := by
  have short := name.short
  exact toInt32_of_range (by omega) (by rw [CString.length]; omega)

/-- The checks of the protected names give minus one or zero. -/
theorem checkUbootenvName_cases (entry text : List UInt8)
    (checklist : List (List UInt8 × List UInt8)) :
    checkUbootenvName entry text checklist = -1 ∨ checkUbootenvName entry text checklist = 0 := by
  rw [checkUbootenvName]
  split
  · exact Or.inl rfl
  · exact Or.inr rfl

/-- The first entry of a name is the one that is found and the one that is erased. -/
theorem first_entry {text entry : List UInt8} {before : List (List UInt8)}
    (after : List (List UInt8))
    (others : ∀ other ∈ before, entryOf text other = false) (entered : entryOf text entry = true) :
    (before ++ entry :: after).find? (entryOf text) = some entry ∧
      (before ++ entry :: after).eraseP (entryOf text) = before ++ after := by
  have unmatched : ∀ other ∈ before, ¬ entryOf text other = true :=
    fun other member => Bool.eq_false_iff.mp (others other member)
  constructor
  · rw [List.find?_append, List.find?_eq_none.mpr unmatched, Option.none_or,
      List.find?_cons_of_pos entered]
  · rw [List.eraseP_append_right _ unmatched, List.eraseP_cons_of_pos entered]

/-- Removing the entry of a name is refused, or it ends with the entries that stay. -/
theorem removeEntry_cases (environment : Environment image entries) (name : CString) :
    (Protected entries name ∧
      removeEntry image (endOf entries) name = some (-1, image, endOf entries)) ∨
    ¬ Protected entries name ∧
      ∃ buf, removeEntry image (endOf entries) name = some (0, buf, stayEnd entries name) ∧
        buf.length = image.length := by
  obtain ⟨crc, rest, sized, area⟩ := environment.cut
  have length : image.length = crcSize + (pack entries).length + (rest.length + 1) := by
    rw [area, List.length_append, List.length_append, List.length_cons, sized]
  have int := toInt32_length name
  have whole : name.bytes.length = name.length := rfl
  obtain ⟨others, p, looked⟩ | ⟨before, entry, after, rfl, others, entered, looked⟩ :=
    lookUp_cases rest (List.prefix_refl name.bytes) int sized environment.proper
  · rw [← area, whole] at looked
    have unmatched : ∀ entry ∈ entries, ¬ entryOf name.bytes entry = true :=
      fun entry member => Bool.eq_false_iff.mp (others entry member)
    right
    constructor
    · rintro ⟨entry, found, -⟩
      rw [List.find?_eq_none.mpr unmatched] at found
      cases found
    · refine ⟨image, ?_, rfl⟩
      have stays : stayEnd entries name = endOf entries := by
        rw [stayEnd, List.eraseP_of_forall_not unmatched, endOf]
      rw [removeEntry, int, bind_of_some looked, stays]
      rfl
  · rw [← area, whole] at looked
    obtain ⟨found, erased⟩ := first_entry after others entered
    have nonempty : before ++ entry :: after ≠ [] :=
      List.append_ne_nil_of_right_ne_nil _ (List.cons_ne_nil _ _)
    have place : (crc ++ pack before).length = crcSize + (pack before).length := by
      rw [List.length_append, sized]
    have total : (pack (before ++ entry :: after)).length =
        (pack before).length + (entry.length + 1 + (pack after).length) := by
      rw [ByteArea.pack_append, ByteArea.pack_cons, List.length_append, List.length_append,
        List.length_cons]
      omega
    have last : endOf (before ++ entry :: after) =
        crcSize + (pack (before ++ entry :: after)).length := by
      rw [endOf, if_neg nonempty]
    have stays : stayEnd (before ++ entry :: after) name =
        endOf (before ++ entry :: after) - (entry.length + 1) := by
      rw [stayEnd, if_neg nonempty, erased, ByteArea.pack_append, List.length_append, last, total]
      omega
    by_cases refused : checkUbootenvName entry name.bytes defaultChecklist < 0
    · left
      refine ⟨⟨entry, found, refused⟩, ?_⟩
      obtain code | code := checkUbootenvName_cases entry name.bytes defaultChecklist
      · rw [removeEntry, int, bind_of_some looked]
        dsimp only
        rw [if_pos refused, code]
        rfl
      · rw [code] at refused
        exact absurd refused (Int.lt_irrefl 0)
    · right
      constructor
      · rintro ⟨other, same, negative⟩
        obtain rfl := Option.some.inj (found.symm.trans same)
        exact refused negative
      · have count : ((endOf (before ++ entry :: after) + 1 : Nat) : Int) -
            ((crc ++ pack before).length + (entry.length + 1) : Nat) =
            ((pack after).length + 1 : Nat) := by
          rw [last, place, total]
          omega
        obtain ⟨buf, moved⟩ := memmove_inside image
          (Nat.le_add_right (crc ++ pack before).length (entry.length + 1))
          (show (crc ++ pack before).length + (entry.length + 1) + ((pack after).length + 1) ≤
            image.length by rw [length, place, total]; omega)
        refine ⟨buf, ?_, ByteArea.memmove_length moved⟩
        rw [removeEntry, int, bind_of_some looked]
        dsimp only
        rw [if_neg refused, count, bind_of_some moved, stays]
        rfl

/-- The end of the entries of a valid environment is found inside the image. -/
theorem endOf_found (environment : Environment image entries) :
    findEnd image image.length (crcSize + 1) = endOf entries ∧ endOf entries < image.length := by
  obtain ⟨crc, junk, sized, rfl⟩ := environment.layout
  refine ⟨findEnd_entries sized environment.proper, ?_⟩
  rw [endOf, ending]
  simp only [List.length_append, sized]
  split
  · subst_vars
    simp only [List.length_cons, List.length_nil]
    omega
  · simp only [List.length_cons, List.length_nil]
    omega

/-- A write that ends behind an image has no result. -/
theorem write_beyond {p : Nat} {bytes : List UInt8} (beyond : image.length < p + bytes.length) :
    ByteArea.write image p bytes = none := if_neg (Nat.not_le.mpr beyond)

/-- A call that is not refused clears bytes behind the image. -/
theorem ubootenvSet_beyond (environment : Environment image entries) {value : Option CString}
    (accepted : ¬ Refused image.length entries name value) : ubootenvSet image name value = none := by
  obtain ⟨positive, unprotected, room⟩ : ¬ name.length < 1 ∧ ¬ Protected entries name ∧
      ¬ (image.length : Int) - stayEnd entries name < newEntryLen name value := by
    rw [Refused, not_or, not_or] at accepted
    exact accepted
  obtain ⟨refused, -⟩ | ⟨-, buf, removed, length⟩ := removeEntry_cases environment name
  · exact absurd refused unprotected
  obtain ⟨found, inside⟩ := endOf_found environment
  have counted : ¬ toInt32 name.length < 1 := by
    rw [toInt32_length]
    omega
  rw [ubootenvSet, if_neg counted, bind_of_some environment.valid]
  dsimp only
  rw [found, if_neg (by decide), if_neg (Nat.ne_of_lt inside), bind_of_some removed]
  dsimp only
  rw [if_neg (Int.lt_irrefl 0), length, if_neg room]
  cases added : addEntry buf (stayEnd entries name) name value with
  | none => rfl
  | some extended =>
    have same : extended.length = image.length := by
      rw [← length]
      cases value with
      | none => rw [← Option.some.inj added]
      | some value => exact ByteArea.write_length added
    rw [bind_of_some rfl]
    by_cases front : 0 ≤ (stayEnd entries name : Int) + newEntryLen name value
    · rw [bind_of_some (ensure_of front), same, write_beyond]
      · rfl
      · have header : 0 < crcSize := Nat.succ_pos 3
        rw [List.length_replicate]
        omega
    · rw [ensure, if_neg front]
      rfl

/-- An int that holds a length is at most the length. -/
theorem toInt32_le (n : Int) (natural : 0 ≤ n) : toInt32 n ≤ n := by
  rw [toInt32]
  omega

/-- When there is no room for the new entry, the entries and the double terminator do not fit. -/
theorem not_fits (environment : Environment image entries) {value : Option CString}
    (room : (image.length : Int) - stayEnd entries name < newEntryLen name value) :
    ¬ Fits image.length (setEntries entries name value) := by
  have inside := (endOf_found environment).2
  have erased : (pack (entries.eraseP (entryOf name.bytes))).length ≤ (pack entries).length :=
    (List.eraseP_sublist.flatMap _).length_le
  cases value with
  | none =>
    have within : stayEnd entries name ≤ endOf entries := by
      rw [stayEnd, endOf]
      split
      · exact Nat.le_refl _
      · exact Nat.add_le_add_left erased _
    rw [newEntryLen] at room
    omega
  | some value =>
    have bounded := toInt32_le (name.length + value.length + 2) (by omega)
    rw [newEntryLen, toInt32_length] at room
    intro fits
    have size : crcSize + ((pack (entries.eraseP (entryOf name.bytes))).length +
        (name.length + value.length + 2)) + 1 ≤ image.length := by
      refine Nat.le_trans (Nat.le_of_eq ?_) fits
      have nonempty : setEntries entries name (some value) ≠ [] :=
        List.append_ne_nil_of_right_ne_nil _ (List.cons_ne_nil _ _)
      rw [ending, if_neg nonempty, setEntries, ByteArea.pack_append, ByteArea.pack_cons]
      simp only [List.length_append, List.length_cons, ByteArea.pack_nil, List.length_nil,
        CString.length]
      omega
    rw [stayEnd] at room
    split at room
    · omega
    · omega

/-- A refused call keeps the environment. -/
theorem ubootenvSet_refused (environment : Environment image entries) {value : Option CString}
    (refused : Refused image.length entries name value) :
    ∃ rc after, ubootenvSet image name value = some (rc, after) ∧
      Kept image after entries name value rc := by
  by_cases empty : name.length < 1
  · have counted : toInt32 name.length < 1 := by
      rw [toInt32_length]
      omega
    refine ⟨-errParse, image, by rw [ubootenvSet, if_pos counted], ?_, ?_⟩
    · intro success
      cases success
    · intro space
      cases space
  · obtain ⟨found, inside⟩ := endOf_found environment
    have counted : ¬ toInt32 name.length < 1 := by
      rw [toInt32_length]
      omega
    rw [ubootenvSet, if_neg counted, bind_of_some environment.valid]
    dsimp only
    rw [found, if_neg (by decide), if_neg (Nat.ne_of_lt inside)]
    obtain ⟨-, removed⟩ | ⟨unprotected, buf, removed, length⟩ :=
      removeEntry_cases environment name
    · rw [bind_of_some removed]
      refine ⟨-1, image, rfl, ?_, ?_⟩
      · intro success
        cases success
      · intro space
        cases space
    · have room : (image.length : Int) - stayEnd entries name < newEntryLen name value := by
        obtain short | guarded | room := refused
        · exact absurd short empty
        · exact absurd guarded unprotected
        · exact room
      rw [bind_of_some removed]
      dsimp only
      rw [if_neg (Int.lt_irrefl 0), length, if_pos room]
      refine ⟨-errSpace, image, rfl, ?_, ?_⟩
      · intro success
        cases success
      · exact fun _ => not_fits environment room

/-- Setting a variable of a valid environment stays inside the image and keeps the environment
exactly when it is refused. -/
theorem ubootenvSet_kept_iff {image : List UInt8} {entries : List (List UInt8)}
    (environment : Environment image entries) (name : CString) (value : Option CString) :
    (∃ rc after, ubootenvSet image name value = some (rc, after) ∧
      Kept image after entries name value rc) ↔ Refused image.length entries name value := by
  constructor
  · rintro ⟨rc, after, done, -⟩
    by_contra accepted
    rw [ubootenvSet_beyond environment accepted] at done
    cases done
  · exact ubootenvSet_refused environment

/-- An image of twelve bytes that sets "a" to "b". -/
def imageAB : List UInt8 :=
  [0x8f, 0x15, 0xeb, 0xf5, 0x61, 0x3d, 0x62, 0x00, 0x00, 0x00, 0x00, 0x00]

/-- The image is valid. -/
theorem imageAB_environment : Environment imageAB [[0x61, 0x3d, 0x62]] where
  proper := by unfold Proper; decide
  layout := ⟨[0x8f, 0x15, 0xeb, 0xf5], [0, 0, 0], rfl, rfl⟩
  valid := by decide +kernel

/-- The letter is no terminator. -/
theorem letterK_ne : (0x6b : UInt8) ≠ 0 := by decide

/-- The name "k". -/
def nameK : CString := .single 0x6b letterK_ne

/-- The value "w". -/
def valueW : CString := .single 0x77 (by decide)

/-- Setting "k" to "w" in the image keeps it exactly when it is refused. -/
theorem ubootenvSet_kept_iff_k :
    (∃ rc after, ubootenvSet imageAB nameK (some valueW) = some (rc, after) ∧
      Kept imageAB after [[0x61, 0x3d, 0x62]] nameK (some valueW) rc) ↔
      Refused imageAB.length [[0x61, 0x3d, 0x62]] nameK (some valueW) :=
  ubootenvSet_kept_iff imageAB_environment nameK (some valueW)

/-- Setting "k" to "w" in the image, which has room for it, clears bytes behind the image. -/
theorem not_ubootenvSet_kept :
    Environment imageAB [[0x61, 0x3d, 0x62]] ∧
      ¬ ∃ rc after, ubootenvSet imageAB nameK (some valueW) = some (rc, after) ∧
        Kept imageAB after [[0x61, 0x3d, 0x62]] nameK (some valueW) rc := by
  refine ⟨imageAB_environment, ?_⟩
  rintro ⟨rc, after, done, -⟩
  have beyond : ubootenvSet imageAB nameK (some valueW) = none := by decide +kernel
  rw [beyond] at done
  cases done

end Ezcfg.Ubootenv

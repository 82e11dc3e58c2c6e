import Ezcfg.Foundation.TextCuts
import Ezcfg.Ubootenv.Setting

/-!
# Listing the environment

The list is made by going over the data up to the double terminator and writing a new line for
each terminator. Without an entry the double terminator is the first two bytes of the data, and
the list has a line that no entry has.

A text with a new line in it falls apart in the list. So the list gives the values of the
environment when no name has a new line, and a value has one only where an earlier entry of the
name hides it.
-/

namespace Ezcfg.Ubootenv

open Foundation
open Foundation.ByteArea (pack)

/-- `EZCFG_E_ARGUMENT` -/
def errArgument : Int := 100

/-- "\n" -/
abbrev newline : UInt8 := 0x0a

/-- The loop of `ezcfg_api_ubootenv_list`: the bytes that are written for a length that is left,
with the terminator. -/
def listLoop (image : List UInt8) (last : Nat) : Nat → Nat → Option (List UInt8)
  | len + 2, p =>
    if p = last then some [0]
    else do
      let byte ← image[p]?
      let rest ← listLoop image last (len + 1) (p + 1)
      return (if byte = 0 then newline else byte) :: rest
  | _, _ => some [0]

/-- `ezcfg_api_ubootenv_list`: the code, and the bytes that are written to the list. -/
def ubootenvList (image : List UInt8) (len : Nat) : Option (Int × List UInt8) :=
  if len < 1 then some (-errArgument, [])
  else do
    if !(← checkCrc image) then return (-errCrc, [])
    let last := findEnd image image.length (crcSize + 1)
    if last = image.length then return (-errParse, [])
    let list ← listLoop image last len crcSize
    return (0, list)

/-- Every entry in order, each followed by a new line. -/
def listing (entries : List (List UInt8)) : List UInt8 := entries.flatMap (· ++ [newline])

/-- The value of a name among texts: what follows the name and the separator in the first text
that is an entry of the name. -/
def valueIn (texts : List (List UInt8)) (name : List UInt8) : Option (List UInt8) :=
  (texts.find? (entryOf name)).map (·.drop (name.length + 1))

/-- What `ezcfg_api_ubootenv_get` gives for a name: the value, where there is room for it, or an
error where there is none. -/
def Gets (image : List UInt8) (name : CString) : Option (List UInt8) → Prop
  | some value => ∀ len, value.length < len → ubootenvGet image name len = some (0, some value)
  | none => ∀ len, 0 < len → ubootenvGet image name len = some (-errParse, none)

/-- The list is right: it is the front of the listing that there is room for, and in the
listing and in the image every name has the value that is got for it. -/
structure Lists (image : List UInt8) (entries : List (List UInt8)) (len : Nat) : Prop where
  written : ∃ list, ubootenvList image len = some (0, list) ∧ list.length ≤ len ∧
    list = (listing entries).take (len - 1) ++ [0]
  listed : ∀ name ≠ [], valueIn ((listing entries).splitOn newline) name = valueIn entries name
  got : ∀ name : CString, 1 ≤ name.length → Gets image name (valueIn entries name.bytes)

/-- No name has a new line, and a value has one only where an earlier entry of the name hides
it. -/
def Plain (entries : List (List UInt8)) : Prop :=
  ∀ before entry after, entries = before ++ entry :: after →
    ∀ name value, name ≠ [] → entry = name ++ equals :: value →
      newline ∉ name ∧ (newline ∈ value → ∃ earlier ∈ before, entryOf name earlier)

/-- What is written for a byte. -/
def listed (byte : UInt8) : UInt8 := if byte = 0 then newline else byte

/-- The loop writes the bytes up to the end, as far as there is room. -/
theorem listLoop_eq (front text rest : List UInt8) (len : Nat) :
    listLoop (front ++ text ++ rest) (front.length + text.length) (len + 1) front.length =
      some ((text.map listed).take len ++ [0]) := by
  induction text generalizing front len with
  | nil =>
    cases len with
    | zero => rfl
    | succ len =>
      rw [listLoop, if_pos]
      · rfl
      · rfl
  | cons byte text inductionHypothesis =>
    cases len with
    | zero => rfl
    | succ len =>
      have more : ¬ front.length = front.length + (byte :: text).length := by
        rw [List.length_cons]
        omega
      have here : (front ++ byte :: text ++ rest)[front.length]? = some byte := by
        rw [List.append_assoc, List.getElem?_append_right (Nat.le_refl _), Nat.sub_self]
        rfl
      have later := inductionHypothesis (front ++ [byte]) len
      have place : (front ++ [byte]).length + text.length = front.length + (byte :: text).length := by
        simp only [List.length_append, List.length_cons, List.length_nil]
        omega
      rw [place, List.length_append, List.length_singleton, List.append_assoc front,
        List.singleton_append] at later
      rw [listLoop, if_neg more, bind_of_some here, bind_of_some later]
      rfl

/-- The packed entries are written as their listing. -/
theorem pack_listed {entries : List (List UInt8)} (proper : Proper entries) :
    (pack entries).map listed = listing entries := by
  induction entries with
  | nil => rfl
  | cons entry entries inductionHypothesis =>
    rw [Proper, List.forall_mem_cons] at proper
    have same : entry.map listed = entry := by
      have kept : entry.map listed = entry.map id := by
        apply List.map_congr_left
        intro byte member
        apply if_neg
        rintro rfl
        exact proper.1.2 member
      rw [kept, List.map_id]
    have cut : listing (entry :: entries) = entry ++ newline :: listing entries := by
      simp [listing]
    rw [ByteArea.pack_cons, List.map_append, List.map_cons, same, inductionHypothesis proper.2, cut]
    rfl

variable {image : List UInt8} {entries : List (List UInt8)}

/-- What the list shows: the listing, or one new line when there are no entries. -/
theorem ubootenvList_eq (environment : Environment image entries) (len : Nat) :
    ubootenvList image (len + 1) = some (0,
      (if entries = [] then [newline] else listing entries).take len ++ [0]) := by
  obtain ⟨found, inside⟩ := endOf_found environment
  obtain ⟨crc, junk, sized, layout⟩ := environment.layout
  have list : listLoop image (endOf entries) (len + 1) crcSize =
      some ((if entries = [] then [newline] else listing entries).take len ++ [0]) := by
    rw [layout, endOf, ending, ← sized]
    split_ifs with empty
    · rw [empty, ByteArea.pack_nil, List.nil_append]
      have written := listLoop_eq crc [0] (0 :: junk) len
      rw [List.append_assoc] at written
      exact written
    · have written := listLoop_eq crc (pack entries) ([0] ++ junk) len
      rw [pack_listed environment.proper, List.append_assoc, ← List.append_assoc (pack entries)]
        at written
      exact written
  rw [ubootenvList, if_neg (Nat.not_lt.mpr (Nat.succ_pos len)), bind_of_some environment.valid]
  dsimp only
  rw [found]
  simp only [Bool.not_true, Bool.false_eq_true, if_false, Nat.ne_of_lt inside]
  rw [bind_of_some list]
  rfl

/-- The list is the front of the listing, unless it shows an environment without entries. -/
theorem written_iff (environment : Environment image entries) (len : Nat) :
    (∃ list, ubootenvList image (len + 1) = some (0, list) ∧ list.length ≤ len + 1 ∧
      list = (listing entries).take len ++ [0]) ↔ entries ≠ [] ∨ len = 0 := by
  rw [ubootenvList_eq environment]
  by_cases empty : entries = []
  · rw [if_pos empty, empty]
    cases len with
    | zero =>
      apply iff_of_true
      · exact ⟨[0], rfl, Nat.le_refl _, rfl⟩
      · right
        rfl
    | succ len =>
      apply iff_of_false
      · rintro ⟨list, written, -, same⟩
        rw [same] at written
        cases written
      · simp
  · rw [if_neg empty]
    apply iff_of_true
    · refine ⟨_, rfl, ?_, rfl⟩
      rw [List.length_append, List.length_take, List.length_singleton]
      omega
    · left
      exact empty

/-- The value in texts is that in the first ones, or else in the others. -/
theorem valueIn_append (first second : List (List UInt8)) (name : List UInt8) :
    valueIn (first ++ second) name = (valueIn first name).or (valueIn second name) := by
  rw [valueIn, List.find?_append, valueIn, valueIn]
  cases first.find? (entryOf name) <;> rfl

/-- There is no value without an entry of the name. -/
theorem valueIn_none {texts : List (List UInt8)} {name : List UInt8}
    (others : ∀ text ∈ texts, entryOf name text = false) : valueIn texts name = none := by
  have unmatched : ∀ text ∈ texts, ¬ entryOf name text = true :=
    fun text member => Bool.eq_false_iff.mp (others text member)
  rw [valueIn, List.find?_eq_none.mpr unmatched]
  rfl

/-- An entry of a name is the name, the separator, and a value. -/
theorem entryOf_iff {name text : List UInt8} :
    entryOf name text = true ↔ ∃ value, text = name ++ equals :: value := by
  rw [entryOf, List.isPrefixOf_iff_prefix]
  constructor
  · rintro ⟨value, rfl⟩
    exact ⟨value, by rw [List.append_assoc]; rfl⟩
  · rintro ⟨value, rfl⟩
    exact ⟨value, by rw [List.append_assoc]; rfl⟩

/-- The value of a name is that of the first entry of it. -/
theorem valueIn_first {name value : List UInt8} {before : List (List UInt8)}
    (after : List (List UInt8)) (others : ∀ other ∈ before, entryOf name other = false) :
    valueIn (before ++ (name ++ equals :: value) :: after) name = some value := by
  have found := (first_entry after others (entryOf_iff.mpr ⟨value, rfl⟩)).1
  have behind : (name ++ equals :: value).drop (name.length + 1) = value := by
    rw [← List.drop_drop, List.drop_left]
    rfl
  rw [valueIn, found, Option.map_some, behind]

/-- A value is found exactly in an entry of the name with none in front of it. -/
theorem valueIn_cases (texts : List (List UInt8)) (name : List UInt8) :
    (∀ text ∈ texts, entryOf name text = false) ∨
      ∃ before value after, texts = before ++ (name ++ equals :: value) :: after ∧
        ∀ other ∈ before, entryOf name other = false := by
  by_cases found : ∃ text ∈ texts, entryOf name text = true
  · right
    obtain ⟨_, member, matching⟩ := found
    obtain ⟨entry, before, after, others, entered, same, -⟩ :=
      List.exists_of_eraseP member matching
    obtain ⟨value, rfl⟩ := entryOf_iff.mp entered
    refine ⟨before, value, after, same, ?_⟩
    intro other member
    exact Bool.eq_false_iff.mpr (others other member)
  · left
    intro text member
    apply Bool.eq_false_iff.mpr
    intro entered
    exact found ⟨text, member, entered⟩

/-- The lines of the listing are the pieces of the entries, and an empty one. -/
theorem listing_split (entries : List (List UInt8)) : (listing entries).splitOn newline =
    entries.flatMap (List.splitOn newline) ++ [[]] := by
  induction entries with
  | nil => rfl
  | cons entry entries inductionHypothesis =>
    have cut : listing (entry :: entries) = entry ++ newline :: listing entries := by
      simp [listing]
    rw [cut, List.splitOn_append_cons_self, inductionHypothesis, List.flatMap_cons,
      List.append_assoc]

/-- The empty line has no value. -/
theorem valueIn_listing (entries : List (List UInt8)) (name : List UInt8) :
    valueIn ((listing entries).splitOn newline) name =
      valueIn (entries.flatMap (List.splitOn newline)) name := by
  have none : valueIn [[]] name = none := by
    apply valueIn_none
    intro text member
    rw [List.mem_singleton] at member
    rw [member]
    cases name <;> rfl
  rw [listing_split, valueIn_append, none, Option.or_none]

/-- A line of a text whose names have no new line is an entry of a name only if the text is. -/
theorem entryOf_of_piece {name entry piece : List UInt8}
    (clean : ∀ front value, front ≠ [] → entry = front ++ equals :: value → newline ∉ front)
    (member : piece ∈ entry.splitOn newline) (entered : entryOf name piece = true) :
    entryOf name entry = true := by
  obtain ⟨value, rfl⟩ := entryOf_iff.mp entered
  obtain ⟨-, ⟨rest, same⟩ | ⟨front, rest, same⟩⟩ := TextCuts.mem_splitOn member
  · apply entryOf_iff.mpr
    refine ⟨value ++ rest, ?_⟩
    rw [← same, List.append_assoc]
    rfl
  · have split : entry = (front ++ newline :: name) ++ equals :: (value ++ rest) := by
      rw [← same]
      simp
    have absent := clean _ _ (by simp) split
    simp at absent

/-- In entries that are plain, texts without an entry of a name have no line of it. -/
theorem no_piece (plain : Plain entries) {name : List UInt8} {texts : List (List UInt8)}
    (within : ∀ text ∈ texts, text ∈ entries)
    (others : ∀ text ∈ texts, entryOf name text = false) :
    valueIn (texts.flatMap (List.splitOn newline)) name = none := by
  apply valueIn_none
  intro piece member
  obtain ⟨text, inside, pieces⟩ := List.mem_flatMap.mp member
  obtain ⟨before, after, cut⟩ := List.append_of_mem (within text inside)
  rw [Bool.eq_false_iff]
  intro entered
  have same : entryOf name text = true := by
    refine entryOf_of_piece ?_ pieces entered
    intro front value present split
    exact (plain before text after cut front value present split).1
  rw [others text inside] at same
  cases same

/-- Entries that are plain have the same values in their lines. -/
theorem listed_of_plain (plain : Plain entries) {name : List UInt8} (nonempty : name ≠ []) :
    valueIn (entries.flatMap (List.splitOn newline)) name = valueIn entries name := by
  obtain others | ⟨before, value, after, rfl, others⟩ := valueIn_cases entries name
  · rw [no_piece plain (fun _ member => member) others, valueIn_none others]
  · obtain ⟨clean, hidden⟩ := plain before _ after rfl name value nonempty rfl
    have whole : newline ∉ value := by
      intro present
      obtain ⟨earlier, member, entered⟩ := hidden present
      rw [others earlier member] at entered
      cases entered
    have line : newline ∉ name ++ equals :: value :=
      TextCuts.notMem_around clean (by decide) whole
    have front : valueIn (before.flatMap (List.splitOn newline)) name = none :=
      no_piece plain (fun _ member => List.mem_append_left _ member) others
    have here : valueIn ([] ++ (name ++ equals :: value) ::
        after.flatMap (List.splitOn newline)) name = some value :=
      valueIn_first _ fun _ absurd => by cases absurd
    rw [List.flatMap_append, List.flatMap_cons, List.splitOn_eq_singleton line, valueIn_append,
      front, Option.none_or, valueIn_first after others]
    exact here

/-- Entries with the same values in their lines are plain. -/
theorem plain_of_listed (same : ∀ name ≠ [],
    valueIn (entries.flatMap (List.splitOn newline)) name = valueIn entries name) :
    Plain entries := by
  rintro before _ after rfl name value nonempty rfl
  have lines := same name nonempty
  have valued : ∃ known, valueIn (before ++ (name ++ equals :: value) :: after) name = some known := by
    obtain others | ⟨front, other, rest, cut, others⟩ :=
      valueIn_cases (before ++ (name ++ equals :: value) :: after) name
    · have here := others (name ++ equals :: value) (by simp)
      rw [entryOf_append] at here
      simp at here
    · rw [cut, valueIn_first rest others]
      exact ⟨other, rfl⟩
  obtain others | ⟨front, line, rest, cut, others⟩ :=
    valueIn_cases ((before ++ (name ++ equals :: value) :: after).flatMap (List.splitOn newline)) name
  · obtain ⟨known, found⟩ := valued
    rw [valueIn_none others, found] at lines
    cases lines
  · have member : name ++ equals :: line ∈
        (before ++ (name ++ equals :: value) :: after).flatMap (List.splitOn newline) := by
      rw [cut]
      simp
    obtain ⟨text, -, piece⟩ := List.mem_flatMap.mp member
    have clean := (TextCuts.mem_splitOn piece).1
    rw [List.mem_append, List.mem_cons, not_or, not_or] at clean
    constructor
    · exact clean.1
    · intro present
      by_contra unhidden
      have first : ∀ other ∈ before, entryOf name other = false := by
        intro other member
        rw [Bool.eq_false_iff]
        intro entered
        exact unhidden ⟨other, member, entered⟩
      rw [valueIn_first after first, cut, valueIn_first rest others] at lines
      rw [Option.some.inj lines] at clean
      exact clean.2.2 present

/-- What is got for a name is its value in the entries. -/
theorem gets_valueIn (environment : Environment image entries) (name : CString)
    (nonempty : 1 ≤ name.length) : Gets image name (valueIn entries name.bytes) := by
  obtain ⟨found, inside⟩ := endOf_found environment
  obtain ⟨crc, rest, sized, area⟩ := environment.cut
  have whole : name.bytes.length = name.length := rfl
  have absent : ∀ len p, 0 < len → lookUp image name.bytes name.length = some (p, none) →
      ubootenvGet image name len = some (-errParse, none) := by
    intro len p positive looked
    rw [ubootenvGet, if_neg (by omega), bind_of_some environment.valid]
    dsimp only
    rw [found]
    apply ((if_neg (by decide)).trans (if_neg (Nat.ne_of_lt inside))).trans
    rw [bind_of_some looked]
    rfl
  have present : ∀ len p entry, 0 < len → lookUp image name.bytes name.length = some (p, some entry) →
      ubootenvGet image name len =
        if entry.length + 1 - (name.length + 1) > len then some (-errSpace, none)
        else some (0, some ((entry.drop (name.length + 1)).take (len - 1))) := by
    intro len p entry positive looked
    rw [ubootenvGet, if_neg (by omega), bind_of_some environment.valid]
    dsimp only
    rw [found]
    apply ((if_neg (by decide)).trans (if_neg (Nat.ne_of_lt inside))).trans
    rw [bind_of_some looked]
    rfl
  obtain ⟨others, p, looked⟩ | ⟨before, entry, after, rfl, others, entered, looked⟩ :=
    lookUp_cases rest (List.prefix_refl name.bytes) (toInt32_length name) sized environment.proper
  · rw [← area, whole] at looked
    rw [valueIn_none others]
    intro len positive
    exact absent len p positive looked
  · rw [← area, whole] at looked
    obtain ⟨value, rfl⟩ := entryOf_iff.mp entered
    rw [valueIn_first after others]
    intro len room
    have behind : (name.bytes ++ equals :: value).drop (name.length + 1) = value := by
      rw [← List.drop_drop, ← whole, List.drop_left]
      rfl
    have size : (name.bytes ++ equals :: value).length + 1 - (name.length + 1) = value.length + 1 := by
      rw [List.length_append, List.length_cons, whole]
      omega
    rw [present len _ _ (Nat.zero_lt_of_lt room) looked, size, if_neg (by omega), behind,
      List.take_of_length_le (by omega)]

/-- The list is right if and only if there are entries, or no room to show that there are
none, and the entries are plain. -/
theorem lists_iff (environment : Environment image entries) {len : Nat} (positive : 1 ≤ len) :
    Lists image entries len ↔ (entries ≠ [] ∨ len = 1) ∧ Plain entries := by
  obtain ⟨room, rfl⟩ := Nat.exists_eq_add_of_le' positive
  have single : room + 1 = 1 ↔ room = 0 := by omega
  rw [single]
  constructor
  · rintro ⟨written, listed, -⟩
    constructor
    · exact (written_iff environment room).mp written
    · apply plain_of_listed
      intro name nonempty
      rw [← valueIn_listing]
      exact listed name nonempty
  · rintro ⟨shown, plain⟩
    constructor
    · exact (written_iff environment room).mpr shown
    · intro name nonempty
      rw [valueIn_listing]
      exact listed_of_plain plain nonempty
    · exact gets_valueIn environment

/-- Entries without a new line are plain. -/
theorem plain_of_absent (absent : ∀ entry ∈ entries, newline ∉ entry) : Plain entries := by
  rintro before _ after rfl name value - rfl
  have clean := absent (name ++ equals :: value) (by simp)
  rw [List.mem_append, List.mem_cons, not_or, not_or] at clean
  constructor
  · exact clean.1
  · intro present
    exact absurd present clean.2.2

/-- The list of the image that sets "a" to "b" is right. -/
theorem lists_ab : Lists imageAB [[0x61, 0x3d, 0x62]] 5 :=
  (lists_iff imageAB_environment (Nat.le_add_left 1 4)).mpr
    ⟨.inl (List.cons_ne_nil _ _), plain_of_absent (by decide)⟩

/-- An image without entries. -/
def imageEmpty : List UInt8 := [0xff, 0x12, 0xd9, 0x41, 0x00, 0x00]

/-- The list of an image without entries has a line. -/
theorem not_lists_empty : Environment imageEmpty [] ∧ ¬ Lists imageEmpty [] 2 := by
  constructor
  · exact ⟨by simp [Proper], ⟨[0xff, 0x12, 0xd9, 0x41], [], rfl, rfl⟩, by decide +kernel⟩
  · rintro ⟨⟨list, written, -, same⟩, -, -⟩
    have line : ubootenvList imageEmpty 2 = some (0, [newline, 0]) := by decide +kernel
    rw [line] at written
    rw [← (Prod.mk.inj (Option.some.inj written)).2] at same
    cases same

end Ezcfg.Ubootenv

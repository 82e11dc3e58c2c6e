import Ezcfg.Ubootenv.Environment

/-!
# Finding an entry in a valid environment

A valid image has its texts packed behind the checksum. Two zero bytes in a row are found
behind the last text, since no text is empty; in an image without texts they are the first
two bytes of the data. The search for a name goes over the texts in front of the first one
that is an entry of the name.
-/

namespace Ezcfg.Ubootenv

open Foundation Util
open Foundation.ByteArea (pack stringAt)

/-- An entry of a name: the name and the separator in front of the value. -/
def entryOf (name entry : List UInt8) : Bool := (name ++ [equals]).isPrefixOf entry

/-- The texts are not empty, and end at their terminators. -/
def Proper (entries : List (List UInt8)) : Prop :=
  ∀ entry ∈ entries, entry ≠ [] ∧ (0 : UInt8) ∉ entry

/-- What ends the data behind the texts. -/
def ending (entries : List (List UInt8)) : List UInt8 := if entries = [] then [0, 0] else [0]

/-- A valid image: a matching checksum, and texts that a double terminator ends. -/
structure Environment (image : List UInt8) (entries : List (List UInt8)) : Prop where
  proper : Proper entries
  layout : ∃ crc junk, crc.length = crcSize ∧
    image = crc ++ (pack entries ++ ending entries ++ junk)
  valid : checkCrc image = some true

/-- The place where the double terminator ends. -/
def endOf (entries : List (List UInt8)) : Nat :=
  crcSize + if entries = [] then 1 else (pack entries).length

/-- An entry of a name starts with the name. -/
theorem not_entryOf {name entry : List UInt8} (other : ¬ name <+: entry) :
    entryOf name entry = false := by
  rw [entryOf, Bool.eq_false_iff, ne_eq, List.isPrefixOf_iff_prefix]
  exact fun entered => other ((List.prefix_append name [equals]).trans entered)

/-- What follows the name in an entry is the separator. -/
theorem entryOf_append (name : List UInt8) (byte : UInt8) (tail : List UInt8) :
    entryOf name (name ++ byte :: tail) = decide (byte = equals) := by
  rw [entryOf, Bool.eq_iff_iff, List.isPrefixOf_iff_prefix, List.prefix_append_right_inj,
    decide_eq_true_iff, List.cons_prefix_cons]
  simp [eq_comm]

/-- The part of a name that its length counts is compared with a text. -/
theorem isEntry_eq {name text : List UInt8} (counted : text <+: name)
    (front entry rest : List UInt8) :
    isEntry (front ++ entry ++ 0 :: rest) front.length entry name text.length =
      some (entryOf text entry) := by
  have same : name.take text.length = text := (List.prefix_iff_eq_take.mp counted).symm
  rw [isEntry]
  by_cases long : text.length ≤ entry.length
  · have compared : cmpLength entry text.length = text.length := by
      rw [cmpLength, if_pos (by omega)]
    have ordering : cmpName name entry text.length = .eq ↔ text <+: entry := by
      rw [cmpName, if_neg (by omega), Int.toNat_natCast, ← strncmp_length_eq_iff,
        strncmp_eq_take, strncmp_eq_take, same, List.take_length]
    have position : byteAt (front ++ entry ++ 0 :: rest) ((front.length : Int) + text.length) =
        (front ++ entry ++ 0 :: rest)[front.length + text.length]? := by
      rw [byteAt, if_pos (by omega), ← Int.natCast_add, Int.toNat_natCast]
    rw [compared, position]
    by_cases begins : text <+: entry
    · rw [if_pos (ordering.mpr begins)]
      obtain ⟨tail, rfl⟩ := begins
      have place : front.length + text.length = (front ++ text).length := by
        rw [List.length_append]
      cases tail with
      | nil =>
        have byte : (front ++ (text ++ []) ++ 0 :: rest)[front.length + text.length]? = some 0 := by
          rw [List.append_nil, place, List.getElem?_append_right (Nat.le_refl _), Nat.sub_self]
          rfl
        have short : entryOf text (text ++ []) = false := by
          rw [List.append_nil, entryOf, Bool.eq_false_iff, ne_eq, List.isPrefixOf_iff_prefix]
          intro entered
          have longer := entered.length_le
          rw [List.length_append, List.length_singleton] at longer
          omega
        rw [byte, short]
        rfl
      | cons byte tail =>
        have here : (front ++ (text ++ byte :: tail) ++ 0 :: rest)[front.length + text.length]? =
            some byte := by
          rw [← List.append_assoc, List.append_assoc (front ++ text), place,
            List.getElem?_append_right (Nat.le_refl _), Nat.sub_self]
          rfl
        rw [here, entryOf_append]
        rfl
    · rw [if_neg (mt ordering.mp begins), not_entryOf begins]
  · have compared : cmpLength entry text.length = (entry.length + 1 : Nat) := by
      rw [cmpLength, if_neg (by omega), Int.natCast_succ]
    have different : cmpName name entry (entry.length + 1 : Nat) ≠ .eq := by
      rw [cmpName, if_neg (by omega), Int.toNat_natCast, strncmp_eq_take, ne_eq, strcmp_eq_iff,
        List.take_of_length_le (Nat.le_succ entry.length)]
      intro whole
      have lengths := congrArg List.length whole
      have shorter := counted.length_le
      rw [List.length_take] at lengths
      omega
    rw [compared, if_neg different, not_entryOf fun begins => long begins.length_le]

/-- A text that is not empty does not start with a terminator. -/
theorem first_byte (front rest : List UInt8) {entry : List UInt8}
    (proper : entry ≠ [] ∧ (0 : UInt8) ∉ entry) :
    ∃ byte, (front ++ entry ++ 0 :: rest)[front.length]? = some byte ∧ byte ≠ 0 := by
  obtain ⟨nonempty, nonul⟩ := proper
  cases entry with
  | nil => exact absurd rfl nonempty
  | cons byte tail =>
    refine ⟨byte, ?_, fun zero => nonul (zero ▸ List.mem_cons_self)⟩
    rw [List.append_assoc, List.getElem?_append_right (Nat.le_refl _), Nat.sub_self]
    rfl

/-- The search goes over a text that is no entry of the name. -/
theorem findEntry_pass {name text front entry rest : List UInt8}
    (counted : text <+: name) (turns : Nat)
    (proper : entry ≠ [] ∧ (0 : UInt8) ∉ entry) (other : entryOf text entry = false) :
    findEntry (front ++ entry ++ 0 :: rest) name text.length (turns + 1) front.length =
      findEntry (front ++ entry ++ 0 :: rest) name text.length turns
        (front.length + (entry.length + 1)) := by
  obtain ⟨byte, here, nonzero⟩ := first_byte front rest proper
  rw [findEntry, bind_of_some here, if_neg nonzero,
    bind_of_some (ByteArea.stringAt_between front entry rest proper.2),
    bind_of_some (isEntry_eq counted front entry rest), other]
  rfl

/-- The search stops at a text that is an entry of the name. -/
theorem findEntry_hit {name text front entry rest : List UInt8}
    (counted : text <+: name) (turns : Nat)
    (proper : entry ≠ [] ∧ (0 : UInt8) ∉ entry) (entered : entryOf text entry = true) :
    findEntry (front ++ entry ++ 0 :: rest) name text.length (turns + 1) front.length =
      some front.length := by
  obtain ⟨byte, here, nonzero⟩ := first_byte front rest proper
  rw [findEntry, bind_of_some here, if_neg nonzero,
    bind_of_some (ByteArea.stringAt_between front entry rest proper.2),
    bind_of_some (isEntry_eq counted front entry rest), entered]
  rfl

/-- The search stops at the empty text. -/
theorem findEntry_end (front rest name : List UInt8) (nameLen : Int) (turns : Nat) :
    findEntry (front ++ 0 :: rest) name nameLen (turns + 1) front.length = some front.length := by
  have byte : (front ++ 0 :: rest)[front.length]? = some 0 := by
    rw [List.getElem?_append_right (Nat.le_refl _), Nat.sub_self]
    rfl
  rw [findEntry, bind_of_some byte, if_pos rfl]
  rfl

/-- The search goes over the texts that are no entries of the name. -/
theorem findEntry_over {name text rest : List UInt8}
    (counted : text <+: name) (turns : Nat) (before : List (List UInt8))
    (proper : Proper before) (others : ∀ entry ∈ before, entryOf text entry = false)
    (front : List UInt8) :
    findEntry (front ++ pack before ++ rest) name text.length (turns + before.length) front.length =
      findEntry (front ++ pack before ++ rest) name text.length turns
        (front ++ pack before).length := by
  induction before generalizing front with
  | nil => rw [List.length_nil, Nat.add_zero, ByteArea.pack_nil, List.append_nil]
  | cons entry before inductionHypothesis =>
    rw [Proper, List.forall_mem_cons] at proper
    rw [List.forall_mem_cons] at others
    have area : front ++ pack (entry :: before) ++ rest =
        front ++ entry ++ 0 :: (pack before ++ rest) := by simp
    have later : front ++ entry ++ 0 :: (pack before ++ rest) =
        (front ++ entry ++ [0]) ++ pack before ++ rest := by simp
    have place : front.length + (entry.length + 1) = (front ++ entry ++ [0]).length := by
      simp only [List.length_append, List.length_singleton]
      omega
    have ends : (front ++ pack (entry :: before)).length =
        ((front ++ entry ++ [0]) ++ pack before).length := by simp
    rw [List.length_cons, ← Nat.add_assoc, area, findEntry_pass counted _ proper.1 others.1, place,
      later, inductionHypothesis proper.2 others.2, ends]

/-- What the search finds: the empty text when there is no entry of the name, and the first
entry of it when there is one. -/
theorem lookUp_cases {name text crc : List UInt8} (rest : List UInt8)
    {entries : List (List UInt8)} (counted : text <+: name) (int : toInt32 name.length = text.length)
    (sized : crc.length = crcSize) (proper : Proper entries) :
    let image := crc ++ pack entries ++ 0 :: rest
    ((∀ entry ∈ entries, entryOf text entry = false) ∧
        ∃ p, lookUp image name text.length = some (p, none)) ∨
    ∃ before entry after, entries = before ++ entry :: after ∧
      (∀ other ∈ before, entryOf text other = false) ∧ entryOf text entry = true ∧
      lookUp image name text.length = some ((crc ++ pack before).length, some entry) := by
  intro image
  have number : entries.length ≤ (pack entries).length := by
    rw [ByteArea.pack_length]
    induction entries with
    | nil => exact Nat.zero_le _
    | cons entry entries inductionHypothesis =>
      rw [Proper, List.forall_mem_cons] at proper
      rw [List.map_cons, List.sum_cons, List.length_cons]
      have fewer := inductionHypothesis proper.2
      omega
  have length : image.length = crc.length + (pack entries).length + (rest.length + 1) := by
    rw [List.length_append, List.length_append, List.length_cons]
  by_cases found : ∃ entry ∈ entries, entryOf text entry = true
  · right
    obtain ⟨_, member, matching⟩ := found
    obtain ⟨entry, before, after, others, entered, rfl, -⟩ :=
      List.exists_of_eraseP member matching
    have others : ∀ other ∈ before, entryOf text other = false :=
      fun other member => Bool.eq_false_iff.mpr (others other member)
    rw [Proper, List.forall_mem_append, List.forall_mem_cons] at proper
    refine ⟨before, entry, after, rfl, others, entered, ?_⟩
    have area : image = crc ++ pack before ++ (entry ++ 0 :: (pack after ++ 0 :: rest)) := by
      simp [image]
    have cut : image = (crc ++ pack before) ++ entry ++ 0 :: (pack after ++ 0 :: rest) := by
      simp [image]
    obtain ⟨spare, turns⟩ : ∃ spare, image.length + 1 = spare + 1 + before.length := by
      rw [List.length_append, List.length_cons] at number
      exact ⟨image.length - before.length, by omega⟩
    have position : findEntryPosition image name = some (crc ++ pack before).length := by
      rw [findEntryPosition, int, turns, ← sized, area, findEntry_over counted _ _ proper.1 others,
        ← area, cut, findEntry_hit counted _ proper.2.1 entered]
    rw [lookUp, bind_of_some position, cut,
      bind_of_some (ByteArea.stringAt_between _ entry _ proper.2.1.2), if_neg proper.2.1.1,
      bind_of_some (isEntry_eq counted _ entry _), entered]
    rfl
  · left
    have others : ∀ entry ∈ entries, entryOf text entry = false :=
      fun entry member => Bool.eq_false_iff.mpr fun entered => found ⟨entry, member, entered⟩
    refine ⟨others, (crc ++ pack entries).length, ?_⟩
    obtain ⟨spare, turns⟩ : ∃ spare, image.length + 1 = spare + 1 + entries.length :=
      ⟨image.length - entries.length, by omega⟩
    have position : findEntryPosition image name = some (crc ++ pack entries).length := by
      rw [findEntryPosition, int, turns, ← sized, findEntry_over counted _ _ proper others,
        findEntry_end]
    have empty := ByteArea.stringAt_between (crc ++ pack entries) [] rest List.not_mem_nil
    rw [List.append_nil] at empty
    rw [lookUp, bind_of_some position, bind_of_some empty, if_pos rfl]
    rfl

/-- Behind the texts of a valid image there is a terminator. -/
theorem Environment.cut {image : List UInt8} {entries : List (List UInt8)}
    (environment : Environment image entries) :
    ∃ crc rest, crc.length = crcSize ∧ image = crc ++ pack entries ++ 0 :: rest := by
  obtain ⟨crc, junk, sized, layout⟩ := environment.layout
  rw [layout, ending]
  split
  · exact ⟨crc, 0 :: junk, sized, by simp⟩
  · exact ⟨crc, junk, sized, by simp⟩

/-- The loop stops at the first place where two zero bytes end. -/
theorem findEnd_stop {image : List UInt8} {stop : Nat} (previous : image[stop - 1]? = some 0)
    (here : image[stop]? = some 0) (turns start : Nat) (before : start ≤ stop)
    (enough : stop < start + turns)
    (apart : ∀ i, start ≤ i → i < stop → image[i - 1]? ≠ some 0 ∨ image[i]? ≠ some 0) :
    findEnd image turns start = stop := by
  have inside : stop < image.length := (List.getElem?_eq_some_iff.mp here).1
  induction turns generalizing start with
  | zero => omega
  | succ turns inductionHypothesis =>
    rw [findEnd]
    obtain earlier | rfl := Nat.lt_or_eq_of_le before
    · rw [if_pos ⟨Nat.lt_trans earlier inside, apart start (Nat.le_refl _) earlier⟩]
      exact inductionHypothesis (start + 1) earlier (by omega)
        fun i after => apart i (Nat.le_of_succ_le after)
    · rw [if_neg]
      rintro ⟨-, other | other⟩
      · exact other previous
      · exact other here

/-- Texts that are not empty have no two terminators in a row. -/
theorem pack_apart {entries : List (List UInt8)} (proper : Proper entries) (i : Nat)
    (inside : i + 1 < (pack entries).length) :
    (pack entries)[i]? ≠ some 0 ∨ (pack entries)[i + 1]? ≠ some 0 := by
  induction entries generalizing i with
  | nil => exact absurd inside (Nat.not_lt_zero _)
  | cons entry entries inductionHypothesis =>
    rw [Proper, List.forall_mem_cons] at proper
    rw [ByteArea.pack_cons] at inside ⊢
    rw [List.length_append, List.length_cons] at inside
    obtain within | rfl | beyond := Nat.lt_trichotomy i entry.length
    · left
      rw [List.getElem?_append_left within]
      exact fun zero => proper.1.2 (List.mem_of_getElem? zero)
    · right
      have first : (entry ++ 0 :: pack entries)[entry.length + 1]? = (pack entries)[0]? := by
        rw [List.getElem?_append_right (Nat.le_add_right _ 1), Nat.add_sub_cancel_left]
        rfl
      rw [first]
      cases entries with
      | nil =>
        rw [ByteArea.pack_nil, List.length_nil] at inside
        omega
      | cons entry entries =>
        obtain ⟨byte, here, nonzero⟩ :=
          first_byte [] (pack entries) (proper.2 entry List.mem_cons_self)
        rw [List.nil_append, List.length_nil] at here
        rw [ByteArea.pack_cons, here]
        exact fun zero => nonzero (Option.some.inj zero)
    · obtain ⟨j, rfl⟩ : ∃ j, i = entry.length + 1 + j := ⟨i - entry.length - 1, by omega⟩
      have shifted : ∀ k, (entry ++ 0 :: pack entries)[entry.length + 1 + k]? =
          (pack entries)[k]? := by
        intro k
        rw [List.getElem?_append_right (by omega), Nat.add_assoc, Nat.add_sub_cancel_left,
          Nat.add_comm, List.getElem?_cons_succ]
      rw [shifted, Nat.add_assoc, shifted]
      exact inductionHypothesis proper.2 j (by omega)

/-- The double terminator of a valid environment is found. -/
theorem findEnd_entries {crc junk : List UInt8} {entries : List (List UInt8)}
    (sized : crc.length = crcSize) (proper : Proper entries) :
    let image := crc ++ (pack entries ++ ending entries ++ junk)
    findEnd image image.length (crcSize + 1) = endOf entries := by
  intro image
  have length : image.length =
      crcSize + (pack entries).length + (ending entries).length + junk.length := by
    simp only [image, List.length_append, sized]
    omega
  have data : ∀ i, image[crcSize + i]? = (pack entries ++ ending entries ++ junk)[i]? := by
    intro i
    rw [List.getElem?_append_right (by omega), sized, Nat.add_sub_cancel_left]
  by_cases empty : entries = []
  · subst empty
    have stop : endOf [] = crcSize + 1 := rfl
    rw [stop]
    refine findEnd_stop (data 0) (data 1) _ _ (Nat.le_refl _) ?_ fun i after before => by omega
    have positive : 0 < (ending ([] : List (List UInt8))).length := Nat.succ_pos 1
    omega
  · have stop : endOf entries = crcSize + (pack entries).length := by rw [endOf, if_neg empty]
    have ends : ending entries = [0] := if_neg empty
    obtain ⟨body, packed⟩ : ∃ body, pack entries = body ++ [0] := by
      obtain nothing | ⟨texts, text, rfl⟩ := List.eq_nil_or_concat entries
      · exact absurd nothing empty
      · exact ⟨pack texts ++ text, by simp⟩
    have size : (pack entries).length = body.length + 1 := by
      rw [packed, List.length_append, List.length_singleton]
    rw [stop]
    refine findEnd_stop ?_ ?_ _ _ (by omega) (by omega) fun i after before => ?_
    · rw [size, Nat.add_succ_sub_one, data, packed, List.append_assoc, List.append_assoc,
        List.getElem?_append_right (Nat.le_refl _), Nat.sub_self]
      rfl
    · rw [data, ends, List.append_assoc, List.getElem?_append_right (Nat.le_refl _), Nat.sub_self]
      rfl
    · obtain ⟨j, rfl⟩ : ∃ j, i = crcSize + (j + 1) := ⟨i - crcSize - 1, by omega⟩
      have inside : j + 1 < (pack entries).length := by omega
      rw [← Nat.add_assoc, Nat.add_sub_cancel, data, Nat.add_assoc, data, List.append_assoc,
        List.getElem?_append_left (by omega), List.getElem?_append_left inside]
      exact pack_apart proper j inside

end Ezcfg.Ubootenv

import Ezcfg.MetaNvram.Strings

/-!
# The search among packed strings

The search runs over the strings of a buffer in their order. It passes those that
compare below the name on as many bytes as the name has, and it hits when the next one
starts with the name and the separator. This says where it stops for every name, and
whatever the strings are; with it, a removal edits the packed strings too.
-/

namespace Ezcfg.MetaNvram

open Foundation
open Foundation.ByteArea (stringAt write memmove pack)

/-! ## After the search -/

section
variable {Position Result : Type} (p : Position) (hit missed : Position → Option Result)

/-- After a search that hit, its first continuation runs. The continuations are
variables, so that checking this never evaluates the lengths they compute. -/
theorem search_hit :
    (do let (p, equal) ← some (p, true); if equal then hit p else missed p) = hit p := by
  simp only [Option.bind_eq_bind, Option.bind_some, if_true]

/-- After a search that missed, its second continuation runs. -/
theorem search_missed :
    (do let (p, equal) ← some (p, false); if equal then hit p else missed p) = missed p := by
  simp only [Option.bind_eq_bind, Option.bind_some, Bool.false_eq_true, if_false]

end

section
variable {buffer : Buffer} {name : CString} {p : Nat}

/-- In a buffer in use, a set whose search hits replaces the value there. -/
theorem setEntry_hit (inUse : buffer.dataUsed ≠ 0)
    (found : findNvramEntryPosition buffer name = some (p, true)) (value : CString) :
    metaNvramSetEntry buffer name value = replaceEntry buffer p name value := by
  rw [metaNvramSetEntry, if_neg inUse, found]
  exact search_hit p (fun p => replaceEntry buffer p name value)
    (fun p => insertEntry buffer p name value)

/-- In a buffer in use, a set whose search misses inserts an entry there. -/
theorem setEntry_missed (inUse : buffer.dataUsed ≠ 0)
    (found : findNvramEntryPosition buffer name = some (p, false)) (value : CString) :
    metaNvramSetEntry buffer name value = insertEntry buffer p name value := by
  rw [metaNvramSetEntry, if_neg inUse, found]
  exact search_missed p (fun p => replaceEntry buffer p name value)
    (fun p => insertEntry buffer p name value)

end

/-- Removing a name that the search misses reports one and changes nothing. -/
theorem unset_missed {buffer : Buffer} {name : CString} {p : Nat}
    (missed : findNvramEntryPosition buffer name = some (p, false)) :
    metaNvramUnsetEntry buffer name = some (1, buffer) := by
  rw [metaNvramUnsetEntry, missed]
  rfl

/-- A lookup that the search misses fails. -/
theorem get_missed {buffer : Buffer} {name : CString} {p : Nat} (granted : Bool)
    (missed : findNvramEntryPosition buffer name = some (p, false)) :
    metaNvramGetEntryValue buffer name granted = some (retFail, none) := by
  rw [metaNvramGetEntryValue, missed]
  rfl

/-! ## Behind the separators -/

/-- Where the separators at the front of a string end, its rest starts. -/
theorem skip_separators (before s tail : List UInt8) :
    ∃ passed, before ++ s ++ 0 :: tail = passed ++ s.dropWhile (· = equals) ++ 0 :: tail ∧
      skipEquals (before ++ s ++ 0 :: tail) before.length = passed.length := by
  have cut : s.takeWhile (· = equals) ++ s.dropWhile (· = equals) = s :=
    List.takeWhile_append_dropWhile
  refine ⟨before ++ s.takeWhile (· = equals), ?_, ?_⟩
  · rw [List.append_assoc before (s.takeWhile (· = equals)), cut]
  · rw [skipEquals, List.append_assoc, List.drop_left, takeWhile_ended s tail, List.length_append]
where
  /-- A terminator is no separator. -/
  takeWhile_ended (s tail : List UInt8) :
      (s ++ 0 :: tail).takeWhile (· = equals) = s.takeWhile (· = equals) := by
    induction s with
    | nil =>
      rw [List.nil_append, List.takeWhile_cons_of_neg (by decide), List.takeWhile_nil]
    | cons byte rest inductionHypothesis =>
      rw [List.cons_append, List.takeWhile_cons, List.takeWhile_cons, inductionHypothesis]

/-- Padding is dropped with the separators of the value. -/
theorem dropWhile_padded (rounds : Nat) (bytes : List UInt8) :
    (List.replicate rounds equals ++ bytes).dropWhile (· = equals) =
      bytes.dropWhile (· = equals) := by
  induction rounds with
  | zero => rw [List.replicate_zero, List.nil_append]
  | succ rounds inductionHypothesis =>
    rw [List.replicate_succ, List.cons_append, List.dropWhile_cons_of_pos (by simp),
      inductionHypothesis]

/-- Nothing is dropped of bytes exactly when they do not start with a separator. -/
theorem dropWhile_eq_self_iff (bytes : List UInt8) :
    bytes.dropWhile (· = equals) = bytes ↔ bytes.head? ≠ some equals := by
  cases bytes with
  | nil => simp
  | cons byte rest =>
    by_cases separator : byte = equals
    · subst separator
      rw [List.dropWhile_cons_of_pos (by simp)]
      constructor
      · intro same
        have shorter := (List.dropWhile_sublist (· = equals) (l := rest)).length_le
        rw [same, List.length_cons] at shorter
        omega
      · intro other
        exact absurd rfl other
    · rw [List.dropWhile_cons_of_neg (by simpa using separator)]
      simpa using separator

/-! ## The search over strings -/

/-- How many strings the search passes, and whether it hits the next one. -/
def searchStrings (name : CString) : List (List UInt8) → Nat × Bool
  | [] => (0, false)
  | s :: rest =>
    match strncmp name.length name.bytes s with
    | .lt => (0, false)
    | .eq => (0, s[name.length]? == some equals)
    | .gt => ((searchStrings name rest).1 + 1, (searchStrings name rest).2)

/-- The search of the data area is the search of its strings. The induction is on the
strings left, behind those that have been passed. -/
theorem findLoop_strings (name : CString) (before strings : List (List UInt8))
    (junk : List UInt8) (fuel : Nat) (packable : Packable strings)
    (enough : strings.length < fuel) :
    findLoop (pack before ++ (pack strings ++ 0 :: junk)) name.bytes fuel (pack before).length =
      some ((pack (before ++ strings.take (searchStrings name strings).1)).length,
        (searchStrings name strings).2) := by
  induction strings generalizing before fuel with
  | nil =>
    obtain _ | fuel := fuel
    · cases enough
    have here := ByteArea.stringAt_between (pack before) [] junk List.not_mem_nil
    rw [List.append_nil] at here
    rw [findLoop, ByteArea.pack_nil, List.nil_append, bind_of_some here]
    simp [searchStrings]
  | cons s rest inductionHypothesis =>
    obtain _ | fuel := fuel
    · cases enough
    obtain ⟨nonempty, nonul⟩ := packable s List.mem_cons_self
    have here := ByteArea.stringAt_between (pack before) s (pack rest ++ 0 :: junk) nonul
    have area : pack before ++ (pack (s :: rest) ++ 0 :: junk) =
        pack before ++ s ++ 0 :: (pack rest ++ 0 :: junk) := by simp
    rw [area, findLoop, bind_of_some here]
    dsimp only
    rw [if_neg nonempty, searchStrings]
    have length : name.bytes.length = name.length := rfl
    cases compared : strncmp name.bytes.length name.bytes s with
    | lt =>
      rw [length] at compared
      simp [compared]
    | eq =>
      obtain ⟨tail, rfl⟩ := (strncmp_length_eq_iff _ _).mp compared
      rw [length] at compared
      have longer : (name.bytes ++ tail).length + 1 > name.bytes.length := by
        rw [List.length_append]
        omega
      have read : (pack before ++ (name.bytes ++ tail) ++ 0 :: (pack rest ++ 0 :: junk))[
          (pack before).length + name.bytes.length]? =
          (tail ++ 0 :: (pack rest ++ 0 :: junk)).head? := by
        rw [← List.append_assoc, List.append_assoc _ tail, ← List.length_append,
          List.getElem?_append_right (Nat.le_refl _), Nat.sub_self, List.head?_eq_getElem?]
      have next : (name.bytes ++ tail)[name.length]? = tail.head? := by
        rw [← length, List.getElem?_append_right (Nat.le_refl _), Nat.sub_self,
          List.head?_eq_getElem?]
      dsimp only
      rw [if_pos longer, read, compared]
      dsimp only
      rw [next]
      cases tail with
      | nil => simp [equals]
      | cons byte old => simp
    | gt =>
      rw [length] at compared
      have passed := inductionHypothesis (before ++ [s]) fuel
        (fun t member => packable t (List.mem_cons_of_mem _ member)) (Nat.lt_of_succ_lt_succ enough)
      have position : (pack (before ++ [s])).length = (pack before).length + (s.length + 1) := by
        simp
      rw [position] at passed
      rw [compared]
      simpa using passed

/-- The search passes no more strings than there are. -/
theorem searchStrings_le (name : CString) (strings : List (List UInt8)) :
    (searchStrings name strings).1 ≤ strings.length := by
  induction strings with
  | nil => exact Nat.le_refl _
  | cons s rest inductionHypothesis =>
    rw [searchStrings, List.length_cons]
    cases strncmp name.length name.bytes s with
    | lt => exact Nat.zero_le _
    | eq => exact Nat.zero_le _
    | gt => exact Nat.succ_le_succ inductionHypothesis

/-- A string of the name stops the search with a hit. -/
theorem searchStrings_entry (name : CString) (old : List UInt8) (rest : List (List UInt8)) :
    searchStrings name ((name.bytes ++ equals :: old) :: rest) = (0, true) := by
  have compared : strncmp name.length name.bytes (name.bytes ++ equals :: old) = .eq :=
    (strncmp_length_eq_iff _ _).mpr (List.prefix_append _ _)
  have next : (name.bytes ++ equals :: old)[name.length]? = some equals := by
    rw [CString.length, List.getElem?_append_right (Nat.le_refl _), Nat.sub_self]
    rfl
  rw [searchStrings, compared]
  dsimp only
  rw [next, beq_self_eq_true]

/-- Where the search stopped, a string of the name is found. -/
theorem searchStrings_placed (name : CString) (strings : List (List UInt8)) (old : List UInt8)
    (rest : List (List UInt8)) :
    searchStrings name (strings.take (searchStrings name strings).1 ++
      (name.bytes ++ equals :: old) :: rest) = ((searchStrings name strings).1, true) := by
  induction strings with
  | nil => exact searchStrings_entry name old rest
  | cons s others inductionHypothesis =>
    cases compared : strncmp name.length name.bytes s with
    | lt =>
      have stopped : (searchStrings name (s :: others)).1 = 0 := by
        rw [searchStrings, compared]
      rw [stopped]
      exact searchStrings_entry name old rest
    | eq =>
      have stopped : (searchStrings name (s :: others)).1 = 0 := by
        rw [searchStrings, compared]
      rw [stopped]
      exact searchStrings_entry name old rest
    | gt =>
      have passed : (searchStrings name (s :: others)).1 = (searchStrings name others).1 + 1 := by
        rw [searchStrings, compared]
      rw [passed, List.take_succ_cons, List.cons_append, searchStrings, compared,
        inductionHypothesis]

/-- A hit is at a string of the name. -/
theorem searchStrings_hit {name : CString} {strings : List (List UInt8)} {i : Nat}
    (hit : searchStrings name strings = (i, true)) :
    ∃ old, strings = strings.take i ++ (name.bytes ++ equals :: old) :: strings.drop (i + 1) := by
  induction strings generalizing i with
  | nil => cases hit
  | cons s others inductionHypothesis =>
    rw [searchStrings] at hit
    cases compared : strncmp name.length name.bytes s with
    | lt =>
      rw [compared] at hit
      cases hit
    | eq =>
      rw [compared] at hit
      obtain ⟨tail, rfl⟩ := (strncmp_length_eq_iff _ _).mp compared
      obtain ⟨rfl, next⟩ := Prod.mk.inj hit
      rw [beq_iff_eq, CString.length, List.getElem?_append_right (Nat.le_refl _), Nat.sub_self,
        ← List.head?_eq_getElem?, List.head?_eq_some_iff] at next
      obtain ⟨old, rfl⟩ := next
      exact ⟨old, by simp⟩
    | gt =>
      rw [compared] at hit
      obtain ⟨rfl, found⟩ := Prod.mk.inj hit
      obtain ⟨old, parts⟩ := inductionHypothesis (Prod.ext rfl found)
      refine ⟨old, ?_⟩
      rw [List.take_succ_cons, List.drop_succ_cons, List.cons_append, ← parts]

namespace Packs

variable {buffer : Buffer} {strings : List (List UInt8)}

/-- The search of a buffer is the search of its strings. -/
theorem find_strings (packs : Packs buffer strings) (packable : Packable strings)
    (name : CString) : findNvramEntryPosition buffer name =
      some ((pack (strings.take (searchStrings name strings).1)).length,
        (searchStrings name strings).2) := by
  obtain ⟨junk, layout⟩ := packs.layout
  have bound : strings.length < buffer.data.length := by
    have counted := length_le_pack strings
    rw [layout, List.length_append, List.length_cons]
    omega
  have found := findLoop_strings name [] strings junk buffer.data.length packable bound
  rw [findNvramEntryPosition]
  rw [layout] at found ⊢
  simpa using found

/-- A hit of the search is at a string of the name, in a buffer that is in use. -/
theorem find_hit (packs : Packs buffer strings) (packable : Packable strings) {name : CString}
    {p : Nat} (found : findNvramEntryPosition buffer name = some (p, true)) :
    buffer.dataUsed ≠ 0 ∧ ∃ first old second,
      strings = first ++ (name.bytes ++ equals :: old) :: second ∧ p = (pack first).length ∧
      (0 : UInt8) ∉ name.bytes ++ equals :: old := by
  have searched := (packs.find_strings packable name).symm.trans found
  obtain ⟨place, hit⟩ := Prod.mk.inj (Option.some.inj searched)
  obtain ⟨old, parts⟩ := searchStrings_hit (Prod.ext rfl hit)
  have nonul : (0 : UInt8) ∉ name.bytes ++ equals :: old := by
    rw [parts] at packable
    exact (packable _ (List.mem_append_right _ List.mem_cons_self)).2
  refine ⟨?_, _, old, _, parts, place.symm, nonul⟩
  rcases packs.used with counted | ⟨-, empty, -⟩
  · omega
  · rw [empty] at parts
    simp at parts

/-- Behind the name of a string and the separators stands the rest of the string. -/
theorem cut_hit (packs : Packs buffer strings) {first second : List (List UInt8)}
    {name : CString} {old : List UInt8}
    (parts : strings = first ++ (name.bytes ++ equals :: old) :: second)
    (nonul : (0 : UInt8) ∉ name.bytes ++ equals :: old) :
    (0 : UInt8) ∉ old.dropWhile (· = equals) ∧ ∃ before tail,
      buffer.data = before ++ old.dropWhile (· = equals) ++ 0 :: tail ∧
      skipEquals buffer.data ((pack first).length + name.length) = before.length := by
  obtain ⟨junk, area, -⟩ := packs.cut_string parts nonul
  have cutArea : buffer.data = (pack first ++ name.bytes) ++ (equals :: old) ++
      0 :: (pack second ++ [0] ++ junk) := by
    rw [area]
    simp
  have position : (pack first).length + name.length = (pack first ++ name.bytes).length := by
    rw [List.length_append, CString.length]
  obtain ⟨passed, whole, skipped⟩ := skip_separators (pack first ++ name.bytes) (equals :: old)
    (pack second ++ [0] ++ junk)
  rw [List.dropWhile_cons_of_pos (by simp), ← cutArea] at whole
  refine ⟨fun member => nonul ?_, passed, _, whole, ?_⟩
  · exact List.mem_append_right _ (List.mem_cons_of_mem _
      ((List.dropWhile_sublist _).subset member))
  · rw [cutArea, position, skipped]

/-- A removal moves what follows down over the string. -/
theorem unset_packs (packs : Packs buffer strings) (inUse : buffer.dataUsed ≠ 0)
    {first second : List (List UInt8)} {s : List UInt8} (parts : strings = first ++ s :: second)
    (nonul : (0 : UInt8) ∉ s) {name : CString}
    (found : findNvramEntryPosition buffer name = some ((pack first).length, true)) :
    ∃ after, metaNvramUnsetEntry buffer name = some (retOk, after) ∧
      after.data.length = buffer.data.length ∧ after.dataUsed ≠ 0 ∧
      Packs after (first ++ second) := by
  obtain ⟨junk, area, read⟩ := packs.cut_string parts nonul
  have counted := packs.used_eq inUse
  have total : (pack strings).length =
      (pack first).length + (s.length + 1) + (pack second).length := by
    rw [parts]
    simp only [ByteArea.pack_append, ByteArea.pack_cons, List.length_append, List.length_cons]
    omega
  let moved := pack second ++ [0]
  have movedLength : moved.length = (pack second).length + 1 := by
    simp only [moved, List.length_append, List.length_singleton]
  obtain ⟨hole, shifted, -⟩ := ByteArea.memmove_down (pack first) (s ++ [0]) moved junk
  rw [← List.append_assoc _ s [0], ← area] at shifted
  have count : buffer.dataUsed - ((pack first).length : Int) - ((s.length : Int) + 1) =
      (moved.length : Int) := by
    rw [counted, total, movedLength]
    omega
  have source : (pack first).length + ((s.length : Int) + 1).toNat =
      (pack first).length + (s ++ [0]).length := by
    simp only [List.length_append, List.length_singleton]
    omega
  have same := ByteArea.memmove_length shifted
  have left : buffer.dataUsed - ((s.length : Int) + 1) =
      (pack (first ++ second)).length + 1 := by
    rw [counted, total, ByteArea.pack_append, List.length_append]
    omega
  refine ⟨⟨_, buffer.dataUsed - ((s.length : Int) + 1)⟩, ?_, same, ?_,
    packs.edited (hole ++ junk) same ?_ left⟩
  · simp only [metaNvramUnsetEntry, found, Option.bind_eq_bind, Option.bind_some, if_true, read,
      source, count, shifted]
    rfl
  · simp only [left]
    omega
  · simp [moved]

/-- A lookup that hits hands out what is behind the separators. -/
theorem get_hit (packs : Packs buffer strings) {first second : List (List UInt8)}
    {name : CString} {old : List UInt8}
    (parts : strings = first ++ (name.bytes ++ equals :: old) :: second)
    (nonul : (0 : UInt8) ∉ name.bytes ++ equals :: old)
    (found : findNvramEntryPosition buffer name = some ((pack first).length, true)) :
    metaNvramGetEntryValue buffer name true =
      some (retOk, some (old.dropWhile (· = equals))) := by
  obtain ⟨free, before, tail, area, skipped⟩ := packs.cut_hit parts nonul
  have read := ByteArea.stringAt_between before _ tail free
  rw [← area, ← skipped] at read
  rw [metaNvramGetEntryValue, found]
  simp only [Option.bind_eq_bind, Option.bind_some, if_true, read]

end Packs

end Ezcfg.MetaNvram

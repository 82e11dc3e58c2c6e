import Ezcfg.MetaNvram.ReadBack

/-!
# Matching entries of the META nvram

Two operations compare a stored value, with that of another name or with a string. The
first asks for both names as a lookup does. The second only asks whether the search came to
the end of the list: where it stopped at an entry of another name, what stands behind the
length of the wanted name is compared.
-/

namespace Ezcfg

/-- The code says whether the condition holds, by success and failure. -/
def Reports (code : Option Int) (condition : Prop) : Prop :=
  ∃ ret, code = some ret ∧ (ret = retOk ↔ condition) ∧ (ret ≠ retOk → ret = retFail)

/-- A comparison that has a result reports it. -/
theorem reports_if {condition : Prop} [Decidable condition] {code : Option Int}
    (reported : code = some (if condition then retOk else retFail)) : Reports code condition := by
  refine ⟨_, reported, ?_, ?_⟩
  · by_cases holds : condition
    · simp [holds]
    · simp [holds, retOk, retFail]
  · intro failed
    by_cases holds : condition
    · rw [if_pos holds] at failed
      exact absurd rfl failed
    · exact if_neg holds

/-- Conditions that agree are reported alike. -/
theorem reports_congr {code : Option Int} {condition other : Prop} (same : condition ↔ other) :
    Reports code condition ↔ Reports code other := by
  rw [Reports, Reports, same]

/-- One code reports one condition only. -/
theorem Reports.iff_of_some {code : Option Int} {condition : Prop} (reports : Reports code condition)
    {ret : Int} (is : code = some ret) : ret = retOk ↔ condition := by
  obtain ⟨ret', is', same, -⟩ := reports
  obtain rfl := Option.some.inj (is.symm.trans is')
  exact same

namespace MetaNvram

open Foundation
open Foundation.ByteArea (stringAt pack)

/-- `strcmp` of the bytes at a position with a string: no byte behind the first difference is
read. -/
def strcmpAt (data : List UInt8) (p : Nat) : List UInt8 → Option Ordering
  | [] => do
    let byte ← data[p]?
    some (if byte = 0 then .eq else .gt)
  | wanted :: rest => do
    let byte ← data[p]?
    if byte < wanted then some .lt
    else if wanted < byte then some .gt
    else strcmpAt data (p + 1) rest

/-- `meta_nvram_match_entry` -/
def metaNvramMatchEntry (buffer : Buffer) (name1 name2 : CString) : Option Int := do
  let (p1, equal1) ← findNvramEntryPosition buffer name1
  if equal1 then
    let p1 := skipEquals buffer.data (p1 + name1.length)
    let (p2, equal2) ← findNvramEntryPosition buffer name2
    if equal2 then
      let p2 := skipEquals buffer.data (p2 + name2.length)
      let first ← stringAt buffer.data p1
      let second ← stringAt buffer.data p2
      if strcmp first second = .eq then some retOk else some retFail
    else some retFail
  else some retFail

/-- `meta_nvram_match_entry_value` -/
def metaNvramMatchEntryValue (buffer : Buffer) (name value : CString) : Option Int := do
  let (p, _) ← findNvramEntryPosition buffer name
  let byte ← buffer.data[p]?
  if byte = 0 then some retFail
  else
    let sign ← strcmpAt buffer.data (skipEquals buffer.data (p + name.length)) value.bytes
    if sign = .eq then some retOk else some retFail

/-- `local_meta_nvram_match_entry` -/
def localMetaNvramMatchEntry (buffer : Buffer) (name1 name2 : CString) : Option Int :=
  metaNvramMatchEntry buffer name1 name2

/-- `local_meta_nvram_match_entry_value` -/
def localMetaNvramMatchEntryValue (buffer : Buffer) (name value : CString) : Option Int :=
  metaNvramMatchEntryValue buffer name value

/-- A lookup of the name hands out these bytes. -/
def LooksUp (buffer : Buffer) (name : CString) (bytes : List UInt8) : Prop :=
  metaNvramGetEntryValue buffer name true = some (retOk, some bytes)

/-- The search for an absent name stops at an entry, and what stands there behind the length
of the name is the value, or cannot be read inside the data area. -/
def Strays (buffer : Buffer) (name value : CString) : Prop :=
  ∃ p, findNvramEntryPosition buffer name = some (p, false) ∧ buffer.data[p]? ≠ some 0 ∧
    strcmpAt buffer.data (skipEquals buffer.data (p + name.length)) value.bytes ∈
      [none, some .eq]

/-- A string in the area compares as strings do. -/
theorem strcmpAt_between (before s tail wanted : List UInt8) (nonul : (0 : UInt8) ∉ s)
    (proper : (0 : UInt8) ∉ wanted) :
    strcmpAt (before ++ s ++ 0 :: tail) before.length wanted = some (strcmp s wanted) := by
  have here : ∀ before after : List UInt8, (before ++ after)[before.length]? = after.head? := by
    intro before after
    rw [List.getElem?_append_right (Nat.le_refl _), Nat.sub_self, List.head?_eq_getElem?]
  induction wanted generalizing before s with
  | nil =>
    rw [strcmpAt, List.append_assoc, here]
    cases s with
    | nil => rfl
    | cons byte rest =>
      have positive : byte ≠ 0 := fun zero => nonul (zero ▸ List.mem_cons_self)
      simp [strcmp, positive]
  | cons first others inductionHypothesis =>
    rw [List.mem_cons, not_or] at proper
    rw [strcmpAt, List.append_assoc, here]
    cases s with
    | nil =>
      have positive : (0 : UInt8) < first := UInt8.pos_iff_ne_zero.mpr (Ne.symm proper.1)
      simp [strcmp, positive]
    | cons byte rest =>
      rw [List.mem_cons, not_or] at nonul
      have next := inductionHypothesis (before ++ [byte]) rest nonul.2 proper.2
      have moved : before ++ [byte] ++ rest ++ 0 :: tail =
          before ++ (byte :: rest ++ 0 :: tail) := by simp
      rw [moved, List.length_append, List.length_singleton] at next
      simp only [List.cons_append, List.head?_cons, Option.bind_eq_bind, Option.bind_some, strcmp]
      split
      · rfl
      · split
        · rfl
        · exact next

section
variable {buffer : Buffer} {strings : List (List UInt8)}

/-- A lookup whose search misses hands out nothing. -/
theorem not_looksUp {name : CString} {p : Nat}
    (missed : findNvramEntryPosition buffer name = some (p, false)) (bytes : List UInt8) :
    ¬ LooksUp buffer name bytes := by
  intro looked
  rw [LooksUp, get_missed true missed] at looked
  exact not_succeeded looked

/-- Where the search hits, there is one value to look up and to compare. -/
theorem hit_value (packs : Packs buffer strings) (packable : Packable strings) {name : CString}
    {p : Nat} (found : findNvramEntryPosition buffer name = some (p, true)) :
    ∃ held, (∀ bytes, LooksUp buffer name bytes ↔ held = bytes) ∧
      (0 : UInt8) ∉ held ∧ (∃ byte, buffer.data[p]? = some byte ∧ byte ≠ 0) ∧
      ∃ before tail, buffer.data = before ++ held ++ 0 :: tail ∧
        skipEquals buffer.data (p + name.length) = before.length := by
  obtain ⟨-, first, old, second, parts, rfl, nonul⟩ := packs.find_hit packable found
  obtain ⟨free, before, tail, area, skipped⟩ := packs.cut_hit parts nonul
  refine ⟨_, ?_, free, ?_, before, tail, area, skipped⟩
  · intro bytes
    rw [LooksUp, packs.get_hit parts nonul found]
    simp
  · obtain ⟨junk, whole, -⟩ := packs.cut_string parts nonul
    obtain ⟨byte, rest, starts⟩ : ∃ byte rest, name.bytes ++ equals :: old = byte :: rest :=
      List.exists_cons_of_ne_nil (by simp)
    refine ⟨byte, ?_, fun zero => nonul ?_⟩
    · rw [whole, starts]
      simp
    · rw [starts, zero]
      exact List.mem_cons_self

/-- Matching two names reports whether lookups of both hand out the same. -/
theorem matchEntry_reports (packs : Packs buffer strings) (packable : Packable strings)
    (name1 name2 : CString) : Reports (localMetaNvramMatchEntry buffer name1 name2)
      (∃ bytes, LooksUp buffer name1 bytes ∧ LooksUp buffer name2 bytes) := by
  rw [localMetaNvramMatchEntry]
  obtain ⟨⟨p1, equal1⟩, found1⟩ : ∃ place, findNvramEntryPosition buffer name1 = some place :=
    ⟨_, packs.find_strings packable name1⟩
  obtain ⟨⟨p2, equal2⟩, found2⟩ : ∃ place, findNvramEntryPosition buffer name2 = some place :=
    ⟨_, packs.find_strings packable name2⟩
  cases equal1 with
  | false =>
    refine ⟨retFail, ?_, ?_, fun _ => rfl⟩
    · rw [metaNvramMatchEntry, found1]
      rfl
    · constructor
      · exact fun same => absurd same (by decide)
      · rintro ⟨bytes, looked, -⟩
        exact absurd looked (not_looksUp found1 bytes)
  | true =>
    obtain ⟨held1, looks1, free1, -, before1, tail1, area1, skipped1⟩ :=
      hit_value packs packable found1
    cases equal2 with
    | false =>
      refine ⟨retFail, ?_, ?_, fun _ => rfl⟩
      · rw [metaNvramMatchEntry, found1, found2]
        rfl
      · constructor
        · exact fun same => absurd same (by decide)
        · rintro ⟨bytes, -, looked⟩
          exact absurd looked (not_looksUp found2 bytes)
    | true =>
      obtain ⟨held2, looks2, free2, -, before2, tail2, area2, skipped2⟩ :=
        hit_value packs packable found2
      have read1 := ByteArea.stringAt_between before1 held1 tail1 free1
      have read2 := ByteArea.stringAt_between before2 held2 tail2 free2
      rw [← area1, ← skipped1] at read1
      rw [← area2, ← skipped2] at read2
      have same : (∃ bytes, LooksUp buffer name1 bytes ∧ LooksUp buffer name2 bytes) ↔
          strcmp held1 held2 = .eq := by
        rw [strcmp_eq_iff]
        constructor
        · rintro ⟨bytes, first, second⟩
          rw [(looks1 bytes).mp first, (looks2 bytes).mp second]
        · intro equal
          exact ⟨held1, (looks1 held1).mpr rfl, (looks2 held1).mpr equal.symm⟩
      rw [reports_congr same]
      apply reports_if
      rw [metaNvramMatchEntry, found1, found2]
      simp only [Option.bind_eq_bind, Option.bind_some, if_true, read1, read2]
      split <;> rfl

/-- Matching a value reports whether a lookup hands it out, unless the search strays. -/
theorem matchEntryValue_reports_iff (packs : Packs buffer strings) (packable : Packable strings)
    (name value : CString) : Reports (localMetaNvramMatchEntryValue buffer name value)
      (LooksUp buffer name value.bytes) ↔ ¬ Strays buffer name value := by
  rw [localMetaNvramMatchEntryValue]
  have search := packs.find_strings packable name
  obtain ⟨⟨p, equal⟩, place⟩ : ∃ place, place =
    ((pack (strings.take (searchStrings name strings).1)).length,
      (searchStrings name strings).2) := ⟨_, rfl⟩
  have found := search
  rw [← place] at found
  cases equal with
  | true =>
    obtain ⟨held, looks, free, ⟨byte, here, positive⟩, before, tail, area, skipped⟩ :=
      hit_value packs packable found
    have straight : ¬ Strays buffer name value := by
      rintro ⟨_, other, -⟩
      rw [found] at other
      cases other
    have compared := strcmpAt_between before held tail value.bytes free value.nonul
    rw [← area, ← skipped] at compared
    have same : LooksUp buffer name value.bytes ↔ strcmp held value.bytes = .eq := by
      rw [looks, strcmp_eq_iff]
    rw [reports_congr same]
    refine iff_of_true (reports_if ?_) straight
    rw [metaNvramMatchEntryValue, found]
    simp only [Option.bind_eq_bind, Option.bind_some, here, positive, if_false, compared]
    split <;> rfl
  | false =>
    have lost := not_looksUp found value.bytes
    obtain ⟨junk, layout⟩ := packs.layout
    have inside : p < buffer.data.length := by
      have stop := congrArg Prod.fst place
      have shorter : (pack (strings.take (searchStrings name strings).1)).length ≤
          (pack strings).length := by
        conv_rhs => rw [← List.take_append_drop (searchStrings name strings).1 strings]
        rw [ByteArea.pack_append, List.length_append]
        exact Nat.le_add_right _ _
      rw [layout, List.length_append, List.length_cons]
      dsimp only at stop
      omega
    have here : buffer.data[p]? = some buffer.data[p] := List.getElem?_eq_getElem inside
    by_cases ended : buffer.data[p] = 0
    · -- the search came to the end of the list
      refine iff_of_true ⟨retFail, ?_, ?_, fun _ => rfl⟩ ?_
      · rw [metaNvramMatchEntryValue, found]
        simp only [Option.bind_eq_bind, Option.bind_some, here, ended, if_true]
      · exact iff_of_false (by decide) lost
      · rintro ⟨_, other, filled, -⟩
        rw [found] at other
        obtain rfl : p = _ := congrArg Prod.fst (Option.some.inj other)
        exact filled (here.trans (congrArg some ended))
    · -- it stopped at an entry of another name
      have code : metaNvramMatchEntryValue buffer name value =
          (strcmpAt buffer.data (skipEquals buffer.data (p + name.length)) value.bytes).map
            fun sign => if sign = .eq then retOk else retFail := by
        rw [metaNvramMatchEntryValue, found]
        simp only [Option.bind_eq_bind, Option.bind_some, here, ended, if_false]
        cases strcmpAt buffer.data (skipEquals buffer.data (p + name.length)) value.bytes with
        | none => rfl
        | some sign => cases sign <;> rfl
      have strays : Strays buffer name value ↔
          strcmpAt buffer.data (skipEquals buffer.data (p + name.length)) value.bytes ∈
            [none, some .eq] := by
        constructor
        · rintro ⟨_, other, -, compared⟩
          rw [found] at other
          obtain rfl : p = _ := congrArg Prod.fst (Option.some.inj other)
          exact compared
        · intro compared
          refine ⟨p, found, ?_, compared⟩
          rw [here]
          exact fun zero => ended (Option.some.inj zero)
      rw [strays, code]
      cases strcmpAt buffer.data (skipEquals buffer.data (p + name.length)) value.bytes with
      | none =>
        refine iff_of_false ?_ (by simp)
        rintro ⟨ret, none, -⟩
        cases none
      | some sign =>
        cases sign with
        | eq =>
          refine iff_of_false ?_ (by simp)
          intro reports
          exact lost ((reports.iff_of_some rfl).mp rfl)
        | lt => exact iff_of_true ⟨retFail, rfl, iff_of_false (by decide) lost, fun _ => rfl⟩ (by simp)
        | gt => exact iff_of_true ⟨retFail, rfl, iff_of_false (by decide) lost, fun _ => rfl⟩ (by simp)

end

end MetaNvram

end Ezcfg

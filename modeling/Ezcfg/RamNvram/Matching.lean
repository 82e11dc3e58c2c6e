import Ezcfg.MetaNvram.Matching
import Ezcfg.RamNvram.Layout

/-!
# Matching entries of the RAM nvram

Both operations ask for the names as a lookup does. The one that compares two names is
declared to return a bool, so a code of failure leaves it as one.
-/

namespace Ezcfg

open Foundation

namespace RamNvram

/-- The string a node's value points at. -/
def NvramNode.valueText (memory : Memory) (np : NvramNode) : Option CString := do
  let p ← np.value
  let block ← memory.read p
  some block.text

/-- `nvram_match_entry`, whose codes pass through a bool. -/
def nvramMatchEntry (ram : Ram) (name1 name2 : CString) : Option Int := do
  let (p1, equal1) ← findNvramEntryPosition ram name1
  if equal1 then
    let np1 ← ram.nvram.nodeList[p1.toNat]?
    let (p2, equal2) ← findNvramEntryPosition ram name2
    if equal2 then
      let np2 ← ram.nvram.nodeList[p2.toNat]?
      let first ← np1.valueText ram.memory
      let second ← np2.valueText ram.memory
      if strcmp first second = .eq then some (toBool retOk) else some (toBool retFail)
    else some (toBool retFail)
  else some (toBool retFail)

/-- `nvram_match_entry_value` -/
def nvramMatchEntryValue (ram : Ram) (name value : CString) : Option Int := do
  let (p, equal) ← findNvramEntryPosition ram name
  if equal then
    let np ← ram.nvram.nodeList[p.toNat]?
    let held ← np.valueText ram.memory
    if strcmp held value = .eq then some retOk else some retFail
  else some retFail

/-- `local_nvram_match_entry` -/
def localNvramMatchEntry (ram : Ram) (name1 name2 : CString) : Option Int :=
  nvramMatchEntry ram name1 name2

/-- `local_nvram_match_entry_value` -/
def localNvramMatchEntryValue (ram : Ram) (name value : CString) : Option Int :=
  nvramMatchEntryValue ram name value

/-- A lookup of the name hands out the value. -/
def LooksUp (ram : Ram) (name value : CString) : Prop :=
  nvramGetEntryValue ram name true none = some (retOk, some value)

/-- Both names are present, with one value. -/
def SameValue (ram : Ram) (name1 name2 : CString) : Prop :=
  ∃ value, LooksUp ram name1 value ∧ LooksUp ram name2 value

/-- A lookup of the name reads live strings only. -/
def Readable (ram : Ram) (name : CString) : Prop :=
  nvramGetEntryValue ram name true none ≠ none

/-- The value held by an array slot. -/
def nodeValue (ram : Ram) (p : Nat) : Option CString := do
  let np ← ram.nvram.nodeList[p]?
  np.valueText ram.memory

section
variable {ram : Ram} {name : CString} {p : Int}

/-- A lookup that hits hands out the value of the node. -/
theorem get_hit (found : findNvramEntryPosition ram name = some (p, true)) :
    nvramGetEntryValue ram name true none =
      (nodeValue ram p.toNat).map fun value => (retOk, some value) := by
  rw [nvramGetEntryValue, found, nodeValue]
  simp only [Option.bind_eq_bind, Option.bind_some, if_true]
  cases slot : ram.nvram.nodeList[p.toNat]? with
  | none => rfl
  | some np =>
    rw [Option.bind_some, Option.bind_some, NvramNode.valueText]
    cases pointer : np.value with
    | none => rfl
    | some q =>
      simp only [Option.bind_eq_bind, Option.bind_some]
      cases ram.memory.read q <;> rfl

/-- A lookup that misses fails. -/
theorem get_missed (found : findNvramEntryPosition ram name = some (p, false)) :
    nvramGetEntryValue ram name true none = some (retFail, none) := by
  rw [nvramGetEntryValue, found]
  rfl

/-- A lookup that misses hands out nothing. -/
theorem not_looksUp (found : findNvramEntryPosition ram name = some (p, false))
    (value : CString) : ¬ LooksUp ram name value := by
  rw [LooksUp, get_missed found]
  exact MetaNvram.not_succeeded

/-- A lookup that hits hands out a value when the node has it. -/
theorem looksUp_iff (found : findNvramEntryPosition ram name = some (p, true)) (value : CString) :
    LooksUp ram name value ↔ nodeValue ram p.toNat = some value := by
  rw [LooksUp, get_hit found]
  cases nodeValue ram p.toNat with
  | none => simp
  | some held => simp

end

/-- Matching a value reports whether a lookup hands it out, when the lookup reads live
strings only. -/
theorem matchEntryValue_reports_iff (ram : Ram) (name value : CString) :
    Reports (localNvramMatchEntryValue ram name value) (LooksUp ram name value) ↔
      Readable ram name := by
  rw [localNvramMatchEntryValue, nvramMatchEntryValue, Readable]
  cases found : findNvramEntryPosition ram name with
  | none =>
    refine iff_of_false ?_ ?_
    · rintro ⟨ret, none, -⟩
      cases none
    · rw [nvramGetEntryValue, found]
      exact fun other => other rfl
  | some place =>
    obtain ⟨p, equal⟩ := place
    cases equal with
    | false =>
      refine iff_of_true ⟨retFail, rfl, ?_, fun _ => rfl⟩ ?_
      · exact iff_of_false (by decide) (not_looksUp found value)
      · rw [get_missed found]
        exact Option.some_ne_none _
    | true =>
      have code : (do
          let np ← ram.nvram.nodeList[p.toNat]?
          let held ← np.valueText ram.memory
          if strcmp held value = .eq then some retOk else some retFail) =
          (nodeValue ram p.toNat).bind fun held =>
            if strcmp held value = .eq then some retOk else some retFail := by
        rw [nodeValue]
        exact (Option.bind_assoc _ _ _).symm
      simp only [Option.bind_eq_bind, Option.bind_some, if_true]
      rw [get_hit found, looksUp_iff found]
      rw [Option.bind_eq_bind] at code
      simp only [Option.bind_eq_bind] at code
      rw [code]
      cases nodeValue ram p.toNat with
      | none =>
        refine iff_of_false ?_ (fun other => other rfl)
        rintro ⟨ret, none, -⟩
        cases none
      | some held =>
        refine iff_of_true ?_ (Option.some_ne_none _)
        have same : some held = some value ↔ strcmp held value = .eq := by
          rw [Option.some_inj, CString.eq_iff]
        rw [reports_congr same]
        apply reports_if
        rw [Option.bind_some]
        split <;> rfl

/-- The codes of a comparison of two names, after they have been stored in a bool. -/
theorem matchEntry_code {ram : Ram} {name1 name2 : CString} {ret : Int}
    (done : localNvramMatchEntry ram name1 name2 = some ret) : ret ≠ retFail := by
  rw [localNvramMatchEntry, nvramMatchEntry] at done
  obtain ⟨⟨p1, equal1⟩, -, rest⟩ := Option.bind_eq_some_iff.mp done
  dsimp only at rest
  split at rest
  · obtain ⟨np1, -, rest⟩ := Option.bind_eq_some_iff.mp rest
    obtain ⟨⟨p2, equal2⟩, -, rest⟩ := Option.bind_eq_some_iff.mp rest
    dsimp only at rest
    split at rest
    · obtain ⟨np2, -, rest⟩ := Option.bind_eq_some_iff.mp rest
      obtain ⟨first, -, rest⟩ := Option.bind_eq_some_iff.mp rest
      obtain ⟨second, -, rest⟩ := Option.bind_eq_some_iff.mp rest
      split at rest
      · rw [← Option.some.inj rest]
        decide
      · rw [← Option.some.inj rest]
        decide
    · rw [← Option.some.inj rest]
      decide
  · rw [← Option.some.inj rest]
    decide

/-- Matching two names succeeds when both are present with one value. -/
theorem matchEntry_same {ram : Ram} {name1 name2 : CString} (same : SameValue ram name1 name2) :
    localNvramMatchEntry ram name1 name2 = some retOk := by
  obtain ⟨value, first, second⟩ := same
  have hit : ∀ {name : CString}, LooksUp ram name value →
      ∃ p : Int, findNvramEntryPosition ram name = some (p, true) ∧
        ∃ np, ram.nvram.nodeList[p.toNat]? = some np ∧ np.valueText ram.memory = some value := by
    intro name looked
    cases found : findNvramEntryPosition ram name with
    | none =>
      rw [LooksUp, nvramGetEntryValue, found] at looked
      cases looked
    | some place =>
      obtain ⟨p, equal⟩ := place
      cases equal with
      | false => exact absurd looked (not_looksUp found value)
      | true =>
        exact ⟨p, rfl, Option.bind_eq_some_iff.mp ((looksUp_iff found value).mp looked)⟩
  obtain ⟨p1, found1, np1, slot1, value1⟩ := hit first
  obtain ⟨p2, found2, np2, slot2, value2⟩ := hit second
  rw [localNvramMatchEntry, nvramMatchEntry]
  simp only [found1, found2, slot1, slot2, value1, value2, Option.bind_eq_bind, Option.bind_some,
    if_true, strcmp_self]
  rfl

/-- Matching two names reports whether both are present with one value only where they are:
otherwise the code is one, if there is any. -/
theorem matchEntry_reports_iff (ram : Ram) (name1 name2 : CString) :
    Reports (localNvramMatchEntry ram name1 name2) (SameValue ram name1 name2) ↔
      SameValue ram name1 name2 := by
  constructor
  · rintro ⟨ret, done, same, failed⟩
    refine same.mp (by_contra fun other => ?_)
    exact matchEntry_code done (failed other)
  · intro same
    exact ⟨retOk, matchEntry_same same, iff_of_true rfl same, fun other => absurd rfl other⟩

end RamNvram

/-! ## Both stores -/

section
open MetaNvram RamNvram

/-- Every operation that matches reports what lookups hand out. -/
def MatchingAgrees (buffer : Buffer) (ram : Ram) (name name1 name2 value : CString) : Prop :=
  Reports (localMetaNvramMatchEntryValue buffer name value)
      (MetaNvram.LooksUp buffer name value.bytes) ∧
    Reports (localMetaNvramMatchEntry buffer name1 name2)
      (∃ bytes, MetaNvram.LooksUp buffer name1 bytes ∧ MetaNvram.LooksUp buffer name2 bytes) ∧
    Reports (localNvramMatchEntryValue ram name value) (RamNvram.LooksUp ram name value) ∧
    Reports (localNvramMatchEntry ram name1 name2) (SameValue ram name1 name2)

/-- For every buffer that can be reached and every table, matching agrees with lookups
exactly when the search of the buffer does not stray, that of the table reads live strings
only, and the table has both names with one value. -/
theorem matchingAgrees_iff (size : Int32) {start buffer : Buffer}
    (created : localMetaNvramNew size = some start) (reached : Reachable Buffer.edit start buffer)
    (ram : Ram) (name name1 name2 value : CString) :
    MatchingAgrees buffer ram name name1 name2 value ↔
      ¬ Strays buffer name value ∧ Readable ram name ∧ SameValue ram name1 name2 := by
  obtain ⟨strings, packs, packable⟩ := reachable_holdsStrings created reached
  have both := matchEntry_reports packs packable name1 name2
  rw [MatchingAgrees, MetaNvram.matchEntryValue_reports_iff packs packable,
    RamNvram.matchEntryValue_reports_iff, matchEntry_reports_iff]
  constructor
  · rintro ⟨straight, -, readable, same⟩
    exact ⟨straight, readable, same⟩
  · rintro ⟨straight, readable, same⟩
    exact ⟨straight, both, readable, same⟩

/-- Two names of which the first is below the second, and a value. -/
def absentName : CString := ⟨[109, 110], by decide, by decide⟩

def presentName : CString := ⟨[109, 111], by decide, by decide⟩

def presentValue : CString := ⟨[112], by decide, by decide⟩

/-- The buffer in which the second name was set. -/
def presentStored : Buffer := ⟨[109, 111, 61, 112] ++ List.replicate 4 0, 6⟩

/-- The buffer matches a name that is absent, and for names that are absent the table answers
with one. -/
theorem not_matchingAgrees :
    (¬ ∀ (size : Int32) (start buffer : Buffer) (name value : CString),
      localMetaNvramNew size = some start → Reachable Buffer.edit start buffer →
      Reports (localMetaNvramMatchEntryValue buffer name value)
        (MetaNvram.LooksUp buffer name value.bytes)) ∧
    ¬ ∀ (nodeListSize : Nat) (ram : Ram) (name1 name2 : CString), 1 ≤ nodeListSize →
      Reachable Ram.change (Ram.fresh nodeListSize) ram →
      Reports (localNvramMatchEntry ram name1 name2) (SameValue ram name1 name2) := by
  constructor
  · intro agrees
    have reports := agrees 40 (.fresh 8) presentStored absentName presentValue (by decide)
      (.step (.set presentName presentValue) retOk .start (by decide +kernel))
    have code : localMetaNvramMatchEntryValue presentStored absentName presentValue =
        some retOk := by decide +kernel
    have lost : metaNvramGetEntryValue presentStored absentName true = some (retFail, none) := by
      decide +kernel
    have looked := (reports.iff_of_some code).mp rfl
    rw [MetaNvram.LooksUp, lost] at looked
    exact MetaNvram.not_succeeded looked
  · intro agrees
    obtain ⟨ret, done, -, failed⟩ := agrees 1 (.fresh 1) absentName presentName (by decide) .start
    have code : localNvramMatchEntry (.fresh 1) absentName presentName = some 1 := by
      decide +kernel
    obtain rfl := Option.some.inj (done.symm.trans code)
    exact absurd (failed (by decide)) (by decide)

theorem matchingAgrees_iff_fresh :
    MatchingAgrees (.fresh 8) (.fresh 1) presentName presentName presentName presentValue ↔
      ¬ Strays (.fresh 8) presentName presentValue ∧ Readable (.fresh 1) presentName ∧
        SameValue (.fresh 1) presentName presentName :=
  matchingAgrees_iff 40 (show localMetaNvramNew 40 = some (.fresh 8) by decide) .start _ _ _ _ _

end

end Ezcfg

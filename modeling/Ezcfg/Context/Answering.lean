import Ezcfg.Context.Settings

/-!
# Runs of changes and lookups on a context

Entries are set and unset in the RAM table, by batches of one pair, and a lookup asks the table
before it asks the META buffer. The entries of the table are kept beside the context as a map, and
a name stands for its entry, or else for the setting of the text. So an entry hides the setting,
and unsetting it uncovers the setting again.

The table misses names, and loses entries when one is removed in front of others; the runs are
those in which it does neither. Without a table only lookups are made.
-/

namespace Ezcfg.Context

open Foundation Foundation.Json Json MetaNvram NvPairs
open RamNvram (Ram)

/-- A change of one entry, or a lookup. -/
inductive Request where
  | set (name : Name) (value : CString)
  | unset (name : Name)
  | get (name : Name)

/-- A batch of one pair; memory is granted. -/
def changeOne (stores : Stores) (pair : NvPair) : Option (Answer × Stores) := do
  let (ret, nvram) ← ezcfgCommonSetNvramEntries stores.nvram [(pair, .full)]
  return (⟨ret, none⟩, { stores with nvram })

/-- Perform one call. -/
def callStores (stores : Stores) : Request → Option (Answer × Stores)
  | .set name value => changeOne stores ⟨some name.val, some value⟩
  | .unset name => changeOne stores ⟨some name.val, none⟩
  | .get name => do
    let (ret, value) ← ezcfgCommonGetNvramEntryValue stores ⟨true, true⟩ name.val
    return (⟨ret, value⟩, stores)

/-- What a name stands for: its entry in the table, or else its setting. -/
def standsFor (settings : List Json.NvPair) (table : RamNvram.Contents) (name : Name) :
    Option CString :=
  (table name.val).or (settingOf settings name.val)

/-- What a call must answer, given the entries of the table before it. -/
def demand (settings : List Json.NvPair) (table : RamNvram.Contents) (stores : Stores) :
    Request → Answer → Stores → Prop
  | .set name _, answer, after =>
    (answer.ret ≠ retOk ↔ table name.val = none ∧
      ∀ ram ∈ stores.nvram, ram.nvram.nodeListUsed = ram.nvram.nodeListSize) ∧
    (answer.ret ≠ retOk → after = stores)
  | .unset name, answer, _ => answer.ret = retOk ↔ table name.val ≠ none
  | .get name, answer, after =>
    Tells (standsFor settings table name) answer.ret answer.value ∧ after = stores

/-- The entries of the table after a call. -/
def updateTable (table : RamNvram.Contents) : Request → Answer → RamNvram.Contents
  | .set name value, answer =>
    if answer.ret = retOk then Function.update table name.val (some value) else table
  | .unset name, answer =>
    if answer.ret = retOk then Function.update table name.val none else table
  | .get _, _ => table

/-- The request to the table that a request leads to. -/
def Request.ofTable : Request → RamNvram.Request
  | .set name value => .set name.val value
  | .unset name => .unset name.val
  | .get name => .get name.val

/-- Whether a request changes the table. -/
def Request.changes : Request → Bool
  | .get _ => false
  | _ => true

/-- The search of the table does not miss, and a change has a table. -/
def reaches (stores : Stores) (request : Request) : Prop :=
  (request.changes = true → stores.nvram ≠ none) ∧
    ∀ ram ∈ stores.nvram, RamNvram.mapSafe ram request.ofTable

instance (stores : Stores) (request : Request) : Decidable (reaches stores request) :=
  inferInstanceAs (Decidable (_ ∧ _))

/-- A context with these settings, and these entries in its table. -/
structure Holds (settings : List Json.NvPair) (table : RamNvram.Contents) (stores : Stores) :
    Prop where
  entries : ∀ ram ∈ stores.nvram, RamNvram.MapsTo table ram
  bare : stores.nvram = none → table = fun _ => none
  buffer : ∃ buffer ∈ stores.metaNvram, MapsTo (settingsMap settings) buffer

variable {settings : List Json.NvPair} {table : RamNvram.Contents} {stores : Stores}

/-- A batch of one pair is the change of the pair. -/
theorem changeOne_eq {ram after : Ram} {pair : NvPair} {ret : Int} (metaNvram : Option Buffer)
    (changed : changePair ram (pair, .full) = some (ret, after)) :
    changeOne ⟨some ram, metaNvram⟩ pair = some (⟨ret, none⟩, ⟨some after, metaNvram⟩) := by
  have batch : ezcfgCommonSetNvramEntries (some ram) [(pair, .full)] = some (ret, some after) := by
    rw [ezcfgCommonSetNvramEntries, changePairs, bind_of_some changed]
    by_cases refused : refuses ram (pair, .full)
    · obtain ⟨other, failed, -⟩ := changePair_refused refused
      obtain ⟨rfl, rfl⟩ := Prod.mk.inj (Option.some.inj (failed.symm.trans changed))
      rfl
    · obtain rfl := changePair_accepted refused changed
      rfl
  rw [changeOne, bind_of_some batch]
  rfl

/-- A change answers as is demanded. -/
theorem change_step (holds : Holds settings table stores) (request : Request)
    (isChange : request.changes = true) (safe : reaches stores request) :
    ∃ answer after, callStores stores request = some (answer, after) ∧
      demand settings table stores request answer after ∧
      Holds settings (updateTable table request answer) after := by
  obtain ⟨nvram, metaNvram⟩ := stores
  obtain ⟨ram, rfl⟩ := Option.ne_none_iff_exists'.mp (safe.1 isChange)
  have linked := holds.entries ram rfl
  have permitted := safe.2 ram rfl
  obtain ⟨answer, after, taken, told, next⟩ := RamNvram.call_step request.ofTable linked permitted
  have keeps {table' : RamNvram.Contents} (entries : RamNvram.MapsTo table' after) :
      Holds settings table' ⟨some after, metaNvram⟩ := by
    refine ⟨?_, ?_, holds.buffer⟩
    · intro other is
      rw [← Option.some.inj is]
      exact entries
    · intro none
      cases none
  cases request with
  | get name => cases isChange
  | set name value =>
    obtain ⟨⟨ret, other⟩, done, same⟩ := Option.map_eq_some_iff.mp taken
    obtain ⟨rfl, rfl⟩ := Prod.mk.inj same
    have changed : changePair ram (⟨some name.val, some value⟩, .full) = some (ret, other) := done
    have codes : ret ≠ retOk ↔ ret = retFail := by
      by_cases refused : refuses ram (⟨some name.val, some value⟩, .full)
      · obtain ⟨last, failed, -⟩ := changePair_refused refused
        obtain ⟨rfl, -⟩ := Prod.mk.inj (Option.some.inj (failed.symm.trans changed))
        exact iff_of_true (by decide) rfl
      · obtain rfl := changePair_accepted refused changed
        exact iff_of_false (fun other => other rfl) (by decide)
    refine ⟨_, _, changeOne_eq metaNvram changed, ⟨?_, ?_⟩, keeps next⟩
    · rw [codes, told.1]
      simp
    · intro failed
      rw [told.2 (codes.mp failed)]
  | unset name =>
    obtain ⟨⟨ret, other⟩, done, same⟩ := Option.map_eq_some_iff.mp taken
    obtain ⟨rfl, rfl⟩ := Prod.mk.inj same
    have changed : changePair ram (⟨some name.val, none⟩, .full) = some (ret, other) := done
    exact ⟨_, _, changeOne_eq metaNvram changed, told, keeps next⟩

/-- A lookup in the table hands the entry out, or fails. -/
theorem getNvramValue_tells (holds : Holds settings table stores) {name : Name}
    (safe : reaches stores (.get name)) :
    ∃ ret value, getNvramValue stores.nvram name.val true = some (ret, value) ∧
      Tells (table name.val) ret value := by
  obtain ⟨nvram, metaNvram⟩ := stores
  cases nvram with
  | none =>
    refine ⟨retFail, none, rfl, ?_⟩
    rw [holds.bare rfl]
    rfl
  | some ram =>
    obtain ⟨answer, after, taken, told, -⟩ :=
      RamNvram.get_step name.val (holds.entries ram rfl) (safe.2 ram rfl)
    obtain ⟨⟨ret, value⟩, done, same⟩ := Option.map_eq_some_iff.mp taken
    obtain ⟨rfl, rfl⟩ := Prod.mk.inj same
    have looked : RamNvram.nvramGetEntryValue ram name.val true none = some (ret, value) := done
    refine ⟨ret, value.map CString.bytes, ?_, ?_⟩
    · rw [getNvramValue, bind_of_some looked]
      rfl
    · rw [RamNvram.demand] at told
      cases entry : table name.val with
      | none =>
        simp only [entry] at told
        exact told
      | some found =>
        simp only [entry] at told
        rw [told.2]
        exact ⟨told.1, rfl⟩

/-- A lookup answers as is demanded. -/
theorem lookUp_step (legible : Legible settings) (holds : Holds settings table stores) (name : Name)
    (safe : reaches stores (.get name)) :
    ∃ answer after, callStores stores (.get name) = some (answer, after) ∧
      demand settings table stores (.get name) answer after ∧
      Holds settings (updateTable table (.get name) answer) after := by
  obtain ⟨buffer, present, linked⟩ := holds.buffer
  obtain ⟨ret, value, looked, told⟩ := getNvramValue_tells holds safe
  have answered {ret : Int} {value : Option (List UInt8)}
      (done : ezcfgCommonGetNvramEntryValue stores ⟨true, true⟩ name.val = some (ret, value))
      (tells : Tells (standsFor settings table name) ret value) :
      ∃ answer after, callStores stores (.get name) = some (answer, after) ∧
        demand settings table stores (.get name) answer after ∧
        Holds settings (updateTable table (.get name) answer) after := by
    refine ⟨⟨ret, value⟩, stores, ?_, ⟨tells, rfl⟩, holds⟩
    rw [callStores, bind_of_some done]
    rfl
  cases entry : table name.val with
  | some found =>
    simp only [entry, Tells] at told
    obtain ⟨rfl, rfl⟩ := told
    apply answered
    · rw [ezcfgCommonGetNvramEntryValue, bind_of_some looked]
      rfl
    · rw [standsFor, entry]
      exact ⟨rfl, rfl⟩
  | none =>
    simp only [entry, Tells] at told
    subst told
    obtain ⟨ret, value, found, told⟩ := metaNvram_tells legible linked name
    apply answered
    · rw [ezcfgCommonGetNvramEntryValue, bind_of_some looked]
      dsimp only
      rw [if_neg (by decide), bind_of_some present]
      exact found
    · rw [standsFor, entry]
      exact told

/-- Every call answers as is demanded. -/
theorem call_step (legible : Legible settings) (table : RamNvram.Contents) (stores : Stores)
    (request : Request) (holds : Holds settings table stores) (safe : reaches stores request) :
    ∃ answer after, callStores stores request = some (answer, after) ∧
      demand settings table stores request answer after ∧
      Holds settings (updateTable table request answer) after := by
  cases request with
  | get name => exact lookUp_step legible holds name safe
  | set name value => exact change_step holds (.set name value) rfl safe
  | unset name => exact change_step holds (.unset name) rfl safe

/-- The digit is no terminator. -/
theorem digitTwo_ne : (0x32 : UInt8) ≠ 0 := by decide

/-- The settings "a" and the size of the table. -/
def sizedSettings : List Json.NvPair :=
  [⟨nameA.val, valueX.val⟩, ⟨nodeListSizeName, .single 0x32 digitTwo_ne⟩]

/-- The object with these settings. -/
def sizedValue : Json.Value :=
  .object (.cons [0x61] (.string [0x78]) (.cons nodeListSizeName.bytes (.string [0x32]) .nil))

/-- The text of the object is a string. -/
theorem sizedValue_nonul : (0 : UInt8) ∉ sizedValue.print := by decide

/-- The text of the object is short. -/
theorem sizedValue_short : sizedValue.print.length < 2 ^ 31 := by decide

/-- The text of the object. -/
def sizedText : Text := ⟨sizedValue.print, sizedValue_nonul, sizedValue_short⟩

/-- The text derives the object. -/
theorem sizedText_derives : DerivesText tokens sizedValue sizedText.bytes := by
  apply Value.print_derivesText takes_tokens
  · have unquoted : quote ∉ ([0x61] : List UInt8) ∧ quote ∉ ([0x78] : List UInt8) ∧
        quote ∉ nodeListSizeName.bytes ∧ quote ∉ ([0x32] : List UInt8) := by decide
    exact ⟨unquoted.1, unquoted.2.1, unquoted.2.2.1, unquoted.2.2.2, trivial⟩
  · trivial

/-- A lookup, one of an entry that hides the setting, and one when the entry is gone. -/
def hidingRequests : List Request :=
  [.get nameA, .set nameA (.single 0x32 digitTwo_ne), .get nameA, .unset nameA, .get nameA]

end Ezcfg.Context

import Ezcfg.Json.NvramList
import Ezcfg.MetaNvram.Strings

/-!
# Filling the META nvram from the configuration

A new context makes its META buffer as large as the compact text of the configuration and
then sets the entries of the list that is built from it. Every setting takes four bytes
less in the buffer than in the text, where it has quotation marks, a colon and a comma. So
the bytes used stay below the bytes counted, whichever strings the settings touch.
-/

namespace Ezcfg.Context

open Foundation Json MetaNvram
open Foundation.ByteArea (pack)

/-- The loop of `_local_meta_nvram_set_entries`; `ret` is the code of the entry before. -/
def setEntriesLoop (ret : Int) (buffer : Buffer) : List Json.NvPair → Option (Int × Buffer)
  | [] => some (ret, buffer)
  | data :: rest => do
    let (ret, buffer) ← metaNvramSetEntry buffer data.name data.value
    if ret = retFail then return (ret, buffer)
    setEntriesLoop ret buffer rest

/-- `_local_meta_nvram_set_entries` -/
def localMetaNvramSetEntries (buffer : Buffer) (list : List Json.NvPair) : Option (Int × Buffer) :=
  setEntriesLoop retFail buffer list

/-- The size that `ezcfg_new` asks `local_meta_nvram_new` for. -/
def metaNvramSize (json : Json) : Int32 := Int32.ofInt (jsonGetMsgLen json + headerSize)

/-- Setting the entries of every part of a list succeeds inside the data area. -/
def FillsWithin (buffer : Buffer) (list : List Json.NvPair) : Prop :=
  ∀ part, part ≠ [] → part <+: list →
    ∃ after, localMetaNvramSetEntries buffer part = some (retOk, after) ∧
      after.dataUsed ≤ after.dataSize ∧ after.dataSize = buffer.dataSize

/-- The bytes that settings take in a buffer. -/
def stringSizes (list : List Json.NvPair) : Nat :=
  (list.map fun data => stringSize data.name data.value).sum

/-- A buffer with enough room is filled. The induction is on the settings left; what the
strings and the settings left take together never grows. -/
theorem setEntriesLoop_fills (list : List Json.NvPair) {buffer : Buffer}
    {strings : List (List UInt8)} (packs : Packs buffer strings) (packable : Packable strings)
    (room : (pack strings).length + stringSizes list + 2 ≤ buffer.data.length) (ret : Int)
    (began : list ≠ [] ∨ ret = retOk) :
    ∃ after strings', setEntriesLoop ret buffer list = some (retOk, after) ∧
      after.dataUsed ≤ after.dataSize ∧ after.dataSize = buffer.dataSize ∧
      Packs after strings' ∧ Packable strings' := by
  induction list generalizing buffer strings ret with
  | nil =>
    obtain rfl := began.resolve_left fun empty => empty rfl
    exact ⟨buffer, strings, rfl, packs.used_le, rfl, packs, packable⟩
  | cons data rest inductionHypothesis =>
    rw [stringSizes, List.map_cons, List.sum_cons, ← stringSizes] at room
    obtain ⟨next, strings', set, same, packs', packable', bound⟩ :=
      packs.set_packs packable data.name data.value (by omega)
    obtain ⟨after, final, filled, used, size, packed⟩ := inductionHypothesis packs' packable'
      (by rw [same]; omega) retOk (.inr rfl)
    refine ⟨after, final, ?_, used, ?_, packed⟩
    · rw [setEntriesLoop, bind_of_some set]
      dsimp only
      rw [if_neg (by decide)]
      exact filled
    · rw [size, Buffer.dataSize, Buffer.dataSize, same]

/-- A cleared data area packs no strings. -/
theorem fresh_packs {size : Nat} (positive : 0 < size) (addressable : size < 2 ^ 31) :
    Packs (.fresh size) [] := by
  obtain ⟨rest, rfl⟩ := Nat.exists_eq_succ_of_ne_zero (Nat.pos_iff_ne_zero.mp positive)
  refine ⟨⟨List.replicate rest 0, rfl⟩, .inr ⟨rfl, rfl, ?_⟩, ?_⟩
  · intro byte member
    exact List.eq_of_mem_replicate member
  · rw [Buffer.fresh, List.length_replicate]
    exact addressable

/-- The buffer of a new context has a data area of as many bytes as were counted. -/
theorem fresh_of_allocated {json : Json} (short : jsonGetMsgLen json < 2 ^ 31) {buffer : Buffer}
    (allocated : localMetaNvramNew (metaNvramSize json) = some buffer) :
    buffer = .fresh (jsonGetMsgLen json) := by
  rw [localMetaNvramNew] at allocated
  split at allocated
  · next large =>
    injection allocated with same
    rw [metaNvramSize, Int32.toInt_ofInt, headerSize] at large same
    have size : Int.bmod ((jsonGetMsgLen json : Int) + (32 : Nat)) Int32.size =
        (jsonGetMsgLen json : Int) + 32 := by
      simp only [Int.bmod, Int32.size] at large ⊢
      omega
    have length : ((jsonGetMsgLen json : Int) + 32 - (32 : Nat)).toNat = jsonGetMsgLen json := by
      omega
    rw [← same, size, length]
  · cases allocated

/-- A member of a compact text takes four bytes more than its string. -/
theorem memberSize_sum (settings : List Json.NvPair) :
    (settings.map memberSize).sum = stringSizes settings + 4 * settings.length := by
  induction settings with
  | nil => rfl
  | cons data rest inductionHypothesis =>
    rw [List.map_cons, List.sum_cons, inductionHypothesis, stringSizes, stringSizes, List.map_cons,
      List.sum_cons, memberSize, stringSize, List.length_cons]
    omega

/-- A buffer as large as the compact text of settings has room for every part of the list that
is built from them. -/
theorem settings_fill {value : Value} {settings : List Json.NvPair}
    (holds : HoldsSettings value settings) (short : value.print.length < 2 ^ 31)
    {part : List Json.NvPair} (isPrefix : part <+: appendAll settings) (present : part ≠ []) :
    ∃ after strings, localMetaNvramSetEntries (.fresh value.print.length) part =
        some (retOk, after) ∧ after.dataUsed ≤ after.dataSize ∧
      after.dataSize = (Buffer.fresh value.print.length).dataSize ∧
      Packs after strings ∧ Packable strings := by
  have length := print_of_settings holds
  have members := memberSize_sum settings
  have several := List.length_pos_of_ne_nil holds.1
  obtain ⟨bound, -⟩ := appendAll_sum (fun data => stringSize data.name data.value) settings
  obtain ⟨more, whole⟩ := isPrefix
  have sizes : stringSizes part ≤ stringSizes settings := by
    apply Nat.le_trans _ bound
    rw [← whole, List.map_append, List.sum_append]
    exact Nat.le_add_right _ _
  apply setEntriesLoop_fills part (fresh_packs (by omega) short) (fun _ inside => by cases inside) _
    retFail (.inl present)
  rw [Buffer.fresh, List.length_replicate, ByteArea.pack_nil, List.length_nil]
  omega

/-- The META buffer of a new context has room for the whole configuration. -/
theorem metaNvram_fills {text : Text} {len : Int} {json : Json} (positive : 0 < len)
    (accepted : jsonParseText jsonNew text.bytes len = some (retOk, json))
    (recognised : jsonIsNvramRepresentation json = some true) {buffer : Buffer}
    (allocated : localMetaNvramNew (metaNvramSize json) = some buffer) :
    ∃ list, jsonBuildNvramNodeList json = some (some list) ∧ list ≠ [] ∧
      FillsWithin buffer list := by
  obtain ⟨value, settings, rfl, holds, short⟩ :=
    settings_of_recognised positive accepted recognised
  obtain ⟨-, nonempty⟩ := appendAll_sum (fun data => stringSize data.name data.value) settings
  have counted : jsonGetMsgLen (handleOf value) = value.print.length := rfl
  obtain rfl := fresh_of_allocated (counted ▸ short) allocated
  refine ⟨appendAll settings, build_of_settings holds, nonempty holds.1, ?_⟩
  intro part present isPrefix
  obtain ⟨after, -, filled, used, size, -⟩ := settings_fill holds short isPrefix present
  exact ⟨after, filled, used, size⟩

/-- A configuration with a setting that is given twice. -/
def doubleText : Text where
  bytes := [0x7b, 0x22, 0x61, 0x22, 0x3a, 0x22, 0x31, 0x22, 0x2c,
    0x22, 0x61, 0x22, 0x3a, 0x22, 0x3d, 0x22, 0x7d]
  nonul := by decide
  short := by decide

/-- The buffer for this configuration. -/
theorem metaNvram_fills_double :
    ∃ json buffer, jsonParseText jsonNew doubleText.bytes 17 = some (retOk, json) ∧
      localMetaNvramNew (metaNvramSize json) = some buffer ∧
      ∃ list, jsonBuildNvramNodeList json = some (some list) ∧ list ≠ [] ∧
        FillsWithin buffer list := by
  have accepted : jsonParseText jsonNew doubleText.bytes 17 = some (retOk, handleOf
      (.object (.cons [0x61] (.string [0x31]) (.cons [0x61] (.string [0x3d]) .nil)))) := by decide
  exact ⟨_, _, accepted, rfl, metaNvram_fills (by decide) accepted (by decide) rfl⟩

end Ezcfg.Context

import Ezcfg.MetaNvram.FiniteMap

/-!
# The layout of the buffer along runs

What the buffer looks like after every set and unset, with values of any kind: the
counted bytes are terminated `name=value` strings of strictly increasing names and
one more terminator, or nothing was ever set. No call of such a run faults, so
every byte it writes lies in the data area.
-/

namespace Ezcfg.MetaNvram

open Foundation
open Foundation.ByteArea (pack)
open Foundation.SortedTable (keys Sorted rank valueOf)

/-- One set or unset call. -/
inductive Change where
  | set (name : Name) (value : CString)
  | unset (name : Name)
deriving DecidableEq

/-- Perform one change. -/
def Buffer.change (buffer : Buffer) : Change → Option (Int × Buffer)
  | .set name value => metaNvramSetEntry buffer name.val value
  | .unset name => metaNvramUnsetEntry buffer name.val

/-- The counted bytes are packed `name=value` strings of increasing names and a
terminator. -/
structure Packed (buffer : Buffer) (strings : List (List UInt8)) : Prop where
  content : buffer.data.take buffer.dataUsed.toNat = pack strings ++ [0]
  counted : buffer.dataUsed = ((strings.map fun s => s.length + 1).sum + 1 : Nat)
  named : ∀ s ∈ strings, (0 : UInt8) ∉ s ∧ equals ∈ s ∧ nameBytes s ≠ []
  increasing : (strings.map nameBytes).Pairwise fun first second => strcmp first second = .lt

/-- What every reachable buffer should look like, knowing whether a set has ever
succeeded. -/
def WellFormed (everSet : Bool) (buffer : Buffer) : Prop :=
  buffer.dataUsed ≤ buffer.dataSize ∧
    ((everSet = false ∧ buffer.dataUsed = 0) ∨ ∃ strings, Packed buffer strings)

/-- After every call the buffer has its size and its layout. -/
def KeepsLayout (start : Buffer) (changes : List Change) : Prop :=
  Follows Buffer.change
    (fun everSet buffer change ret after => after.dataSize = buffer.dataSize ∧
      WellFormed (everSet || recorded change ret) after)
    (fun everSet change ret => everSet || recorded change ret) false start changes
where
  /-- Whether a call is a set that succeeded. -/
  recorded : Change → Int → Bool
    | .set _ _, ret => ret = retOk
    | .unset _, _ => false

/-- The changes that keep the layout: a set whose lengths fit and that is not
misled, or has no room for a new entry; and every unset. -/
def layoutSafe (buffer : Buffer) : Change → Prop
  | .set name value => LengthsFit buffer name value ∧
      (MisledBy buffer.names name → buffer.dataSize < buffer.dataUsed + entrySize name value)
  | .unset _ => True

instance (buffer : Buffer) (change : Change) : Decidable (layoutSafe buffer change) :=
  match change with
  | .set name value => inferInstanceAs (Decidable (LengthsFit buffer name value ∧
      (MisledBy buffer.names name → buffer.dataSize < buffer.dataUsed + entrySize name value)))
  | .unset _ => inferInstanceAs (Decidable True)

/-- The buffer holds ordered entries, and its counter is zero until a set succeeds. -/
def Ordered (everSet : Bool) (buffer : Buffer) : Prop :=
  ∃ entries, Represents buffer entries ∧ Sorted entries ∧
    (buffer.dataUsed = 0 → everSet = false)

/-- Buffers of ordered entries have the layout. -/
theorem wellFormed_of_ordered {everSet : Bool} {buffer : Buffer}
    (ordered : Ordered everSet buffer) : WellFormed everSet buffer := by
  obtain ⟨entries, image, sorted, unused⟩ := ordered
  refine ⟨image.used_le, ?_⟩
  by_cases never : buffer.dataUsed = 0
  · exact .inl ⟨unused never, never⟩
  · have counted := image.used_eq never
    obtain ⟨junk, layout⟩ := image.layout
    refine .inr ⟨texts entries, ?_, ?_, ?_, ?_⟩
    · have used : buffer.dataUsed.toNat = (pack (texts entries) ++ [0]).length := by
        rw [counted, List.length_append, List.length_singleton, extent]
        omega
      have parts : buffer.data = pack (texts entries) ++ [0] ++ junk := by simp [layout]
      rw [used, parts, List.take_left]
    · rw [counted, extent, ByteArea.pack_length]
      push_cast
      rfl
    · intro s member
      obtain ⟨entry, -, rfl⟩ := List.mem_map.mp member
      refine ⟨text_nonul entry, by simp [Entry.text], ?_⟩
      rw [nameBytes_text]
      exact entry.1.property.1
    · have names : (texts entries).map nameBytes =
          (keys entries).map fun name => name.val.bytes := by
        rw [texts, keys, List.map_map, List.map_map]
        exact List.map_congr_left fun entry _ => nameBytes_text entry
      rw [names, List.pairwise_map]
      exact sorted

/-- A permitted set keeps the layout, whether it succeeds or not. -/
theorem set_ordered {everSet : Bool} {buffer : Buffer} (name : Name) (value : CString)
    (ordered : Ordered everSet buffer) (safe : layoutSafe buffer (.set name value)) :
    ∃ ret after, buffer.change (.set name value) = some (ret, after) ∧
      after.dataSize = buffer.dataSize ∧ Ordered (everSet || decide (ret = retOk)) after := by
  obtain ⟨entries, image, sorted, unused⟩ := ordered
  obtain ⟨lengths, misled⟩ := safe
  rw [image.misledBy_iff] at misled
  have outcome : (∃ after entries', metaNvramSetEntry buffer name.val value = some (retOk, after) ∧
        after.data.length = buffer.data.length ∧ Represents after entries' ∧
        Put entries name value entries') ∨
      metaNvramSetEntry buffer name.val value = some (retFail, buffer) := by
    by_cases first : buffer.dataUsed = 0
    · rcases image.set_first first name value lengths with ⟨-, stored⟩ | ⟨-, failed⟩
      · exact .inl stored
      · exact .inr failed
    · by_cases straight : Misled entries name
      · obtain ⟨i, -, missed⟩ := image.find_missed sorted fun _ => straight
        have large := misled straight
        rw [image.used_eq first, Buffer.dataSize] at large
        exact .inr (image.set_lost first missed value lengths.1 (by omega))
      · rcases image.set_straight sorted first straight value lengths.1 with
          ⟨-, stored⟩ | ⟨-, failed⟩
        · exact .inl stored
        · exact .inr failed
  rcases outcome with ⟨after, entries', done, same, result, put⟩ | failed
  · refine ⟨retOk, after, done, by rw [Buffer.dataSize, Buffer.dataSize, same], entries', result,
      put.sorted, ?_⟩
    intro never
    -- a buffer in which a name was just put is not empty
    rcases result.used with counted | ⟨-, empty, -⟩
    · omega
    · obtain ⟨pad, updated⟩ := put.stored
      have held := congrFun updated name
      rw [empty, Function.update_self] at held
      cases held
  · exact ⟨retFail, buffer, failed, rfl, entries, image, sorted, by simpa [retOk, retFail] using unused⟩

/-- Every unset keeps the layout: where the search hits, it hits the right entry. -/
theorem unset_ordered {everSet : Bool} {buffer : Buffer} (name : Name)
    (ordered : Ordered everSet buffer) :
    ∃ ret after, buffer.change (.unset name) = some (ret, after) ∧
      after.dataSize = buffer.dataSize ∧ Ordered everSet after := by
  have still := ordered
  obtain ⟨entries, image, sorted, unused⟩ := ordered
  by_cases found : name ∈ keys entries ∧ ¬ Misled entries name
  · obtain ⟨after, entries', done, same, counted, result, increasing, -⟩ :=
      image.unset_present sorted found.1 found.2
    exact ⟨retOk, after, done, by rw [Buffer.dataSize, Buffer.dataSize, same], entries', result,
      increasing, fun never => absurd never counted⟩
  · obtain ⟨i, -, missed⟩ := image.find_missed sorted fun present =>
      by_contra fun straight => found ⟨present, straight⟩
    exact ⟨1, buffer, unset_missed missed, rfl, still⟩

/-- A buffer of any accepted size keeps its layout along every run of permitted
changes. -/
theorem keepsLayout_of_safe (size : Int32) {start : Buffer}
    (created : localMetaNvramNew size = some start) (changes : List Change)
    (safe : Guarded Buffer.change layoutSafe start changes) : KeepsLayout start changes := by
  refine follows_of_guarded Ordered ?_ changes _ _
    ⟨[], new_represents created, .nil, fun _ => rfl⟩ safe
  intro everSet buffer change ordered permitted
  cases change with
  | set name value =>
    obtain ⟨ret, after, done, same, kept⟩ := set_ordered name value ordered permitted
    exact ⟨ret, after, done, ⟨same, wellFormed_of_ordered kept⟩, kept⟩
  | unset name =>
    obtain ⟨ret, after, done, same, kept⟩ := unset_ordered name ordered
    have kept : Ordered (everSet || false) after := by rwa [Bool.or_false]
    exact ⟨ret, after, done, ⟨same, wellFormed_of_ordered kept⟩, kept⟩

/-- A first entry that fills the data area is terminated outside it. -/
theorem not_keepsLayout : ∃ start, localMetaNvramNew 36 = some start ∧
    ¬ KeepsLayout start [.set nameA ⟨[], by decide, by decide⟩] := by
  refine ⟨.fresh 4, by decide, ?_⟩
  rintro ⟨ret, after, taken, -⟩
  have faults : (Buffer.fresh 4).change (.set nameA ⟨[], by decide, by decide⟩) = none := by
    decide +kernel
  rw [faults] at taken
  cases taken

theorem keepsLayout_short : KeepsLayout (.fresh 8)
    [.set nameA valueX.val, .set nameA0 valueX.val, .set nameA ⟨[61], by decide, by decide⟩,
      .unset nameA, .unset nameA] :=
  keepsLayout_of_safe 40 (by decide) _ (by decide +kernel)

end Ezcfg.MetaNvram

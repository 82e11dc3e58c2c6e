import Ezcfg.Firmware.Upgrade

/-!
# Where the parts of a firmware go

A part whose name is not found in the table is written to the device of an earlier part, since
the search for the path reports success all the same; without an earlier part the path is not
set at all. The length of a part is believed as it stands in the file. The upgrade keeps inside
the buffer and writes every part to the partition of its name exactly when each part that is
looked at has such a partition and lies in the buffer as far as it is read.
-/

namespace Ezcfg.Firmware

open Foundation

/-- So many bytes at a position are in the buffer. -/
def Inside (buf : List UInt8) (p count : Nat) : Prop := count = 0 ∨ p + count ≤ buf.length

instance (buf : List UInt8) (p count : Nat) : Decidable (Inside buf p count) :=
  inferInstanceAs (Decidable (_ ∨ _))

/-- The device with a number. -/
def deviceOf (table : List Partition) (device : Nat) : Option Partition :=
  table.find? fun entry => entry.index = device

/-- How many bytes of a part there are, when the header says the length. -/
def dataLength (len : Nat) : Nat := (len + 2 ^ 32 - partSize) % 2 ^ 32

/-- The device that is found for a part has the name of the part, and what is read of the
part to fill it is in the buffer. -/
def PartFits (table : List Partition) (buf : List UInt8) (p len : Nat) : Prop :=
  match searchTable buf p table with
  | some (some entry) =>
    match deviceOf table entry.index with
    | some device => ByteArea.stringAt buf (p + 4) = some device.name.bytes ∧
        Inside buf (p + partSize) (min (dataLength len) (device.blocks * device.eraseSize))
    | none => False
  | _ => False

instance (table : List Partition) (buf : List UInt8) (p len : Nat) :
    Decidable (PartFits table buf p len) := by
  unfold PartFits
  split
  · split <;> infer_instance
  · infer_instance

/-- So many parts from a position on fit. -/
def PartsFit (table : List Partition) (buf : List UInt8) : Nat → Nat → Prop
  | 0, _ => True
  | turns + 1, p =>
    match ByteArea.readU32 buf p with
    | some len => PartFits table buf p len ∧ PartsFit table buf turns (p + len)
    | none => False

/-- The parts of a firmware fit. -/
def FirmwareFits (table : List Partition) (buf : List UInt8) : Prop :=
  match ByteArea.readU32 buf 12, ByteArea.readU32 buf 16 with
  | some modelLen, some numParts =>
    PartsFit table buf (toInt32 numParts).toNat (headerSize + modelLen)
  | _, _ => False

/-- Every part went to a partition with its name, and no other device was changed. -/
def Proper (buf : List UInt8) (flash : Flash) (written : List Written) (after : Flash) : Prop :=
  (∀ item ∈ written, ByteArea.stringAt buf (item.part + 4) = some item.partition.name.bytes) ∧
    ∀ device, (∀ item ∈ written, item.partition.index ≠ device) → after device = flash device

/-- The search depends on the name of the part alone. -/
theorem searchTable_congr {buf : List UInt8} {p q : Nat} (table : List Partition)
    (same : ByteArea.stringAt buf (p + 4) = ByteArea.stringAt buf (q + 4)) :
    searchTable buf p table = searchTable buf q table := by
  induction table with
  | nil => rfl
  | cons entry rest inductionHypothesis =>
    rw [searchTable, searchTable, same, inductionHypothesis]

/-- What the search finds is in the table. -/
theorem searchTable_mem {buf : List UInt8} {p : Nat} {table : List Partition} {entry : Partition}
    (found : searchTable buf p table = some (some entry)) : entry ∈ table := by
  induction table with
  | nil => cases found
  | cons first rest inductionHypothesis =>
    rw [searchTable] at found
    obtain ⟨_, -, found⟩ := Option.bind_eq_some_iff.mp found
    obtain ⟨name, -, found⟩ := Option.bind_eq_some_iff.mp found
    obtain ⟨_, -, found⟩ := Option.bind_eq_some_iff.mp found
    split at found
    · obtain rfl := Option.some.inj (Option.some.inj found)
      exact List.mem_cons_self
    · exact List.mem_cons_of_mem first (inductionHypothesis found)

/-- An entry of the table has a device. -/
theorem deviceOf_of_mem {table : List Partition} {entry : Partition} (member : entry ∈ table) :
    ∃ device, deviceOf table entry.index = some device ∧ device.index = entry.index := by
  cases found : deviceOf table entry.index with
  | none =>
    have other := List.find?_eq_none.mp found entry member
    simp at other
  | some device =>
    have same := List.find?_some found
    exact ⟨device, rfl, by simpa using same⟩

section Blocks

variable {buf : List UInt8} {pos device eraseSize : Nat}

/-- The bytes of the blocks are the bytes of the first block and of the others. -/
theorem inside_split (turns block len : Nat) :
    Inside buf (pos + block * eraseSize) (min len ((turns + 1) * eraseSize)) ↔
      Inside buf (pos + block * eraseSize) (min len eraseSize) ∧
        Inside buf (pos + (block + 1) * eraseSize)
          (min (len - min len eraseSize) (turns * eraseSize)) := by
  rw [Inside, Inside, Inside, Nat.succ_mul, Nat.succ_mul]
  omega

/-- Reading inside the buffer has a result. -/
theorem readInside_iff {p count : Nat} :
    Inside buf p count ↔ ∃ bytes, readInside buf p count = some bytes := by
  rw [Inside, readInside]
  split_ifs with none
  · simp [none]
  · rw [ByteArea.readAt]
    split_ifs with inside <;> simp [none, inside]

/-- What is written to a block is at most the block. -/
theorem count_eq_min (len eraseSize : Nat) :
    (if len > eraseSize then eraseSize else len) = min len eraseSize := by
  split <;> omega

/-- Setting a block leaves the other devices as they are. -/
theorem set_other (flash : Flash) (block : Nat) (bytes : List UInt8) {other : Nat}
    (different : other ≠ device) : flash.set device block bytes other = flash other :=
  Function.update_of_ne different _ _

/-- The blocks of a device are filled from inside the buffer, whatever becomes of the calls,
and no other device is changed. -/
theorem writeBlocks_spec (outcome : Outcome) (turns block len : Nat) (flash : Flash)
    (inside : Inside buf (pos + block * eraseSize) (min len (turns * eraseSize))) :
    ∃ rc after, writeBlocks outcome buf pos device eraseSize turns block len flash =
      some (rc, after) ∧ ∀ other, other ≠ device → after other = flash other := by
  induction turns generalizing block len flash with
  | zero => exact ⟨0, flash, rfl, fun _ _ => rfl⟩
  | succ turns inductionHypothesis =>
    obtain ⟨here, later⟩ := (inside_split turns block len).mp inside
    obtain ⟨bytes, read⟩ := readInside_iff.mp here
    rw [writeBlocks]
    simp only [count_eq_min]
    split_ifs with erased written
    · rw [bind_of_some read]
      obtain ⟨rc, after, filled, frame⟩ := inductionHypothesis (block + 1) _ _ later
      refine ⟨rc, after, filled, fun other different => ?_⟩
      rw [frame other different, set_other _ _ _ different, set_other _ _ _ different]
    · rw [bind_of_some read]
      exact ⟨_, _, rfl, fun other different => set_other _ _ _ different⟩
    · exact ⟨_, _, rfl, fun _ _ => rfl⟩

/-- A device whose blocks can be filled is filled from inside the buffer. -/
theorem inside_of_writeBlocks (turns block len : Nat) (flash : Flash) {answer : Int × Flash}
    (filled : writeBlocks {} buf pos device eraseSize turns block len flash = some answer) :
    Inside buf (pos + block * eraseSize) (min len (turns * eraseSize)) := by
  induction turns generalizing block len flash with
  | zero =>
    left
    omega
  | succ turns inductionHypothesis =>
    rw [writeBlocks] at filled
    simp only [count_eq_min, if_true] at filled
    obtain ⟨bytes, read, filled⟩ := Option.bind_eq_some_iff.mp filled
    exact (inside_split turns block len).mpr
      ⟨readInside_iff.mpr ⟨bytes, read⟩, inductionHypothesis _ _ _ filled⟩

end Blocks

section Parts

variable {table : List Partition} {buf : List UInt8}

/-- A part that lies in the buffer is written to its device, whatever becomes of the calls. -/
theorem writePart_spec (outcome : Outcome) {p number len : Nat} {device : Partition} (flash : Flash)
    (found : deviceOf table number = some device)
    (inside : Inside buf (p + partSize) (min len (device.blocks * device.eraseSize))) :
    ∃ rc written after, writePart outcome table buf p number len flash =
      some (rc, written, after) ∧ (∀ item ∈ written, item = ⟨p, device⟩) ∧
      (after = flash ∨ written = [⟨p, device⟩]) ∧
      ∀ other, other ≠ number → after other = flash other := by
  rw [writePart]
  have found' : (table.find? fun entry => entry.index = number) = some device := found
  rw [found']
  dsimp only
  split_ifs with opens info
  · have start : Inside buf (p + partSize + 0 * device.eraseSize)
        (min len (device.blocks * device.eraseSize)) := by
      rw [Nat.zero_mul]
      exact inside
    obtain ⟨rc, after, filled, frame⟩ := writeBlocks_spec outcome _ _ _ flash start
    refine ⟨rc, [⟨p, device⟩], after, bind_of_some filled, ?_, .inr rfl, frame⟩
    simp
  all_goals exact ⟨_, [], flash, rfl, by simp, .inl rfl, fun _ _ => rfl⟩

/-- A part fits when it has a device of its name and lies in the buffer. -/
theorem partFits_iff {p len : Nat} : PartFits table buf p len ↔
    ∃ entry device, searchTable buf p table = some (some entry) ∧
      deviceOf table entry.index = some device ∧
      ByteArea.stringAt buf (p + 4) = some device.name.bytes ∧
      Inside buf (p + partSize) (min (dataLength len) (device.blocks * device.eraseSize)) := by
  rw [PartFits]
  split
  · rename_i entry searched
    split
    · rename_i device found
      constructor
      · intro fits
        exact ⟨entry, device, searched, found, fits⟩
      · rintro ⟨entry', device', same, found', fits⟩
        obtain rfl := Option.some.inj (Option.some.inj (searched.symm.trans same))
        obtain rfl := Option.some.inj (found.symm.trans found')
        exact fits
    · rename_i missing
      constructor
      · exact False.elim
      · rintro ⟨entry', device', same, found', -⟩
        obtain rfl := Option.some.inj (Option.some.inj (searched.symm.trans same))
        rw [missing] at found'
        cases found'
  · rename_i other
    constructor
    · exact False.elim
    · rintro ⟨entry, -, searched, -⟩
      exact other entry searched

/-- What two stretches of a run wrote is proper when each of them is. -/
theorem Proper.append {flash between after : Flash} {here later : List Written}
    (first : Proper buf flash here between) (second : Proper buf between later after) :
    Proper buf flash (here ++ later) after where
  left item member := by
    obtain member | member := List.mem_append.mp member
    · exact first.1 item member
    · exact second.1 item member
  right device absent := by
    rw [second.2 device fun item member => absent item (List.mem_append_right _ member),
      first.2 device fun item member => absent item (List.mem_append_left _ member)]

/-- Parts that fit go to their partitions, whatever becomes of the calls. The induction is on
the parts that are left; where the path comes from does not matter, since it is set anew. -/
theorem writeParts_of_fit (turn : Nat → Outcome) {turns p : Nat} (fits : PartsFit table buf turns p)
    (path : Option Nat) (rc : Int) (flash : Flash) :
    ∃ rc' written after, writeParts turn table buf turns p path rc flash =
      some (rc', written, after) ∧ Proper buf flash written after := by
  induction turns generalizing p path rc flash with
  | zero => exact ⟨rc, [], flash, rfl, by simp, fun _ _ => rfl⟩
  | succ turns inductionHypothesis =>
    rw [PartsFit] at fits
    cases header : ByteArea.readU32 buf p with
    | none =>
      rw [header] at fits
      exact fits.elim
    | some len =>
      rw [header] at fits
      obtain ⟨entry, device, searched, found, named, inside⟩ := partFits_iff.mp fits.1
      rw [writeParts, getPartDevicePath]
      split_ifs with opened
      · rw [searched, header]
        obtain ⟨rc₁, here, between, wrote, items, changed, frame⟩ :=
          writePart_spec (turn turns) flash found inside
        obtain ⟨rc₂, later, after, others, rest⟩ :=
          inductionHypothesis fits.2 (some entry.index) rc₁ between
        refine ⟨rc₂, here ++ later, after, ?_, Proper.append ⟨?_, ?_⟩ rest⟩
        · show (writePart _ table buf p entry.index (dataLength len) flash >>= _) = _
          rw [bind_of_some wrote]
          show (writeParts turn table buf turns (p + len) (some entry.index) rc₁ between >>= _) = _
          rw [bind_of_some others]
          rfl
        · intro item member
          rw [items item member]
          exact named
        · intro other absent
          obtain same | all := changed
          · rw [same]
          · have number := (List.find?_some found)
            rw [all] at absent
            refine frame other fun same => absent _ List.mem_cons_self ?_
            rw [same]
            simpa using number
      · rw [header]
        exact inductionHypothesis fits.2 path _ flash

/-- The path is that of the device of some part in the buffer. -/
def Known (table : List Partition) (buf : List UInt8) (path : Option Nat) : Prop :=
  ∀ number, path = some number → ∃ q entry device, searchTable buf q table = some (some entry) ∧
    deviceOf table number = some device ∧
    ByteArea.stringAt buf (q + 4) = some device.name.bytes

/-- When all calls succeed, a part that is written to a device is recorded with it, and is read
inside the buffer. -/
theorem writePart_inv {p number len : Nat} {device : Partition} {flash : Flash}
    {answer : Int × List Written × Flash} (found : deviceOf table number = some device)
    (wrote : writePart {} table buf p number len flash = some answer) :
    answer.2.1 = [⟨p, device⟩] ∧
      Inside buf (p + partSize) (min len (device.blocks * device.eraseSize)) := by
  have found' : (table.find? fun entry => entry.index = number) = some device := found
  rw [writePart, found'] at wrote
  obtain ⟨⟨rc, after⟩, filled, same⟩ := Option.bind_eq_some_iff.mp wrote
  have inside := inside_of_writeBlocks _ _ _ _ filled
  rw [Nat.zero_mul, Nat.add_zero] at inside
  rw [← Option.some.inj same]
  exact ⟨rfl, inside⟩

/-- When the parts are written to their partitions from inside the buffer, they fit. The
induction is on the parts that are left; a path that is kept is that of an earlier part with
the same name, so the search would have found it. -/
theorem fit_of_writeParts {turns p : Nat} {path : Option Nat} {rc : Int} {flash : Flash}
    {answer : Int × List Written × Flash} (known : Known table buf path)
    (done : writeParts (fun _ => {}) table buf turns p path rc flash = some answer)
    (named : ∀ item ∈ answer.2.1,
      ByteArea.stringAt buf (item.part + 4) = some item.partition.name.bytes) :
    PartsFit table buf turns p := by
  induction turns generalizing p path rc flash answer with
  | zero => trivial
  | succ turns inductionHypothesis =>
    rw [writeParts] at done
    obtain ⟨⟨rc₁, path₁⟩, looked, done⟩ := Option.bind_eq_some_iff.mp done
    obtain ⟨len, header, done⟩ := Option.bind_eq_some_iff.mp done
    obtain ⟨search, searched, looked⟩ := Option.bind_eq_some_iff.mp looked
    have success : rc₁ = 0 := by
      cases search <;> exact (Prod.mk.inj (Option.some.inj looked)).1.symm
    subst success
    obtain ⟨number, set, done⟩ := Option.bind_eq_some_iff.mp done
    obtain ⟨⟨rc₂, here, between⟩, wrote, done⟩ := Option.bind_eq_some_iff.mp done
    obtain ⟨⟨rc₃, later, after⟩, others, same⟩ := Option.bind_eq_some_iff.mp done
    obtain rfl := Option.some.inj same
    -- A path that the search did not set is known, and leads to what the search would find.
    have located : ∃ device, deviceOf table number = some device ∧
        (ByteArea.stringAt buf (p + 4) = some device.name.bytes →
          ∃ entry, searchTable buf p table = some (some entry) ∧ entry.index = number) := by
      cases search with
      | some entry =>
        obtain rfl : some entry.index = path₁ := (Prod.mk.inj (Option.some.inj looked)).2
        obtain ⟨device, found, -⟩ := deviceOf_of_mem (searchTable_mem searched)
        obtain rfl := Option.some.inj set
        exact ⟨device, found, fun _ => ⟨entry, searched, rfl⟩⟩
      | none =>
        obtain rfl : path = path₁ := (Prod.mk.inj (Option.some.inj looked)).2
        obtain ⟨q, entry, device, earlier, found, stands⟩ := known number set
        refine ⟨device, found, fun here => ?_⟩
        rw [searchTable_congr table (stands.trans here.symm), searched] at earlier
        cases earlier
    obtain ⟨device, found, finds⟩ := located
    obtain ⟨items, inside⟩ := writePart_inv found wrote
    have name : ByteArea.stringAt buf (p + 4) = some device.name.bytes := by
      refine named ⟨p, device⟩ (List.mem_append_left _ ?_)
      rw [show here = [⟨p, device⟩] from items]
      exact List.mem_cons_self
    obtain ⟨entry, searched, rfl⟩ := finds name
    have next : Known table buf path₁ := by
      intro other reached
      obtain rfl := Option.some.inj (set.symm.trans reached)
      exact ⟨p, entry, device, searched, found, name⟩
    rw [PartsFit, header]
    exact ⟨partFits_iff.mpr ⟨entry, device, searched, found, name, inside⟩,
      inductionHypothesis next others fun item member => named item (List.mem_append_right _ member)⟩

end Parts

/-- For a firmware that passes the checks, the upgrade reads inside the buffer and writes each
part to the partition of its name alone, whatever becomes of the calls, exactly when the parts
fit. -/
theorem upgrade_proper_iff {environment : Environment} {file : Option (List UInt8)}
    {model : CString} {buf : List UInt8}
    (passes : readFirmware environment file model = some (.ok buf)) (table : List Partition)
    (flash : Flash) :
    (∀ turn, ∃ rc written after,
      firmwareUpgrade { environment with turn } table file model flash =
        some (rc, written, after) ∧ Proper buf flash written after) ↔ FirmwareFits table buf := by
  have run (turn : Nat → Outcome) :
      firmwareUpgrade { environment with turn } table file model flash = (do
        let modelLen ← ByteArea.readU32 buf 12
        let numParts ← ByteArea.readU32 buf 16
        writeParts turn table buf (toInt32 numParts).toNat (headerSize + modelLen) none 0 flash) := by
    have passes' : readFirmware { environment with turn } file model = some (.ok buf) := passes
    rw [firmwareUpgrade, bind_of_some passes']
  rw [FirmwareFits]
  cases first : ByteArea.readU32 buf 12 with
  | none =>
    constructor
    · intro proper
      obtain ⟨_, _, _, done, -⟩ := proper fun _ => {}
      rw [run, first] at done
      cases done
    · exact False.elim
  | some modelLen =>
    cases second : ByteArea.readU32 buf 16 with
    | none =>
      constructor
      · intro proper
        obtain ⟨_, _, _, done, -⟩ := proper fun _ => {}
        rw [run, first, second] at done
        cases done
      · exact False.elim
    | some numParts =>
      dsimp only
      simp only [run, bind_of_some first, bind_of_some second]
      generalize (toInt32 numParts).toNat = turns
      constructor
      · intro proper
        obtain ⟨rc, written, after, done, named, -⟩ := proper fun _ => {}
        exact fit_of_writeParts (fun _ unset => by cases unset) done named
      · intro fits turn
        exact writeParts_of_fit turn fits none 0 flash

/-- The model "m". -/
def modelM : CString := .single 0x6d (by decide)

/-- A partition "y" with one block of two bytes. -/
def partitionY : Partition := ⟨3, .single 0x79 (by decide), 2, 1, by decide⟩

/-- A firmware for the model "m" with a part "y". -/
def firmwareY : List UInt8 := [
  0x45, 0x5a, 0x46, 0x57, 0x2a, 0x00, 0x00, 0x00, 0x1f, 0xf4, 0xa0, 0xdf, 0x01, 0x00, 0x00, 0x00,
  0x01, 0x00, 0x00, 0x00, 0x6d, 0x15, 0x00, 0x00, 0x00, 0x79, 0x00, 0x00, 0x00, 0x00, 0x00, 0x00,
  0x00, 0x00, 0x00, 0x00, 0x00, 0x00, 0x00, 0x00, 0x00, 0x01]

/-- The upgrade with this firmware is proper because its part fits. -/
theorem upgrade_proper_iff_y :
    (∀ turn, ∃ rc written after,
      firmwareUpgrade { turn } [partitionY] (some firmwareY) modelM (fun _ _ => []) =
        some (rc, written, after) ∧ Proper firmwareY (fun _ _ => []) written after) ↔
      FirmwareFits [partitionY] firmwareY :=
  upgrade_proper_iff (show readFirmware {} (some firmwareY) modelM = some (.ok firmwareY) by
    decide +kernel) [partitionY] fun _ _ => []

/-- A firmware for the model "m" with the parts "y" and "x". -/
def firmwareYX : List UInt8 := [
  0x45, 0x5a, 0x46, 0x57, 0x3f, 0x00, 0x00, 0x00, 0x76, 0x00, 0x62, 0xcd, 0x01, 0x00, 0x00, 0x00,
  0x02, 0x00, 0x00, 0x00, 0x6d, 0x15, 0x00, 0x00, 0x00, 0x79, 0x00, 0x00, 0x00, 0x00, 0x00, 0x00,
  0x00, 0x00, 0x00, 0x00, 0x00, 0x00, 0x00, 0x00, 0x00, 0x01, 0x15, 0x00, 0x00, 0x00, 0x78, 0x00,
  0x00, 0x00, 0x00, 0x00, 0x00, 0x00, 0x00, 0x00, 0x00, 0x00, 0x00, 0x00, 0x00, 0x00, 0x02]

/-- The part "x", for which there is no partition, goes to the partition "y". -/
theorem not_upgrade_proper :
    readFirmware {} (some firmwareYX) modelM = some (.ok firmwareYX) ∧
      ¬ ∃ rc written after,
        firmwareUpgrade {} [partitionY] (some firmwareYX) modelM (fun _ _ => []) =
          some (rc, written, after) ∧ Proper firmwareYX (fun _ _ => []) written after := by
  refine ⟨by decide +kernel, ?_⟩
  rintro ⟨rc, written, after, done, named, -⟩
  have run : (firmwareUpgrade {} [partitionY] (some firmwareYX) modelM (fun _ _ => [])).map
      (fun answer => answer.2.1) = some [⟨21, partitionY⟩, ⟨42, partitionY⟩] := by
    decide +kernel
  rw [done] at run
  obtain rfl := Option.some.inj run
  have wrong := named ⟨42, partitionY⟩ (by simp)
  revert wrong
  decide +kernel

end Ezcfg.Firmware

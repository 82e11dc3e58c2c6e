import Ezcfg.Firmware.Upgrade

/-!
# Writing a firmware file to a device

A firmware without a model is copied to a device of the flash, one erase block after the other:
a block of the file is read into a buffer of one block, the block of the device is erased, and the
bytes are written. The place in the buffer from which they are written is that of the erase block
on the device, so it is right for the first block only. A second block is written from behind the
buffer.

A device is an array of erase blocks. What the system does is said for each call; reading the file
gives full blocks except at its end. Erasing and writing are told by the start of the block, and
a write takes as many bytes as are told, none where it fails.
-/

namespace Ezcfg.Firmware

open Foundation

/-- `EZCFG_E_SPACE` -/
def errSpace : Int := 106

/-- A device of the flash: erase blocks of one size, and their bytes. -/
structure Device where
  eraseSize : Nat
  blocks : Nat
  contents : List UInt8
  whole : contents.length = blocks * eraseSize

/-- The size of a device. -/
def Device.size (device : Device) : Nat := device.blocks * device.eraseSize

/-- What becomes of the calls of the system. -/
structure Calls where
  opensFile : Bool := true
  opensDevice : Bool := true
  info : Bool := true
  malloc : Bool := true
  erases : Nat → Bool := fun _ => true
  writes : Nat → Nat

/-- How far the copying has come: what is not read of the file yet, `erase_info.start`, the place
at which the device is written next, and the bytes of the device. -/
structure Progress where
  unread : List UInt8
  start : Nat
  position : Nat
  contents : List UInt8

/-- The part of a turn behind reading a block that is not empty. A failure is told with the bytes
of the device. -/
def writeBlock (calls : Calls) (eraseSize : Nat) (buf : List UInt8) (count : Nat)
    (state : Progress) : Option (Except (List UInt8) Progress) :=
  if calls.erases state.start ∧ state.start + eraseSize ≤ state.contents.length then do
    let erased ← ByteArea.write state.contents state.start (List.replicate eraseSize 0xff)
    let bytes ← ByteArea.readAt buf state.start count
    let taken := bytes.take (calls.writes state.start)
    let contents ← ByteArea.write erased state.position taken
    if taken.length = count then
      return .ok ⟨state.unread, state.start + eraseSize, state.position + count, contents⟩
    else return .error contents
  else some (.error state.contents)

/-- The loop of `write_firmware`, with the turns that are left: the code, and the bytes of the
device. -/
def copyBlocks (calls : Calls) (eraseSize size : Nat) :
    Nat → Progress → Option (Int × List UInt8)
  | 0, _ => none
  | turns + 1, state => do
    let block := state.unread.take eraseSize
    let count := block.length
    let buf := block ++ List.replicate (eraseSize - count) 0
    let state := { state with unread := state.unread.drop eraseSize }
    let turn ← if count > 0 then writeBlock calls eraseSize buf count state else some (.ok state)
    match turn with
    | .error contents => return (-errResource, contents)
    | .ok state =>
      if count = eraseSize ∧ state.start < size then copyBlocks calls eraseSize size turns state
      else return (0, state.contents)

/-- `write_firmware`. A turn is made for each block of the device at most, and one more. -/
def writeFirmware (calls : Calls) (device : Device) (file : List UInt8) :
    Option (Int × List UInt8) :=
  if !calls.opensFile then some (-errResource, device.contents)
  else if !calls.opensDevice then some (-errResource, device.contents)
  else if !calls.info then some (-errResource, device.contents)
  else if !calls.malloc then some (-errSpace, device.contents)
  else copyBlocks calls device.eraseSize device.size (device.blocks + 1)
    ⟨file, 0, 0, device.contents⟩

/-- The device holds the file, as far as it reaches, and the erase blocks behind the file are as
they were. -/
def Holds (device : Device) (file after : List UInt8) : Prop :=
  after.length = device.size ∧ file.take device.size <+: after ∧
    ∀ block, file.length ≤ block * device.eraseSize →
      after.drop (block * device.eraseSize) = device.contents.drop (block * device.eraseSize)

/-- The copying stays inside its buffer, and when it reports success, the device holds the
file. -/
def Copies (calls : Calls) (device : Device) (file : List UInt8) : Prop :=
  ∃ rc after, writeFirmware calls device file = some (rc, after) ∧
    (rc = 0 → Holds device file after)

/-- A second block of the file is written: there is one, the device has room for it, and
no call fails before. -/
structure WritesSecond (calls : Calls) (device : Device) (file : List UInt8) : Prop where
  opensFile : calls.opensFile
  opensDevice : calls.opensDevice
  info : calls.info
  malloc : calls.malloc
  nonempty : 0 < device.eraseSize
  long : device.eraseSize < file.length
  room : 1 < device.blocks
  erasesFirst : calls.erases 0
  writesFirst : device.eraseSize ≤ calls.writes 0
  erasesSecond : calls.erases device.eraseSize

section Turns

variable {calls : Calls} {eraseSize : Nat} {block contents unread : List UInt8}

/-- The bytes of the device when its first block has been erased and bytes have been written to
its front. -/
def withFirst (eraseSize : Nat) (block contents : List UInt8) : List UInt8 :=
  block ++ List.replicate (eraseSize - block.length) 0xff ++ contents.drop eraseSize

/-- The device keeps its length. -/
theorem withFirst_length (fits : block.length ≤ eraseSize) (room : eraseSize ≤ contents.length) :
    (withFirst eraseSize block contents).length = contents.length := by
  simp only [withFirst, List.length_append, List.length_replicate, List.length_drop]
  omega

/-- The first block is erased and written from the front of the buffer. -/
theorem first_written (fits : block.length ≤ eraseSize) (room : eraseSize ≤ contents.length) :
    ∃ erased, ByteArea.write contents 0 (List.replicate eraseSize 0xff) = some erased ∧
      ByteArea.write erased 0 block = some (withFirst eraseSize block contents) := by
  refine ⟨List.replicate eraseSize 0xff ++ contents.drop eraseSize, ?_, ?_⟩
  · have inside : 0 + (List.replicate eraseSize (0xff : UInt8)).length ≤ contents.length := by
      rw [List.length_replicate, Nat.zero_add]
      exact room
    rw [ByteArea.write, if_pos inside, List.length_replicate, Nat.zero_add, List.take_zero,
      List.nil_append]
  · have cut : List.replicate eraseSize (0xff : UInt8) =
        List.replicate block.length 0xff ++ List.replicate (eraseSize - block.length) 0xff := by
      rw [← List.replicate_add, Nat.add_sub_cancel' fits]
    rw [cut, List.append_assoc]
    have written := ByteArea.write_between [] (List.replicate block.length (0xff : UInt8)) block
      (List.replicate (eraseSize - block.length) 0xff ++ contents.drop eraseSize)
      List.length_replicate
    rw [withFirst, List.append_assoc]
    exact written

/-- The first turn fails, or it leaves the block at the front of the device. -/
theorem writeBlock_first (calls : Calls) (unread contents : List UInt8)
    (fits : block.length ≤ eraseSize) (tail : List UInt8) :
    (∃ after, writeBlock calls eraseSize (block ++ tail) block.length ⟨unread, 0, 0, contents⟩ =
      some (.error after)) ∧
        ¬ (calls.erases 0 ∧ eraseSize ≤ contents.length ∧ block.length ≤ calls.writes 0) ∨
    writeBlock calls eraseSize (block ++ tail) block.length ⟨unread, 0, 0, contents⟩ =
      some (.ok ⟨unread, eraseSize, block.length, withFirst eraseSize block contents⟩) ∧
        calls.erases 0 ∧ eraseSize ≤ contents.length ∧ block.length ≤ calls.writes 0 := by
  rw [writeBlock]
  dsimp only
  rw [Nat.zero_add]
  by_cases erased : calls.erases 0 = true ∧ eraseSize ≤ contents.length
  · rw [if_pos erased]
    obtain ⟨blank, erasing, writing⟩ := first_written fits erased.2
    have read : ByteArea.readAt (block ++ tail) 0 block.length = some block :=
      ByteArea.readAt_between [] block tail
    rw [bind_of_some erasing, bind_of_some read]
    by_cases complete : block.length ≤ calls.writes 0
    · right
      have all : block.take (calls.writes 0) = block := List.take_of_length_le complete
      rw [all, bind_of_some writing, if_pos rfl, Nat.zero_add]
      exact ⟨rfl, erased.1, erased.2, complete⟩
    · left
      have short : ¬ (block.take (calls.writes 0)).length = block.length := by
        rw [List.length_take]
        omega
      have inside : (block.take (calls.writes 0)).length ≤ eraseSize := by
        rw [List.length_take]
        omega
      obtain ⟨blank', erasing', writing'⟩ := first_written inside erased.2
      obtain rfl := Option.some.inj (erasing.symm.trans erasing')
      rw [bind_of_some writing', if_neg short]
      constructor
      · exact ⟨_, rfl⟩
      · intro success
        exact complete success.2.2
  · left
    rw [if_neg erased]
    constructor
    · exact ⟨_, rfl⟩
    · intro success
      exact erased ⟨success.1, success.2.1⟩

/-- A later turn that comes to the write reads behind the buffer. -/
theorem writeBlock_later {state : Progress} {buf : List UInt8} {count : Nat}
    (positive : 0 < count) (sized : buf.length = eraseSize) (later : eraseSize ≤ state.start)
    (erases : calls.erases state.start)
    (room : state.start + eraseSize ≤ state.contents.length) :
    writeBlock calls eraseSize buf count state = none := by
  rw [writeBlock, if_pos ⟨erases, room⟩]
  have outside : ¬ state.start + count ≤ buf.length := by omega
  have read : ByteArea.readAt buf state.start count = none := by
    rw [ByteArea.readAt, if_neg outside]
  rw [read]
  cases ByteArea.write state.contents state.start (List.replicate eraseSize 0xff) <;> rfl

/-- A later turn fails when its block is not erased. -/
theorem writeBlock_refused {state : Progress} {buf : List UInt8} {count : Nat}
    (refused : ¬ calls.erases state.start) :
    writeBlock calls eraseSize buf count state = some (.error state.contents) := by
  rw [writeBlock, if_neg]
  intro erased
  exact refused erased.1

end Turns

/-- The file is on the device when it ends in the first block, or when there is no second one. -/
theorem holds_first {device : Device} {file : List UInt8} (nonempty : 0 < file.length)
    (room : device.eraseSize ≤ device.contents.length)
    (short : file.length ≤ device.eraseSize ∨ device.size ≤ device.eraseSize) :
    Holds device file
      (withFirst device.eraseSize (file.take device.eraseSize) device.contents) := by
  have inside : (file.take device.eraseSize).length ≤ device.eraseSize := List.length_take_le _ _
  have size : device.contents.length = device.size := device.whole
  refine ⟨?_, ?_, ?_⟩
  · rw [withFirst_length inside room]
    exact size
  · rw [withFirst, List.append_assoc]
    have same : file.take device.size = file.take device.eraseSize := by
      obtain ends | single := short
      · rw [List.take_of_length_le ends, List.take_of_length_le (by omega)]
      · congr 1
        omega
    rw [same]
    exact List.prefix_append _ _
  · intro block behind
    have later : device.eraseSize ≤ block * device.eraseSize := by
      obtain _ | block := block
      · omega
      · exact Nat.le_mul_of_pos_left _ (Nat.succ_pos block)
    have front : (file.take device.eraseSize ++
        List.replicate (device.eraseSize - (file.take device.eraseSize).length) 0xff).length =
          device.eraseSize := by
      rw [List.length_append, List.length_replicate]
      omega
    rw [withFirst, List.drop_append, front, List.drop_drop, List.drop_of_length_le (by omega),
      List.nil_append, Nat.add_sub_cancel' later]

/-- Where no byte is read, nothing is changed. -/
theorem holds_unchanged {device : Device} {file : List UInt8}
    (nothing : file.take device.eraseSize = []) : Holds device file device.contents := by
  refine ⟨device.whole, ?_, fun _ _ => rfl⟩
  have empty : file.take device.size = [] := by
    obtain none | none := List.take_eq_nil_iff.mp nothing
    · rw [Device.size, none, Nat.mul_zero, List.take_zero]
    · rw [none, List.take_nil]
  rw [empty]
  exact List.nil_prefix

section Loop

variable {calls : Calls} {eraseSize size turns : Nat} {state : Progress}

/-- A turn without a byte of the file ends the loop. -/
theorem copyBlocks_ended (ended : state.unread.take eraseSize = [])
    (last : ¬ (0 = eraseSize ∧ state.start < size)) :
    copyBlocks calls eraseSize size (turns + 1) state = some (0, state.contents) := by
  rw [copyBlocks]
  dsimp only
  rw [ended, List.length_nil, if_neg (Nat.lt_irrefl 0), bind_of_some rfl]
  dsimp only
  rw [if_neg last]
  rfl

/-- A turn with bytes of the file is that of the block. -/
theorem copyBlocks_turn (positive : 0 < (state.unread.take eraseSize).length) :
    copyBlocks calls eraseSize size (turns + 1) state = (do
      match ← writeBlock calls eraseSize (state.unread.take eraseSize ++
          List.replicate (eraseSize - (state.unread.take eraseSize).length) 0)
          (state.unread.take eraseSize).length
          ⟨state.unread.drop eraseSize, state.start, state.position, state.contents⟩ with
      | .error contents => return (-errResource, contents)
      | .ok state' =>
        if (state.unread.take eraseSize).length = eraseSize ∧ state'.start < size then
          copyBlocks calls eraseSize size turns state'
        else return (0, state'.contents)) := by
  rw [copyBlocks]
  dsimp only
  rw [if_pos positive]

/-- Behind the first block the loop ends when the file does, it fails when the block is not
erased, and else it leaves the buffer. -/
theorem copyBlocks_second (nonempty : 0 < eraseSize) (start : state.start = eraseSize)
    (room : eraseSize + eraseSize ≤ state.contents.length) :
    copyBlocks calls eraseSize size (turns + 1) state =
      if state.unread = [] then some (0, state.contents)
      else if calls.erases eraseSize then none else some (-errResource, state.contents) := by
  by_cases ended : state.unread = []
  · rw [if_pos ended]
    apply copyBlocks_ended
    · rw [ended, List.take_nil]
    · omega
  · rw [if_neg ended]
    have positive : 0 < (state.unread.take eraseSize).length := by
      have unread := List.length_pos_iff.mpr ended
      rw [List.length_take]
      omega
    rw [copyBlocks_turn positive]
    by_cases erased : calls.erases eraseSize = true
    · rw [if_pos erased, writeBlock_later positive]
      · rfl
      · rw [List.length_append, List.length_replicate, Nat.add_sub_cancel' (List.length_take_le _ _)]
      · exact Nat.le_of_eq start.symm
      · rw [start]
        exact erased
      · rw [start]
        exact room
    · rw [if_neg erased, writeBlock_refused]
      · rfl
      · rw [start]
        exact erased

end Loop

/-- The loop copies the file if and only if it does not come to write a second block. -/
theorem copyBlocks_iff (calls : Calls) (device : Device) (file : List UInt8) :
    (∃ rc after, copyBlocks calls device.eraseSize device.size (device.blocks + 1)
        ⟨file, 0, 0, device.contents⟩ = some (rc, after) ∧ (rc = 0 → Holds device file after)) ↔
      ¬ (0 < device.eraseSize ∧ device.eraseSize < file.length ∧ 1 < device.blocks ∧
        calls.erases 0 ∧ device.eraseSize ≤ calls.writes 0 ∧ calls.erases device.eraseSize) := by
  have size : device.contents.length = device.size := device.whole
  have length : (file.take device.eraseSize).length = min device.eraseSize file.length :=
    List.length_take
  by_cases nothing : file.take device.eraseSize = []
  · have last : ¬ (0 = device.eraseSize ∧ 0 < device.size) := by
      rintro ⟨zero, positive⟩
      rw [Device.size, ← zero, Nat.mul_zero] at positive
      exact Nat.lt_irrefl 0 positive
    rw [copyBlocks_ended nothing last]
    rw [nothing, List.length_nil] at length
    constructor
    · rintro - ⟨positive, long, -⟩
      omega
    · intro _
      exact ⟨0, _, rfl, fun _ => holds_unchanged nothing⟩
  · have positive := List.length_pos_iff.mpr nothing
    have fits : (file.take device.eraseSize).length ≤ device.eraseSize := List.length_take_le _ _
    rw [copyBlocks_turn positive]
    dsimp only
    obtain ⟨⟨after, failed⟩, refused⟩ | ⟨written, erases, room, writes⟩ :=
      writeBlock_first calls (file.drop device.eraseSize) device.contents fits
        (List.replicate (device.eraseSize - (file.take device.eraseSize).length) 0)
    · rw [bind_of_some failed]
      constructor
      · rintro - ⟨-, long, more, erases, writes, -⟩
        apply refused
        refine ⟨erases, ?_, by omega⟩
        rw [size, Device.size]
        exact Nat.le_mul_of_pos_left _ (by omega)
      · intro _
        refine ⟨-errResource, after, rfl, ?_⟩
        intro success
        cases success
    · rw [bind_of_some written]
      dsimp only
      by_cases again : (file.take device.eraseSize).length = device.eraseSize ∧
          device.eraseSize < device.size
      · obtain ⟨full, larger⟩ := again
        have nonempty : 0 < device.eraseSize := full ▸ positive
        have more : 1 < device.blocks := by
          rw [Device.size] at larger
          apply Nat.lt_of_mul_lt_mul_right
          rw [Nat.one_mul]
          exact larger
        have second : device.eraseSize + device.eraseSize ≤
            (withFirst device.eraseSize (file.take device.eraseSize) device.contents).length := by
          rw [withFirst_length fits room, size, Device.size, ← Nat.two_mul]
          exact Nat.mul_le_mul_right _ more
        obtain ⟨turns, counted⟩ := Nat.exists_eq_succ_of_ne_zero (Nat.ne_zero_of_lt more)
        rw [if_pos ⟨full, larger⟩, counted, copyBlocks_second nonempty rfl second]
        by_cases ended : file.drop device.eraseSize = []
        · rw [if_pos ended]
          have short := List.drop_eq_nil_iff.mp ended
          constructor
          · rintro - ⟨-, long, -⟩
            omega
          · intro _
            refine ⟨0, _, rfl, ?_⟩
            intro _
            exact holds_first (by omega) room (.inl short)
        · rw [if_neg ended]
          have long : device.eraseSize < file.length := by
            rw [List.drop_eq_nil_iff] at ended
            omega
          by_cases erased : calls.erases device.eraseSize = true
          · rw [if_pos erased]
            constructor
            · rintro ⟨rc, after, absurd, -⟩
              cases absurd
            · intro refused
              exact absurd ⟨nonempty, long, counted ▸ more, erases, full ▸ writes, erased⟩ refused
          · rw [if_neg erased]
            constructor
            · rintro - ⟨-, -, -, -, -, again⟩
              exact erased again
            · intro _
              refine ⟨-errResource, _, rfl, ?_⟩
              intro success
              cases success
      · rw [if_neg again]
        have short : file.length ≤ device.eraseSize ∨ device.size ≤ device.eraseSize := by
          omega
        constructor
        · rintro - ⟨nonempty, long, more, -⟩
          have larger : device.eraseSize * 1 < device.blocks * device.eraseSize := by
            rw [Nat.mul_comm device.blocks]
            exact Nat.mul_lt_mul_of_pos_left more nonempty
          rw [Device.size] at short
          omega
        · intro _
          refine ⟨0, _, rfl, ?_⟩
          intro _
          exact holds_first (by omega) room short

/-- The file and the device are open, the erase size is known, and the buffer is allocated. -/
def Ready (calls : Calls) : Prop :=
  calls.opensFile ∧ calls.opensDevice ∧ calls.info ∧ calls.malloc

/-- Where everything is ready the loop is entered. -/
theorem writeFirmware_ready {calls : Calls} (ready : Ready calls) (device : Device)
    (file : List UInt8) : writeFirmware calls device file =
      copyBlocks calls device.eraseSize device.size (device.blocks + 1)
        ⟨file, 0, 0, device.contents⟩ := by
  obtain ⟨opensFile, opensDevice, info, malloc⟩ := ready
  simp [writeFirmware, opensFile, opensDevice, info, malloc]

/-- Where something is missing an error is reported. -/
theorem writeFirmware_refused {calls : Calls} (refused : ¬ Ready calls) (device : Device)
    (file : List UInt8) :
    ∃ rc after, writeFirmware calls device file = some (rc, after) ∧ rc ≠ 0 := by
  rw [writeFirmware]
  split_ifs with noFile noDevice noInfo noSpace
  · exact ⟨_, _, rfl, by decide⟩
  · exact ⟨_, _, rfl, by decide⟩
  · exact ⟨_, _, rfl, by decide⟩
  · exact ⟨_, _, rfl, by decide⟩
  · simp only [Bool.not_eq_true', Bool.not_eq_false] at noFile noDevice noInfo noSpace
    exact absurd ⟨noFile, noDevice, noInfo, noSpace⟩ refused

/-- The firmware is copied, and from inside the buffer, if and only if no second block of the
file comes to be written. -/
theorem copies_iff (calls : Calls) (device : Device) (file : List UInt8) :
    Copies calls device file ↔ ¬ WritesSecond calls device file := by
  by_cases ready : Ready calls
  · rw [Copies, writeFirmware_ready ready, copyBlocks_iff]
    apply not_congr
    constructor
    · rintro ⟨nonempty, long, room, erasesFirst, writesFirst, erasesSecond⟩
      obtain ⟨opensFile, opensDevice, info, malloc⟩ := ready
      exact ⟨opensFile, opensDevice, info, malloc, nonempty, long, room, erasesFirst, writesFirst,
        erasesSecond⟩
    · intro writes
      exact ⟨writes.nonempty, writes.long, writes.room, writes.erasesFirst, writes.writesFirst,
        writes.erasesSecond⟩
  · obtain ⟨rc, after, failed, error⟩ := writeFirmware_refused ready device file
    apply iff_of_true
    · refine ⟨rc, after, failed, ?_⟩
      intro success
      exact absurd success error
    · intro writes
      exact ready ⟨writes.opensFile, writes.opensDevice, writes.info, writes.malloc⟩

/-- Two bytes are not copied to a device of two blocks of one byte: the second one would be read
from behind the buffer. -/
theorem not_copies : ¬ Copies ⟨true, true, true, true, fun _ => true, fun _ => 1⟩
    ⟨1, 2, [0xff, 0xff], rfl⟩ [0x61, 0x62] := by
  rintro ⟨rc, after, copied, -⟩
  have left : writeFirmware ⟨true, true, true, true, fun _ => true, fun _ => 1⟩
      ⟨1, 2, [0xff, 0xff], rfl⟩ [0x61, 0x62] = none := by decide
  rw [left] at copied
  cases copied

end Ezcfg.Firmware

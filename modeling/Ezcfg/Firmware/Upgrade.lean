import Ezcfg.Foundation.Cells
import Ezcfg.Util.Crc32
import Ezcfg.Values

/-!
# Upgrading the firmware

The file is read into a buffer of the length that its header tells. Behind the header is the
name of the model, and behind it one part after the other, each with a header of its own. A
part is written to a device of the flash, whose path is looked up by the name of the part.

What the system does is said by an environment: whether memory is granted, whether a call
on a device succeeds, and, for each turn of the loop, whether the table of the partitions can
be opened. Reading a byte outside the buffer, writing behind an array on the stack and using
the path before it is set have no result. Not modelled: the upgrade without a model, which
takes another way; the command line of the kernel, for which the answer of the function that
looks at it stands.

Numbers are stored with the lowest byte first, and a size is 32 bits wide.
-/

namespace Ezcfg.Firmware

open Foundation Util

/-- `EZCFG_E_RESOURCE` -/
def errResource : Int := 101

/-- `EZCFG_E_PARSE` -/
def errParse : Int := 105

/-- `EZCFG_E_RESULT` -/
def errResult : Int := 107

/-- `EZCFG_E_CRC` -/
def errCrc : Int := 108

/-- `sizeof(firmware_header_t)` -/
abbrev headerSize : Nat := 20

/-- `sizeof(firmware_part_t)` -/
abbrev partSize : Nat := 20

/-- `EZCFG_FIRMWARE_MAX_LENGTH` -/
def firmwareMaxLength : Nat := 0x1000000

/-- A line of `/proc/mtd`: a partition of the flash. -/
structure Partition where
  index : Nat
  name : CString
  eraseSize : Nat
  blocks : Nat
  positive : 0 < eraseSize
deriving DecidableEq

/-- The bytes of the erase blocks of the devices. -/
abbrev Flash := Nat → Nat → List UInt8

/-- The flash with other bytes in a block. -/
def Flash.set (flash : Flash) (device block : Nat) (bytes : List UInt8) : Flash :=
  Function.update flash device (Function.update (flash device) block bytes)

/-- What becomes of the calls of one turn. -/
structure Outcome where
  table : Bool := true
  opens : Bool := true
  info : Bool := true
  erases : Nat → Bool := fun _ => true
  writes : Nat → Bool := fun _ => true

/-- What the system does. -/
structure Environment where
  running : Int := 0
  calloc : Bool := true
  realloc : Bool := true
  turn : Nat → Outcome := fun _ => {}

/-- Reading no byte is possible everywhere. -/
def readInside (buf : List UInt8) (p count : Nat) : Option (List UInt8) :=
  if count = 0 then some [] else ByteArea.readAt buf p count

/-- The text of the format `\"%s\"`. -/
def quoted (name : List UInt8) : List UInt8 := 0x22 :: name ++ [0x22]

/-- `isspace` -/
def isSpace (byte : UInt8) : Bool := byte = 0x20 || (0x09 ≤ byte && byte ≤ 0x0d)

/-- The name that `sscanf` finds in the line of a partition. -/
def scannedName (entry : Partition) : List UInt8 :=
  (quoted entry.name.bytes).takeWhile fun byte => !isSpace byte

/-- The loop of `get_part_device_path` over the lines: the partition that is found. The
arrays `name` and `line` have 32 and 128 bytes. -/
def searchTable (buf : List UInt8) (part : Nat) : List Partition → Option (Option Partition)
  | [] => some none
  | entry :: rest => do
    ensure ((scannedName entry).length < 32)
    let name ← ByteArea.stringAt buf (part + 4)
    ensure ((quoted name).length < 128)
    if scannedName entry = quoted name then return some entry
    searchTable buf part rest

/-- `get_part_device_path`: the code, and the path, which is the number of a device. -/
def getPartDevicePath (outcome : Outcome) (table : List Partition) (buf : List UInt8) (part : Nat)
    (path : Option Nat) : Option (Int × Option Nat) :=
  if outcome.table then do
    match ← searchTable buf part table with
    | some entry => return (0, some entry.index)
    | none => return (0, path)
  else some (-errResource, path)

/-- The loop of `write_part`, with the blocks that are left. -/
def writeBlocks (outcome : Outcome) (buf : List UInt8) (pos device eraseSize : Nat) :
    Nat → Nat → Nat → Flash → Option (Int × Flash)
  | 0, _, _, flash => some (0, flash)
  | turns + 1, block, len, flash =>
    if outcome.erases block then do
      let flash := flash.set device block (List.replicate eraseSize 0xff)
      let count := if len > eraseSize then eraseSize else len
      let bytes ← readInside buf (pos + block * eraseSize) count
      if outcome.writes block then
        let flash := flash.set device block (bytes ++ List.replicate (eraseSize - count) 0xff)
        writeBlocks outcome buf pos device eraseSize turns (block + 1) (len - count) flash
      else return (-errResource, flash)
    else some (-errResource, flash)

/-- What was written: the place of the part in the buffer, and the partition it went to. -/
structure Written where
  part : Nat
  partition : Partition
deriving DecidableEq

/-- `write_part`. What it writes to is told when the device is open. -/
def writePart (outcome : Outcome) (table : List Partition) (buf : List UInt8) (part device len : Nat)
    (flash : Flash) : Option (Int × List Written × Flash) :=
  match table.find? fun entry => entry.index = device with
  | none => some (-errResource, [], flash)
  | some partition =>
    if outcome.opens then
      if outcome.info then do
        let (rc, flash) ← writeBlocks outcome buf (part + partSize) device partition.eraseSize
          partition.blocks 0 len flash
        return (rc, [⟨part, partition⟩], flash)
      else some (-errResource, [], flash)
    else some (-errResource, [], flash)

/-- The loop of `ezcfg_api_firmware_upgrade` over the parts, with the turns that are left. -/
def writeParts (turn : Nat → Outcome) (table : List Partition) (buf : List UInt8) :
    Nat → Nat → Option Nat → Int → Flash → Option (Int × List Written × Flash)
  | 0, _, _, rc, flash => some (rc, [], flash)
  | turns + 1, p, path, _, flash => do
    let (rc, path) ← getPartDevicePath (turn turns) table buf p path
    let len ← ByteArea.readU32 buf p
    if rc < 0 then writeParts turn table buf turns (p + len) path rc flash
    else
      let device ← path
      let (rc, here, flash) ← writePart (turn turns) table buf p device
        ((len + 2 ^ 32 - partSize) % 2 ^ 32) flash
      let (rc, later, flash) ← writeParts turn table buf turns (p + len) path rc flash
      return (rc, here ++ later, flash)

/-- The part of `ezcfg_api_firmware_upgrade` in front of the loop: the buffer, or the code
when a check fails. -/
def readFirmware (environment : Environment) (file : Option (List UInt8)) (model : CString) :
    Option (Except Int (List UInt8)) := do
  if environment.running < 0 then return .error environment.running
  if !environment.calloc then return .error (-errResource)
  let some file := file | return .error (-errResource)
  if file.length < headerSize then return .error (-errResource)
  let len ← ByteArea.readU32 file 4
  if len < headerSize ∨ len > firmwareMaxLength then return .error (-errParse)
  if !environment.realloc then return .error (-errResource)
  if file.length < len then return .error (-errResource)
  let buf := file.take len
  let crc ← ByteArea.readU32 buf 8
  if (crc32 (buf.drop 12)).toNat ≠ crc then return .error (-errCrc)
  let modelLen ← ByteArea.readU32 buf 12
  let body := buf.drop headerSize
  if model.length ≠ modelLen then return .error (-errResult)
  ensure (¬ (body.length < modelLen ∧ body <+: model.bytes))
  if strncmp modelLen body model.bytes ≠ .eq then return .error (-errResult)
  return .ok buf

/-- `ezcfg_api_firmware_upgrade`: the code, what was written, and the flash. The number of
the parts is stored in an int. -/
def firmwareUpgrade (environment : Environment) (table : List Partition)
    (file : Option (List UInt8)) (model : CString) (flash : Flash) :
    Option (Int × List Written × Flash) := do
  match ← readFirmware environment file model with
  | .error rc => return (rc, [], flash)
  | .ok buf =>
    let modelLen ← ByteArea.readU32 buf 12
    let numParts ← ByteArea.readU32 buf 16
    writeParts environment.turn table buf (toInt32 numParts).toNat (headerSize + modelLen) none 0
      flash

end Ezcfg.Firmware

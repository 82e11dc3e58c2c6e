import Ezcfg.Foundation.Cells
import Ezcfg.Util.Crc32
import Ezcfg.Values

/-!
# The environment of the boot loader

The partition of the environment is an image: a checksum of four bytes and the data behind
it. The data are terminated texts, and an empty text behind the last one; with the
terminator of the last text its terminator is the double one that the source looks for. The
partition table names the partition, memory is granted, and the flash is read and written
faithfully, so reading gives the image and writing replaces it.

Reading or writing a byte outside the image has no result. The length of a name is stored in
an int; the texts of an image are strings, and their lengths fit ints.
-/

namespace Ezcfg.Ubootenv

open Foundation Util

/-- `EZCFG_E_PARSE` -/
def errParse : Int := 105

/-- `EZCFG_E_SPACE` -/
def errSpace : Int := 106

/-- `EZCFG_E_CRC` -/
def errCrc : Int := 108

/-- The byte between a name and its value. -/
abbrev equals : UInt8 := 0x3d

/-- `sizeof(uint32_t)` -/
abbrev crcSize : Nat := 4

/-- The checksum of the data of an image. -/
def checksum (image : List UInt8) : UInt32 := crc32 (image.drop crcSize)

/-- Whether the checksum of an image is right. -/
def checkCrc (image : List UInt8) : Option Bool := do
  let crc ← ByteArea.readU32 image 0
  return (checksum image).toNat = crc

/-- The bytes of a checksum. -/
def crcBytes (crc : UInt32) : List UInt8 :=
  [crc.toUInt8, (crc >>> 8).toUInt8, (crc >>> 16).toUInt8, (crc >>> 24).toUInt8]

/-- The loop that looks for the double terminator, with a bound on its turns. -/
def findEnd (image : List UInt8) : Nat → Nat → Nat
  | 0, last => last
  | turns + 1, last =>
    if last < image.length ∧ (image[last - 1]? ≠ some 0 ∨ image[last]? ≠ some 0) then
      findEnd image turns (last + 1)
    else last

/-- `(entry_len > name_len) ? name_len : entry_len` -/
def cmpLength (entry : List UInt8) (nameLen : Int) : Int :=
  if entry.length + 1 > nameLen then nameLen else entry.length + 1

/-- The comparison of a name with a text. A negative length is a huge one to the callee. -/
def cmpName (name entry : List UInt8) (count : Int) : Ordering :=
  if count < 0 then strcmp name entry else strncmp count.toNat name entry

/-- The byte at a position, which may be in front of the image. -/
def byteAt (image : List UInt8) (p : Int) : Option UInt8 :=
  if 0 ≤ p then image[p.toNat]? else none

/-- Whether the text at a position, which is not empty, is an entry of the name. -/
def isEntry (image : List UInt8) (p : Nat) (entry name : List UInt8) (nameLen : Int) :
    Option Bool :=
  if cmpName name entry (cmpLength entry nameLen) = .eq then
    (byteAt image (p + cmpLength entry nameLen)).map fun byte => byte = equals
  else some false

/-- The loop of `find_entry_position`, with a bound on its turns. -/
def findEntry (image name : List UInt8) (nameLen : Int) : Nat → Nat → Option Nat
  | 0, _ => none
  | turns + 1, p => do
    let byte ← image[p]?
    if byte = 0 then return p
    let entry ← ByteArea.stringAt image p
    if ← isEntry image p entry name nameLen then return p
    findEntry image name nameLen turns (p + (entry.length + 1))

/-- `find_entry_position`. There are not more texts than bytes. -/
def findEntryPosition (image name : List UInt8) : Option Nat :=
  findEntry image name (toInt32 name.length) (image.length + 1) crcSize

/-- The bytes of an ASCII text. -/
def bytesOf (text : String) : List UInt8 := text.toList.map fun c => UInt8.ofNat c.toNat

/-- `default_checklist` -/
def defaultChecklist : List (List UInt8 × List UInt8) := [
  (bytesOf "ethaddr", bytesOf "0x00:0xaa:0xbb:0xcc:0xdd:0xee"),
  (bytesOf "serial#", bytesOf "########"),
  (bytesOf "pin#", bytesOf "########"),
  (bytesOf "model#", bytesOf "########")]

/-- `check_ubootenv_name` -/
def checkUbootenvName (entry name : List UInt8) (checklist : List (List UInt8 × List UInt8)) :
    Int :=
  if checklist.any fun (known, value) =>
      strcmp known name = .eq && strcmp value (entry.drop (name.length + 1)) ≠ .eq then -1
  else 0

/-- What `find_entry_position` gives, with the text there when it is an entry of the name. -/
def lookUp (image name : List UInt8) (nameLen : Int) : Option (Nat × Option (List UInt8)) := do
  let p ← findEntryPosition image name
  let entry ← ByteArea.stringAt image p
  if entry = [] then return (p, none)
  if ← isEntry image p entry name nameLen then return (p, some entry) else return (p, none)

/-- `ezcfg_api_ubootenv_get`: the code, and the value when there is one. -/
def ubootenvGet (image : List UInt8) (name : CString) (len : Nat) :
    Option (Int × Option (List UInt8)) :=
  if name.length < 1 ∨ len < 1 then some (-errParse, none)
  else do
    if !(← checkCrc image) then return (-errCrc, none)
    let last := findEnd image image.length (crcSize + 1)
    if last = image.length then return (-errParse, none)
    match ← lookUp image name.bytes name.length with
    | (_, some entry) =>
      if entry.length + 1 - (name.length + 1) > len then return (-errSpace, none)
      return (0, some ((entry.drop (name.length + 1)).take (len - 1)))
    | (_, none) => return (-errParse, none)

/-- `new_entry_len` -/
def newEntryLen (name : CString) : Option CString → Int
  | some value => toInt32 (toInt32 name.length + value.length + 2)
  | none => 0

/-- What `ezcfg_api_ubootenv_set` adds at the end. -/
def addEntry (image : List UInt8) (last : Nat) (name : CString) : Option CString →
    Option (List UInt8)
  | some value => ByteArea.write image last (name.bytes ++ equals :: value.bytes ++ [0])
  | none => some image

/-- The part of `ezcfg_api_ubootenv_set` that removes the entry: the code, the image and the
place of the double terminator. -/
def removeEntry (image : List UInt8) (last : Nat) (name : CString) :
    Option (Int × List UInt8 × Nat) := do
  match ← lookUp image name.bytes (toInt32 name.length) with
  | (p, some entry) =>
    let rc := checkUbootenvName entry name.bytes defaultChecklist
    if rc < 0 then return (rc, image, last)
    let entryLen := entry.length + 1
    let count : Int := (last + 1 : Nat) - (p + entryLen : Nat)
    let image ← ByteArea.memmove image p (p + entryLen) count
    return (0, image, last - entryLen)
  | (_, none) => return (0, image, last)

/-- `ezcfg_api_ubootenv_set`: the code, and the image in the flash. -/
def ubootenvSet (image : List UInt8) (name : CString) (value : Option CString) :
    Option (Int × List UInt8) :=
  if toInt32 name.length < 1 then some (-errParse, image)
  else do
    if !(← checkCrc image) then return (-errCrc, image)
    let last := findEnd image image.length (crcSize + 1)
    if last = image.length then return (-errParse, image)
    let (rc, buf, last) ← removeEntry image last name
    if rc < 0 then return (rc, image)
    if (buf.length : Int) - last < newEntryLen name value then return (-errSpace, image)
    let buf ← addEntry buf last name value
    let last := last + newEntryLen name value
    ensure (0 ≤ last)
    -- The count is that of the whole image from the place of the data on.
    let count := (buf.length : Int) - (last - crcSize)
    let buf ← ByteArea.write buf last.toNat (List.replicate count.toNat 0)
    let buf ← ByteArea.write buf 0 (crcBytes (checksum buf))
    return (0, buf)

end Ezcfg.Ubootenv

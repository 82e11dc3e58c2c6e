import Ezcfg.Foundation.ByteArea
import Ezcfg.Values

/-!
# The META nvram buffer

The buffer is a header followed by a data area of packed `name=value` strings.
Of the header only the two counters are kept: setting, removing and looking up
entries neither read nor write the magic, version, coding, backend and checksum
fields. `data_size` is the length of the data area and never changes.

An operation whose result is none has read or written outside the data area, or
has overflowed an int. Lengths that `strlen` delivers are stored in ints and wrap
around; the sums of header counters do not leave the range of int.
-/

namespace Ezcfg.MetaNvram

open Foundation
open Foundation.ByteArea (stringAt write memmove)

/-- The byte between a name and its value. -/
def equals : UInt8 := 61

/-- `sizeof(struct nvram_header)` -/
def headerSize : Nat := 32

/-- The counters of the header and the data area. -/
structure Buffer where
  data : List UInt8
  dataUsed : Int
deriving DecidableEq

def Buffer.dataSize (buffer : Buffer) : Int := buffer.data.length

/-- A cleared data area. -/
def Buffer.fresh (dataSize : Nat) : Buffer := ⟨List.replicate dataSize 0, 0⟩

/-- `local_meta_nvram_new`: room for the header and two terminators is asserted. -/
def localMetaNvramNew (size : Int32) : Option Buffer :=
  if (headerSize : Int) + 2 ≤ size.toInt then some (.fresh (size.toInt - headerSize).toNat)
  else none

/-- The search loop: it stops at an entry whose first bytes are not below the
name, and reports a hit when the name is followed by the separator there. The fuel
bounds the number of entries. -/
def findLoop (data : List UInt8) (name : List UInt8) : Nat → Nat → Option (Nat × Bool)
  | 0, _ => none
  | fuel + 1, entry => do
    let s ← stringAt data entry
    if s = [] then some (entry, false)
    else
      let entryLen := s.length + 1
      let cmpLen := if entryLen > name.length then name.length else entryLen
      match strncmp name.length name s with
      | .lt => some (entry, false)
      | .eq => do
        let byte ← data[entry + cmpLen]?
        some (entry, byte == equals)
      | .gt => findLoop data name fuel (entry + entryLen)

/-- Every entry takes at least one byte, so there are fewer of them than bytes. -/
def findNvramEntryPosition (buffer : Buffer) (name : CString) : Option (Nat × Bool) :=
  findLoop buffer.data name.bytes buffer.data.length 0

/-- `sprintf` of the given bytes and their terminator. -/
def sprintf (data : List UInt8) (p : Nat) (bytes : List UInt8) : Option (List UInt8) :=
  write data p (bytes ++ [0])

/-- `name_len + strlen(value) + 2` as it is stored in an int. -/
def newEntryLen (name value : CString) : Int := toInt32 (name.length + value.length + 2)

/-- The bytes that `"%s=%s"` produces. -/
def entryBytes (name value : CString) : List UInt8 := name.bytes ++ equals :: value.bytes

/-- `while (entry_len > new_entry_len) { *p = '='; p++; entry_len--; }` -/
def padLoop (data : List UInt8) (p : Nat) : Nat → Option (List UInt8)
  | 0 => some data
  | rounds + 1 => do
    let data ← write data p [equals]
    padLoop data (p + 1) rounds

/-- The first entry is written at the start of the data area; the terminator of
the list is stored one byte behind its place, which is already clear. -/
def setFirst (buffer : Buffer) (name value : CString) : Option (Int × Buffer) := do
  let needed ← checkedInt (newEntryLen name value + 1)
  if needed > buffer.dataSize - buffer.dataUsed then some (retFail, buffer)
  else
    let data ← sprintf buffer.data 0 (entryBytes name value)
    let data ← if 0 ≤ needed then write data needed.toNat [0] else none
    some (retOk, ⟨data, buffer.dataUsed + needed⟩)

/-- A new value for the entry at `p`. A longer entry keeps its length: the value
is moved to its end and the space in front of it is filled with separators. -/
def replaceEntry (buffer : Buffer) (p : Nat) (name value : CString) :
    Option (Int × Buffer) := do
  let s ← stringAt buffer.data p
  let entryLen : Int := s.length + 1
  let newLen := newEntryLen name value
  if newLen > buffer.dataSize - buffer.dataUsed + entryLen then some (retFail, buffer)
  else if entryLen ≥ newLen then
    let start := p + name.length + 1
    let rounds := (entryLen - newLen).toNat
    let data ← padLoop buffer.data start rounds
    let data ← sprintf data (start + rounds) value.bytes
    some (retOk, ⟨data, buffer.dataUsed⟩)
  else
    let data ← memmove buffer.data (p + newLen.toNat) (p + entryLen.toNat)
      (buffer.dataUsed - p - entryLen)
    let data ← sprintf data (p + name.length + 1) value.bytes
    some (retOk, ⟨data, buffer.dataUsed + (newLen - entryLen)⟩)

/-- A new entry at `p`, in front of what is there. -/
def insertEntry (buffer : Buffer) (p : Nat) (name value : CString) :
    Option (Int × Buffer) := do
  let newLen := newEntryLen name value
  if newLen > buffer.dataSize - buffer.dataUsed then some (retFail, buffer)
  else
    let data ← memmove buffer.data (p + newLen.toNat) p (buffer.dataUsed - p)
    let data ← sprintf data p (entryBytes name value)
    some (retOk, ⟨data, buffer.dataUsed + newLen⟩)

def metaNvramSetEntry (buffer : Buffer) (name value : CString) : Option (Int × Buffer) :=
  if buffer.dataUsed = 0 then setFirst buffer name value
  else do
    let (p, equal) ← findNvramEntryPosition buffer name
    if equal then replaceEntry buffer p name value else insertEntry buffer p name value

/-- The return code passes through a bool on its way out. -/
def metaNvramUnsetEntry (buffer : Buffer) (name : CString) : Option (Int × Buffer) := do
  let (p, equal) ← findNvramEntryPosition buffer name
  if equal then
    let s ← stringAt buffer.data p
    let entryLen : Int := s.length + 1
    let data ← memmove buffer.data p (p + entryLen.toNat) (buffer.dataUsed - p - entryLen)
    some (toBool retOk, ⟨data, buffer.dataUsed - entryLen⟩)
  else some (toBool retFail, buffer)

/-- `while (*p == '=') { p++; }`; running off the data area shows in the read that
follows. -/
def skipEquals (data : List UInt8) (p : Nat) : Nat :=
  p + ((data.drop p).takeWhile (· = equals)).length

def metaNvramGetEntryValue (buffer : Buffer) (name : CString) (granted : Bool) :
    Option (Int × Option (List UInt8)) := do
  let (p, equal) ← findNvramEntryPosition buffer name
  if equal then
    let value ← stringAt buffer.data (skipEquals buffer.data (p + name.length))
    if granted then some (retOk, some value) else some (retFail, none)
  else some (retFail, none)

end Ezcfg.MetaNvram

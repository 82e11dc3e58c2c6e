import Ezcfg.Foundation.CString
import Ezcfg.Foundation.Heap
import Ezcfg.Values

/-!
# The RAM nvram table

The table is an array of nodes owning two strings each. Strings live in a heap,
because removal copies nodes and with them their pointers: two nodes may then
own the same strings, and a freed string may still be pointed at. An operation
whose result is none has read, written or freed something that is not live, or
has indexed past the array.

The table lock is not modelled: `pthread_mutex_lock` never returns a negative
number, so taking and releasing it always succeeds. The signed sums of the
search do not overflow, because the target cannot allocate `2 ^ 28` nodes of
sixteen bytes.
-/

namespace Ezcfg.RamNvram

open Foundation

/-- An allocated block of characters and the string stored in it. -/
structure Block where
  size : Nat
  text : CString
deriving DecidableEq

abbrev Memory := Heap Block

/-- `struct nvram_node`; the lengths include the terminator. -/
structure NvramNode where
  name : Option Ptr
  value : Option Ptr
  nlen : Int
  vlen : Int
deriving DecidableEq

/-- A node as `calloc` and `nvram_node_clean` leave it. -/
def NvramNode.empty : NvramNode := ⟨none, none, 0, 0⟩

/-- `struct nvram`; `node_list_size` is the length of the node array. -/
structure Nvram where
  nodeList : List NvramNode
  nodeListUsed : Nat
  totalSpaceUsed : BitVec 32
deriving DecidableEq

def Nvram.nodeListSize (nvram : Nvram) : Nat := nvram.nodeList.length

/-- The table together with the strings it points at. -/
structure Ram where
  memory : Memory
  nvram : Nvram
deriving DecidableEq

/-- The table `local_nvram_new` sets up for a node list size of at least one. -/
def Ram.fresh (nodeListSize : Nat) : Ram :=
  ⟨[], ⟨List.replicate nodeListSize .empty, 0, 0⟩⟩

/-- `strdup`, which may be refused memory. -/
def strdup (memory : Memory) (granted : Bool) (s : CString) : Option Ptr × Memory :=
  if granted then
    let (p, memory) := memory.alloc ⟨s.length + 1, s⟩
    (some p, memory)
  else (none, memory)

/-- `free`, which ignores NULL. -/
def free (memory : Memory) : Option Ptr → Option Memory
  | none => some memory
  | some p => memory.free p

/-- `sprintf(p, "%s", s)` into an allocated block that must be large enough. -/
def sprintf (memory : Memory) (p : Ptr) (s : CString) : Option Memory := do
  let block ← memory.read p
  if s.length + 1 ≤ block.size then memory.write p { block with text := s } else none

/-- Assignment to an array slot. -/
def storeNode (nodeList : List NvramNode) (i : Nat) (np : NvramNode) :
    Option (List NvramNode) :=
  if i < nodeList.length then some (nodeList.set i np) else none

/-- The string a node's name points at. -/
def NvramNode.nameText (memory : Memory) (np : NvramNode) : Option CString := do
  let p ← np.name
  let block ← memory.read p
  some block.text

/-- The name held by an array slot. -/
def nodeName (ram : Ram) (i : Nat) : Option CString := do
  let np ← ram.nvram.nodeList[i]?
  np.nameText ram.memory

/-- The search loop. The fuel bounds the number of probes; running out of it has
no result. -/
def findLoop (ram : Ram) (name : CString) : Nat → Int → Int → Int → Option (Int × Bool)
  | 0, _, _, _ => none
  | fuel + 1, bottom, upper, middle =>
    if bottom < upper then do
      let middle := (bottom + upper) / 2
      let held ← nodeName ram middle.toNat
      match strcmp held name with
      | .eq => some (middle, true)
      | .lt => findLoop ram name fuel (middle + 1) upper middle
      | .gt => findLoop ram name fuel bottom (middle - 1) middle
    else some (middle, false)

/-- Every probe shortens the interval, so more probes than slots are never made. -/
def findNvramEntryPosition (ram : Ram) (name : CString) : Option (Int × Bool) :=
  let upper : Int := ram.nvram.nodeListUsed
  findLoop ram name (ram.nvram.nodeListUsed + 1) 0 upper (upper / 2)

/-- Which of the `strdup` calls of an operation are given memory. -/
structure Grants where
  name : Bool
  value : Bool
deriving DecidableEq

/-- Every allocation succeeds. -/
def Grants.full : Grants := ⟨true, true⟩

/-- The node filled in with two fresh copies. -/
def filledNode (p q : Ptr) (name value : CString) : NvramNode :=
  ⟨some p, some q, (name.length : Int) + 1, (value.length : Int) + 1⟩

/-- `fail_exit`: drop whichever copy was made. -/
def failExit (ram : Ram) (memory : Memory) (tmpName tmpValue : Option Ptr) :
    Option (Int × Ram) := do
  let memory ← free memory tmpName
  let memory ← free memory tmpValue
  some (retFail, { ram with memory := memory })

/-- Fill slot `i` and count the new entry. -/
def fillSlot (memory : Memory) (nvram : Nvram) (i : Nat) (np : NvramNode) :
    Option (Int × Ram) := do
  let nodeList ← storeNode nvram.nodeList i np
  some (retOk, ⟨memory, nodeList, nvram.nodeListUsed + 1,
    nvram.totalSpaceUsed + BitVec.ofInt 32 np.nlen + BitVec.ofInt 32 np.vlen⟩)

/-- `for (j = node_list_used; j > i; j--) node_list[j] = node_list[j-1];` -/
def shiftUp (i : Nat) : Nat → List NvramNode → Option (List NvramNode)
  | 0, nodeList => some nodeList
  | j + 1, nodeList =>
    if i < j + 1 then do
      let np ← nodeList[j]?
      let nodeList ← storeNode nodeList (j + 1) np
      shiftUp i j nodeList
    else some nodeList

/-- A new value for the found entry: written over the old one when that was at
least as long, otherwise a fresh copy. -/
def replaceValue (ram : Ram) (i : Nat) (value : CString) (grants : Grants) :
    Option (Int × Ram) := do
  let np ← ram.nvram.nodeList[i]?
  if (value.length : Int) < np.vlen then
    let p ← np.value
    let memory ← sprintf ram.memory p value
    some (retOk, { ram with memory := memory })
  else
    match strdup ram.memory grants.value value with
    | (none, memory) => some (retFail, { ram with memory := memory })
    | (some tmpValue, memory) =>
      let memory ← free memory np.value
      let vlen : Int := (value.length : Int) + 1
      let nodeList ← storeNode ram.nvram.nodeList i { np with value := some tmpValue, vlen := vlen }
      let totalSpaceUsed :=
        ram.nvram.totalSpaceUsed - BitVec.ofInt 32 np.vlen + BitVec.ofInt 32 vlen
      some (retOk, ⟨memory, nodeList, ram.nvram.nodeListUsed, totalSpaceUsed⟩)

/-- "insert nvram entry": copy both strings, shift the later slots and fill the
slot this leaves. -/
def insertEntry (ram : Ram) (i : Nat) (name value : CString) (grants : Grants) :
    Option (Int × Ram) :=
  let (tmpName, memory) := strdup ram.memory grants.name name
  let (tmpValue, memory) := strdup memory grants.value value
  match tmpName, tmpValue with
  | some p, some q => do
    let nodeList ← shiftUp i ram.nvram.nodeListUsed ram.nvram.nodeList
    fillSlot memory { ram.nvram with nodeList := nodeList } i (filledNode p q name value)
  | _, _ => failExit ram memory tmpName tmpValue

def nvramSetEntry (ram : Ram) (name value : CString) (grants : Grants) :
    Option (Int × Ram) :=
  if ram.nvram.nodeListUsed = 0 then
    -- the first entry goes to slot zero, whatever the size of the table
    let (tmpName, memory) := strdup ram.memory grants.name name
    let (tmpValue, memory) := strdup memory grants.value value
    match tmpName, tmpValue with
    | some p, some q => fillSlot memory ram.nvram 0 (filledNode p q name value)
    | _, _ => failExit ram memory tmpName tmpValue
  else do
    let (i, equal) ← findNvramEntryPosition ram name
    if equal then
      replaceValue ram i.toNat value grants
    else if ram.nvram.nodeListUsed = ram.nvram.nodeListSize then
      some (retFail, ram)
    else
      insertEntry ram i.toNat name value grants

/-- Free both strings of a node and clear it. -/
def nvramNodeClean (memory : Memory) (np : NvramNode) : Option (Memory × NvramNode) := do
  let memory ← free memory np.name
  let memory ← free memory np.value
  some (memory, .empty)

/-- `node_list[i] = node_list[i+1];`, as many times as the loop runs. The loop
counter is not used in its body. -/
def closeGap (i : Nat) : Nat → List NvramNode → Option (List NvramNode)
  | 0, nodeList => some nodeList
  | rounds + 1, nodeList => do
    let np ← nodeList[i + 1]?
    let nodeList ← storeNode nodeList i np
    closeGap i rounds nodeList

def nvramUnsetEntry (ram : Ram) (name : CString) : Option (Int × Ram) := do
  let (i, equal) ← findNvramEntryPosition ram name
  if equal then
    let np ← ram.nvram.nodeList[i.toNat]?
    let totalSpaceUsed :=
      ram.nvram.totalSpaceUsed - BitVec.ofInt 32 np.nlen - BitVec.ofInt 32 np.vlen
    let used := ram.nvram.nodeListUsed - 1
    let (memory, cleaned) ← nvramNodeClean ram.memory np
    let nodeList ← storeNode ram.nvram.nodeList i.toNat cleaned
    let nodeList ← closeGap i.toNat (used - i.toNat) nodeList
    some (retOk, ⟨memory, nodeList, used, totalSpaceUsed⟩)
  else
    some (retFail, ram)

/-- `*value` is left as it was unless the name is found. -/
def nvramGetEntryValue (ram : Ram) (name : CString) (granted : Bool) (old : Option CString) :
    Option (Int × Option CString) := do
  let (i, equal) ← findNvramEntryPosition ram name
  if equal then
    let np ← ram.nvram.nodeList[i.toNat]?
    let p ← np.value
    let block ← ram.memory.read p
    if granted then some (retOk, some block.text) else some (retFail, none)
  else
    some (retFail, old)

/-- The loop of `local_nvram_del`: it stops at the first slot without a name. -/
def cleanSlots (memory : Memory) : List NvramNode → Option Memory
  | [] => some memory
  | np :: rest =>
    if np.name.isNone then some memory
    else do
      let (memory, _) ← nvramNodeClean memory np
      cleanSlots memory rest

/-- `local_nvram_del` on the strings; the array itself is freed afterwards. -/
def localNvramDel (ram : Ram) : Option Memory := cleanSlots ram.memory ram.nvram.nodeList

/-- The slots `local_nvram_del` and `_local_nvram_get_entries_by_ns` go through:
those before the first one without a name. -/
def visitedSlots (ram : Ram) : List Nat :=
  List.range (ram.nvram.nodeList.takeWhile fun np => np.name.isSome).length

/-- The names of the live slots, when every one of them can be read. -/
def Ram.liveNames (ram : Ram) : Option (List CString) :=
  (ram.nvram.nodeList.take ram.nvram.nodeListUsed).mapM (NvramNode.nameText ram.memory)

/-- The name and the value of a node, when both can be read. -/
def NvramNode.entry (memory : Memory) (np : NvramNode) : Option (CString × CString) := do
  let name ← np.nameText memory
  let p ← np.value
  let block ← memory.read p
  some (name, block.text)

/-- The entries of the live slots, when every one of them can be read. -/
def Ram.liveEntries (ram : Ram) : Option (List (CString × CString)) :=
  (ram.nvram.nodeList.take ram.nvram.nodeListUsed).mapM (NvramNode.entry ram.memory)

/-- One call on the table. -/
inductive Request where
  | set (name value : CString)
  | unset (name : CString)
  | get (name : CString)
deriving DecidableEq

/-- What a call returns: its code, and for a lookup the value handed out. -/
structure Answer where
  ret : Int
  value : Option CString
deriving DecidableEq

/-- Perform one call. A lookup is given a cleared value pointer. -/
def Ram.serve (ram : Ram) (grants : Grants) : Request → Option (Answer × Ram)
  | .set name value => (nvramSetEntry ram name value grants).map fun (ret, after) =>
      (⟨ret, none⟩, after)
  | .unset name => (nvramUnsetEntry ram name).map fun (ret, after) => (⟨ret, none⟩, after)
  | .get name => (nvramGetEntryValue ram name grants.value none).map fun (ret, value) =>
      (⟨ret, value⟩, ram)

end Ezcfg.RamNvram

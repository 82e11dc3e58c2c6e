import Ezcfg.Context.MetaFill
import Ezcfg.Http.Handle
import Ezcfg.Http.Content
import Ezcfg.RamNvram.Table

/-!
# Making and deleting a context

`ezcfg_new` and `ezcfg_del` with the allocations and mutex calls that may fail, the counter of
references and the pointer to the context of the process. Each block is a cell of a heap: the
context, the JSON handle with all that it owns, and the META buffer; the RAM store owns its
strings itself. The list of settings is made and released in between.

A run that fails an assertion has no result. An allocation that is refused inside the parser or
inside the list makes the parser fail and the list NULL.
-/

namespace Ezcfg.Context

open Foundation Json MetaNvram
open RamNvram (Ram)

/-- `NVRAM_NAME(META, NVRAM_NODE_LIST_SIZE)` -/
def nodeListSizeName : CString := Http.constant "meta.nvram_node_list_size"

/-- What is allocated. -/
inductive Block where
  | context (metaNvram : Option Ptr) (nvram : Option Ram)
  | json
  | buffer (buffer : Buffer)

/-- The memory and what the library keeps between calls. -/
structure World where
  heap : Heap Block
  refCounter : Int
  thisEzcfg : Option Ptr
  thisNvram : Bool

/-- Nothing has been made, or all of it is deleted. -/
def World.fresh : World := ⟨[], 0, none, false⟩

/-- Which allocations are granted and which mutex calls succeed. -/
structure Steps where
  context : Bool
  lock : Bool
  unlock : Bool
  json : Bool
  parse : Bool
  metaNvram : Bool
  list : Bool
  value : Bool
  nodeList : Bool
  nvram : Bool
  nvramLock : Bool
  nvramUnlock : Bool

/-- `malloc` -/
def World.alloc (world : World) (block : Block) : Ptr × World :=
  (world.heap.length, { world with heap := world.heap ++ [some block] })

/-- `free`; NULL is allowed. -/
def World.free (world : World) : Option Ptr → Option World
  | none => some world
  | some p => do
    let heap ← world.heap.free p
    some { world with heap }

/-- Write a block. -/
def World.write (world : World) (p : Ptr) (block : Block) : Option World := do
  let heap ← world.heap.write p block
  some { world with heap }

/-- `local_nvram_new` -/
def localNvramNew (steps : Steps) (buffer : Buffer) (world : World) :
    Option (Option Ram × World) := do
  let (ret, val) ← metaNvramGetEntryValue buffer nodeListSizeName steps.value
  if ret ≠ retOk then return (none, world)
  let nodeListSize := Http.atoi (← val)
  if nodeListSize < 1 then return (none, world)
  if ¬ steps.nodeList then return (none, world)
  if ¬ steps.nvram then return (none, world)
  if ¬ steps.nvramLock then return (none, world)
  ensure (world.thisNvram = false)
  if ¬ steps.nvramUnlock then return (none, world)
  return (some (Ram.fresh nodeListSize.toNat), { world with thisNvram := true })

/-- How the work on the text ends: the stores of the context, or the jump to `fail_out` with the
blocks that are there. -/
inductive Filling where
  | stores (metaNvram : Ptr) (nvram : Option Ram)
  | failOut (json metaNvram : Option Ptr)

/-- The META buffer is filled with the settings of the text, when it is a representation. -/
def fillMeta (steps : Steps) (handle : Json) (buffer : Buffer) : Option (Int × Buffer) := do
  if ← jsonIsNvramRepresentation handle then
    match ← jsonBuildNvramNodeList handle with
    | some list => if steps.list then localMetaNvramSetEntries buffer list else return (retOk, buffer)
    | none => return (retOk, buffer)
  else return (retOk, buffer)

/-- The part of `ezcfg_new` that works on the text. -/
def fillStores (steps : Steps) (text : Text) (world : World) : Option (Filling × World) := do
  if ¬ steps.json then return (.failOut none none, world)
  let (json, world) := world.alloc .json
  let (ret, handle) ← jsonParseText jsonNew text.bytes text.bytes.length
  if ret ≠ retOk ∨ ¬ steps.parse then return (.failOut (some json) none, world)
  let buffer ← localMetaNvramNew (metaNvramSize handle)
  if ¬ steps.metaNvram then return (.failOut (some json) none, world)
  let (metaNvram, world) := world.alloc (.buffer buffer)
  let (ret, buffer) ← fillMeta steps handle buffer
  let world ← world.write metaNvram (.buffer buffer)
  if ret = retFail then return (.failOut (some json) (some metaNvram), world)
  let (nvram, world) ← localNvramNew steps buffer world
  return (.stores metaNvram nvram, world)

/-- `ezcfg_del`; waiting does not change the counter. -/
def ezcfgDel (steps : Steps) (ezcfg : Ptr) (world : World) : Option (Int × World) := do
  ensure (world.thisEzcfg = some ezcfg)
  if ¬ steps.lock then return (retFail, world)
  if world.refCounter ≠ 1 then return (retFail, world)
  let block ← world.heap.read ezcfg
  match block with
  | .context metaNvram nvram => do
    let world := { world with refCounter := world.refCounter - 1, thisEzcfg := none }
    let world ← match nvram with
      | some ram => do
        let _ ← RamNvram.localNvramDel ram
        some { world with thisNvram := false }
      | none => some world
    let world ← world.free metaNvram
    let world ← world.free (some ezcfg)
    return (if steps.unlock then retOk else retFail, world)
  | _ => none

/-- `fail_out` -/
def failOut (steps : Steps) (ezcfg : Ptr) (json metaNvram : Option Ptr) (world : World) :
    Option (Option Ptr × World) := do
  let world ← world.free json
  let world ← world.free metaNvram
  let world ← world.write ezcfg (.context metaNvram none)
  let (_, world) ← ezcfgDel steps ezcfg world
  return (none, world)

/-- `ezcfg_new`: the context it returns, and the memory it leaves. -/
def ezcfgNew (steps : Steps) (text : Option Text) (world : World) :
    Option (Option Ptr × World) := do
  ensure (world.thisEzcfg = none)
  if ¬ steps.context then return (none, world)
  let (ezcfg, world) := world.alloc (.context none none)
  if ¬ steps.lock ∨ world.refCounter ≠ 0 then return (none, ← world.free (some ezcfg))
  let world := { world with refCounter := world.refCounter + 1 }
  if ¬ steps.unlock then return (none, ← world.free (some ezcfg))
  match text with
  | none => return (some ezcfg, { world with thisEzcfg := some ezcfg })
  | some text =>
    let (filling, world) ← fillStores steps text world
    match filling with
    | .failOut json metaNvram => failOut steps ezcfg json metaNvram world
    | .stores metaNvram nvram =>
      let world ← world.write ezcfg (.context (some metaNvram) nvram)
      return (some ezcfg, { world with thisEzcfg := some ezcfg })

end Ezcfg.Context

import Ezcfg.Foundation.Cells
import Ezcfg.Foundation.RingBuffer
import Ezcfg.Foundation.Runs
import Ezcfg.Values
import Mathlib.Data.List.Basic

/-!
# The queue of market data

The shared memory has a circular queue of units of one size. Its head, its tail and the
number of its free units are kept apart from the memory that has the units. Attaching that
memory, getting memory for what is handed out and writing to a file can fail; what becomes
of them is said with each call. A failed assertion and a place outside the memory have no
result. Counters and sizes are those of a memory that exists, so their arithmetic is that of
the naturals.
-/

namespace Ezcfg.Shm

open Foundation

/-- `ezcfg_shm`, and the memory of its queue. -/
structure EzcfgShm where
  shmId : Int
  memory : List UInt8
  cqUnitSize : Nat
  cqLength : Nat
  cqFree : Nat
  cqHead : Nat
  cqTail : Nat
deriving DecidableEq

/-- Whether `shmat` gives the memory of the queue. -/
def shmat (shm : EzcfgShm) (attach : Bool) : Bool := attach && shm.shmId ≠ -1

/-- The loop of `ezcfg_shm_insert_ezctp_market_data` from a unit on, with the turns that
are left. -/
def copyIn (data : List UInt8) (size : Nat) : Nat → Nat → EzcfgShm → Option EzcfgShm
  | 0, _, shm => some shm
  | turns + 1, i, shm => do
    let src ← ByteArea.readAt data (i * size) size
    let memory ← ByteArea.write shm.memory (shm.cqTail * shm.cqUnitSize) src
    copyIn data size turns (i + 1)
      { shm with memory, cqTail := (shm.cqTail + 1) % shm.cqLength }

/-- `ezcfg_shm_insert_ezctp_market_data` -/
def insertMarketData (attach : Bool) (shm : EzcfgShm) (data : List UInt8) (n size : Nat) :
    Option (Bool × EzcfgShm) := do
  ensure (n > 0)
  ensure (size > 0)
  if shm.cqFree ≥ n ∧ shm.shmId ≠ -1 then
    if shmat shm attach then
      let shm ← copyIn data size n 0 shm
      return (true, { shm with cqFree := shm.cqFree - n })
    else return (false, shm)
  else return (false, shm)

/-- The loop of `ezcfg_shm_remove_ezctp_market_data`: what it copies, unit by unit. -/
def copyOut (size : Nat) : Nat → EzcfgShm → Option (List (List UInt8) × EzcfgShm)
  | 0, shm => some ([], shm)
  | turns + 1, shm => do
    let src ← ByteArea.readAt shm.memory (shm.cqHead * shm.cqUnitSize) size
    let (others, shm) ← copyOut size turns
      { shm with cqHead := (shm.cqHead + 1) % shm.cqLength }
    return (src :: others, shm)

/-- `ezcfg_shm_remove_ezctp_market_data`; `output` says whether `data` is not NULL, `memory`
whether `malloc` grants the place for it. Gives the units that are handed out, which stand
one behind the other in that place. -/
def removeMarketData (attach memory output : Bool) (shm : EzcfgShm) :
    Option (Bool × List (List UInt8) × EzcfgShm) :=
  let n := shm.cqLength - shm.cqFree
  let size := shm.cqUnitSize
  if size * n > 0 then
    if shmat shm attach then
      if output then
        if memory then do
          let (data, shm) ← copyOut size n shm
          return (true, data, { shm with cqFree := shm.cqFree + n })
        else some (false, [], shm)
      else some (true, [], { shm with cqHead := shm.cqTail, cqFree := shm.cqFree + n })
    else some (false, [], shm)
  else some (false, [], shm)

/-- The loop of `ezcfg_shm_save_ezctp_market_data`: whether it ends, and what it writes. So
many writes succeed as `writes` says. -/
def writeOut (size : Nat) : Nat → Nat → EzcfgShm → Option (Bool × List (List UInt8) × EzcfgShm)
  | 0, _, shm => some (true, [], shm)
  | turns + 1, writes, shm => do
    let src ← ByteArea.readAt shm.memory (shm.cqHead * shm.cqUnitSize) size
    match writes with
    | 0 => return (false, [], shm)
    | writes + 1 =>
      let (ended, others, shm) ← writeOut size turns writes
        { shm with cqHead := (shm.cqHead + 1) % shm.cqLength, cqFree := shm.cqFree + 1 }
      return (ended, src :: others, shm)

/-- `ezcfg_shm_save_ezctp_market_data` -/
def saveMarketData (attach : Bool) (writes : Nat) (shm : EzcfgShm) (size : Nat) (flag : UInt32) :
    Option (Bool × List (List UInt8) × EzcfgShm) := do
  ensure (size > 0)
  let n := shm.cqLength - shm.cqFree
  if flag &&& 0 = flag then
    if shmat shm attach then writeOut size n writes shm else return (false, [], shm)
  else return (false, [], shm)

/-- A call, with what becomes of the calls it makes. -/
inductive Op where
  | insert (attach : Bool) (data : List UInt8) (n size : Nat)
  | remove (attach memory output : Bool)
  | save (attach : Bool) (writes size : Nat) (flag : UInt32)
deriving DecidableEq

/-- A call that saves. -/
def Op.saves : Op → Bool
  | .save _ _ _ _ => true
  | _ => false

/-- What a call answers, and the units that are handed out or written by it. -/
structure Answer where
  flag : Bool
  units : List (List UInt8)
deriving DecidableEq

/-- One call. -/
def step (shm : EzcfgShm) : Op → Option (Answer × EzcfgShm)
  | .insert attach data n size => do
    let (flag, shm) ← insertMarketData attach shm data n size
    return (⟨flag, []⟩, shm)
  | .remove attach memory output => do
    let (flag, units, shm) ← removeMarketData attach memory output shm
    return (⟨flag, units⟩, shm)
  | .save attach writes size flag => do
    let (flag, units, shm) ← saveMarketData attach writes shm size flag
    return (⟨flag, units⟩, shm)

/-- The queue as it is set up, with the memory for it. -/
def start (shmId : Int) (memory : List UInt8) (unitSize length : Nat) : EzcfgShm where
  shmId := shmId
  memory := memory
  cqUnitSize := unitSize
  cqLength := length
  cqFree := length
  cqHead := 0
  cqTail := 0

end Ezcfg.Shm

import Mathlib.Data.List.Basic

/-!
# CRC-32 with a table

The table is computed for each call. An entry is the remainder of its reflected place,
reflected again.
-/

namespace Ezcfg.Util

/-- The loop of `crc32_reflect`, with the turns that are left. -/
def reflectTurns : Nat → UInt32 → UInt32 → UInt32
  | 0, _, value => value
  | turns + 1, data, value =>
    let value := if data &&& 1 ≠ 0 then value ||| (1 : UInt32) <<< UInt32.ofNat turns else value
    reflectTurns turns (data >>> 1) value

/-- `crc32_reflect` -/
def crc32Reflect (data : UInt32) (bits : Nat) : UInt32 := reflectTurns bits data 0

/-- `CRC32_POLYNOMIAL` -/
def crc32Polynomial : UInt32 := 0x04c11db7

/-- The inner loop of `crc32_init_table`. -/
def remainderTurns : Nat → UInt32 → UInt32
  | 0, entry => entry
  | turns + 1, entry =>
    remainderTurns turns
      ((entry <<< 1) ^^^ (if entry &&& (1 : UInt32) <<< (31 : UInt32) ≠ 0 then crc32Polynomial else 0))

/-- An entry of the table that `crc32_init_table` makes. -/
def crc32Table (i : UInt32) : UInt32 :=
  crc32Reflect (remainderTurns 8 (crc32Reflect i 8 <<< 24)) 32

/-- `crc32_calc` -/
def crc32Calc (crc : UInt32) (data : List UInt8) : UInt32 :=
  data.foldl (fun crc byte => (crc >>> 8) ^^^ crc32Table ((crc &&& 0xff) ^^^ byte.toUInt32)) crc

/-- `ezcfg_util_crc32` -/
def crc32 (data : List UInt8) : UInt32 := crc32Calc 0xffffffff data ^^^ 0xffffffff

/-- The check value of the nine digits. -/
example : crc32 [0x31, 0x32, 0x33, 0x34, 0x35, 0x36, 0x37, 0x38, 0x39] = 0xcbf43926 := by
  decide +kernel

end Ezcfg.Util

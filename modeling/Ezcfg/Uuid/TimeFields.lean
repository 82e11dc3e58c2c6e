import Ezcfg.Foundation.Hexadecimal
import Ezcfg.Values

/-!
# The time in a UUID

`gen_uuid_v1` cuts the time since 1582, in steps of 100 ns, into three fields, and
`ezcfg_uuid_export_str` prints them. On the target a long has 32 bits, so the product of the seconds
and the sum with the microseconds are formed in 32 bits, before the offset makes them wider; they
wrap around. What `random` and `rand` give is a parameter.
-/

namespace Ezcfg.Uuid

open Foundation Foundation.Hexadecimal
open Foundation.Chunked (hexNumber)

/-- `struct timeval` -/
structure Timeval where
  tvSec : Int32
  tvUsec : Int32

/-- `struct ezcfg_uuid`; of the union the address for version 1. -/
structure EzcfgUuid where
  version : Int
  timeLow : UInt32
  timeMid : UInt16
  timeHiAndVersion : UInt16
  clockSeqLow : UInt8
  clockSeqHiAndReserved : UInt8
  node : Fin 6 → UInt8
  mac : Fin 6 → UInt8

/-- What the calls of the system give; without a time `gettimeofday` fails. -/
structure Environment where
  gettimeofday : Option Timeval
  random : Fin 6 → UInt32
  rand : UInt32

/-- `UUID_TIMEOFFSET` -/
def uuidTimeoffset : Int64 := 0x01B21DD213814000

/-- `EZCFG_UUID_STRING_LEN` -/
def uuidStringLen : Nat := 36

/-- "-" -/
abbrev dash : UInt8 := 0x2d

/-- The count that the fields are made of. -/
def timestamp (timeNow : Timeval) : UInt64 :=
  ((timeNow.tvSec * 10000000 + timeNow.tvUsec * 10).toInt64 + uuidTimeoffset).toUInt64

/-- `ezcfg_uuid_v1_enforce_multicast_mac` -/
def enforceMulticastMac (uuid : EzcfgUuid) (random : Fin 6 → UInt32) : EzcfgUuid :=
  if uuid.version ≠ 1 then uuid
  else { uuid with mac := fun i =>
    let byte := (random i &&& 0xff).toUInt8
    if i = 0 then byte ||| 0x03 else byte }

/-- `gen_uuid_v1`; no state of a generator is ever stored. -/
def genUuidV1 (env : Environment) (uuid : EzcfgUuid) : Bool × EzcfgUuid :=
  match env.gettimeofday with
  | none => (false, uuid)
  | some timeNow =>
    let ts := timestamp timeNow
    let uuid := enforceMulticastMac uuid env.random
    let clockSeq := env.rand
    (true, { uuid with
      timeLow := (ts &&& 0xffffffff).toUInt32
      timeMid := ((ts >>> 32) &&& 0xffff).toUInt16
      timeHiAndVersion := ((ts >>> 48) &&& 0x0fff).toUInt16 ||| ((1 : UInt16) <<< 12)
      clockSeqLow := (clockSeq &&& 0xff).toUInt8
      clockSeqHiAndReserved := ((clockSeq &&& 0x3f00) >>> 8).toUInt8 ||| 0x80
      node := uuid.mac })

/-- The text that `snprintf` formats. -/
def exportText (uuid : EzcfgUuid) : List UInt8 :=
  padded 8 uuid.timeLow.toNat ++ dash :: padded 4 uuid.timeMid.toNat ++
    dash :: padded 4 uuid.timeHiAndVersion.toNat ++
    dash :: padded 2 uuid.clockSeqHiAndReserved.toNat ++ padded 2 uuid.clockSeqLow.toNat ++
    dash :: (List.ofFn fun i => padded 2 (uuid.node i).toNat).flatten

/-- `ezcfg_uuid_export_str`, with the string in the buffer. -/
def ezcfgUuidExportStr (uuid : EzcfgUuid) (len : Int) : Option (Bool × List UInt8) := do
  ensure (len > uuidStringLen)
  let text := exportText uuid
  return (text.length = uuidStringLen, text.take uuidStringLen)

/-! ## Reading a UUID -/

/-- The time in three fields. -/
def assemble (timeLow timeMid timeHi : Nat) : Nat := timeLow + 2 ^ 32 * timeMid + 2 ^ 48 * timeHi

/-- The time that the fields hold, without the version. -/
def storedTime (uuid : EzcfgUuid) : Nat :=
  assemble uuid.timeLow.toNat uuid.timeMid.toNat (uuid.timeHiAndVersion.toNat % 2 ^ 12)

/-- The third field of a text. -/
def printedHi (text : List UInt8) : Nat := hexNumber ((text.drop 14).take 4)

/-- The time that a text holds, without the version. -/
def printedTime (text : List UInt8) : Nat :=
  assemble (hexNumber (text.take 8)) (hexNumber ((text.drop 9).take 4)) (printedHi text % 2 ^ 12)

/-- The clock has been set after 1970, and counts microseconds. -/
def Timeval.Valid (timeNow : Timeval) : Prop :=
  0 ≤ timeNow.tvSec.toInt ∧ 0 ≤ timeNow.tvUsec.toInt ∧ timeNow.tvUsec.toInt < 1000000

/-- The steps of 100 ns since 1970. -/
def Timeval.steps (timeNow : Timeval) : Int :=
  timeNow.tvSec.toInt * 10000000 + timeNow.tvUsec.toInt * 10

/-- A clock value is earlier than another. -/
def Timeval.Before (first second : Timeval) : Prop :=
  first.tvSec.toInt < second.tvSec.toInt ∨
    first.tvSec.toInt = second.tvSec.toInt ∧ first.tvUsec.toInt < second.tvUsec.toInt

/-- The fields and the text of a UUID hold the time of the clock. -/
def CarriesTime (env : Environment) (timeNow : Timeval) (uuid : EzcfgUuid) : Prop :=
  ∃ after text, genUuidV1 { env with gettimeofday := some timeNow } uuid = (true, after) ∧
    ezcfgUuidExportStr after 37 = some (true, text) ∧ text.length = uuidStringLen ∧
    after.timeHiAndVersion.toNat / 2 ^ 12 = 1 ∧ printedHi text / 2 ^ 12 = 1 ∧
    (storedTime after : Int) = timeNow.steps + 0x01B21DD213814000 ∧
    (printedTime text : Int) = timeNow.steps + 0x01B21DD213814000

/-! ## The fields -/

/-- A number of 32 bits is the conversion of what it was formed from. -/
theorem bmod_eq (n : Int) : n.bmod (2 ^ 32) = toInt32 n := by
  rw [Int.bmod_eq_iff (by decide), toInt32]
  refine ⟨by omega, by omega, ?_⟩
  omega

/-- The count is the offset with the steps as a long holds them. -/
theorem timestamp_toNat (timeNow : Timeval) :
    ((timestamp timeNow).toNat : Int) = toInt32 timeNow.steps + 0x01B21DD213814000 := by
  have sum : (timeNow.tvSec * 10000000 + timeNow.tvUsec * 10).toInt = toInt32 timeNow.steps := by
    rw [Int32.toInt_add, Int32.toInt_mul, Int32.toInt_mul, Int.bmod_add_bmod, Int.add_bmod_bmod,
      bmod_eq]
    rfl
  have bounds : -2 ^ 31 ≤ toInt32 timeNow.steps ∧ toInt32 timeNow.steps < 2 ^ 31 := by
    unfold toInt32
    omega
  have wide : ((timeNow.tvSec * 10000000 + timeNow.tvUsec * 10).toInt64 + uuidTimeoffset).toInt =
      toInt32 timeNow.steps + 0x01B21DD213814000 := by
    have offset : uuidTimeoffset.toInt = 0x01B21DD213814000 := by decide
    rw [Int64.toInt_add, Int32.toInt_toInt64, sum, offset]
    apply Int.bmod_eq_of_le
    · omega
    · omega
  have positive : 0 ≤ (timeNow.tvSec * 10000000 + timeNow.tvUsec * 10).toInt64 + uuidTimeoffset := by
    rw [Int64.le_iff_toInt_le, wide]
    exact Int.le_of_lt (by have : (0 : Int64).toInt = 0 := rfl; omega)
  rw [timestamp, Int64.toNat_toUInt64_of_le positive, Int64.toNatClampNeg, wide]
  omega

/-- The low field. -/
theorem timeLow_toNat (ts : UInt64) : (ts &&& 0xffffffff).toUInt32.toNat = ts.toNat % 2 ^ 32 := by
  rw [UInt64.toNat_toUInt32, UInt64.toNat_and]
  have mask : (0xffffffff : UInt64).toNat = 2 ^ 32 - 1 := rfl
  rw [mask, Nat.and_two_pow_sub_one_eq_mod, Nat.mod_mod]

/-- The middle field. -/
theorem timeMid_toNat (ts : UInt64) :
    ((ts >>> 32) &&& 0xffff).toUInt16.toNat = ts.toNat / 2 ^ 32 % 2 ^ 16 := by
  rw [UInt64.toNat_toUInt16, UInt64.toNat_and, UInt64.toNat_shiftRight]
  have mask : (0xffff : UInt64).toNat = 2 ^ 16 - 1 := rfl
  have shift : (32 : UInt64).toNat % 64 = 32 := rfl
  rw [mask, shift, Nat.and_two_pow_sub_one_eq_mod, Nat.mod_mod, Nat.shiftRight_eq_div_pow]

/-- The high field, with the version. -/
theorem timeHi_toNat (ts : UInt64) :
    (((ts >>> 48) &&& 0x0fff).toUInt16 ||| ((1 : UInt16) <<< 12)).toNat =
      ts.toNat / 2 ^ 48 % 2 ^ 12 + 2 ^ 12 := by
  have mask : (0x0fff : UInt64).toNat = 2 ^ 12 - 1 := rfl
  have shift : (48 : UInt64).toNat % 64 = 48 := rfl
  have version : ((1 : UInt16) <<< 12).toNat = 2 ^ 12 * 1 := rfl
  have small : ts.toNat / 2 ^ 48 % 2 ^ 12 < 2 ^ 12 := Nat.mod_lt _ (by decide)
  rw [UInt16.toNat_or, UInt64.toNat_toUInt16, UInt64.toNat_and, UInt64.toNat_shiftRight, mask, shift,
    version, Nat.and_two_pow_sub_one_eq_mod, Nat.shiftRight_eq_div_pow,
    Nat.mod_eq_of_lt (Nat.lt_trans small (by decide)), Nat.or_comm,
    ← Nat.two_pow_add_eq_or_of_lt small 1]
  omega
/-- The three fields are the lowest 60 bits. -/
theorem assemble_eq (n : Nat) :
    assemble (n % 2 ^ 32) (n / 2 ^ 32 % 2 ^ 16) (n / 2 ^ 48 % 2 ^ 12) = n % 2 ^ 60 := by
  rw [assemble]
  omega

/-! ## The text -/

/-- The digits of a number of some bits. -/
theorem padded_small {n width : Nat} (positive : 0 < width) (small : n < 2 ^ (4 * width)) :
    (padded width n).length = width ∧ hexNumber (padded width n) = n := by
  have room : n < 16 ^ width := by
    rw [Nat.pow_mul] at small
    exact small
  exact ⟨padded_length positive room, hexNumber_padded positive room⟩

/-- The text has the three fields of the time in front. -/
theorem exportText_front (uuid : EzcfgUuid) : (exportText uuid).length = uuidStringLen ∧
    hexNumber ((exportText uuid).take 8) = uuid.timeLow.toNat ∧
    hexNumber (((exportText uuid).drop 9).take 4) = uuid.timeMid.toNat ∧
    printedHi (exportText uuid) = uuid.timeHiAndVersion.toNat := by
  obtain ⟨low, lowValue⟩ := padded_small (show 0 < 8 by decide) uuid.timeLow.toNat_lt
  obtain ⟨mid, midValue⟩ := padded_small (show 0 < 4 by decide) uuid.timeMid.toNat_lt
  obtain ⟨hi, hiValue⟩ := padded_small (show 0 < 4 by decide) uuid.timeHiAndVersion.toNat_lt
  have byte : ∀ b : UInt8, (padded 2 b.toNat).length = 2 := fun b =>
    (padded_small (show 0 < 2 by decide) b.toNat_lt).1
  have whole : exportText uuid = padded 8 uuid.timeLow.toNat ++ ([dash] ++
      (padded 4 uuid.timeMid.toNat ++ ([dash] ++ (padded 4 uuid.timeHiAndVersion.toNat ++
        (dash :: padded 2 uuid.clockSeqHiAndReserved.toNat ++ padded 2 uuid.clockSeqLow.toNat ++
          dash :: (List.ofFn fun i => padded 2 (uuid.node i).toNat).flatten))))) := by
    simp [exportText]
  refine ⟨?_, ?_, ?_, ?_⟩
  · rw [whole]
    simp [low, mid, hi, byte, uuidStringLen]
  · rw [whole, List.take_append_of_le_length (by omega), List.take_of_length_le (by omega), lowValue]
  · have cut : (exportText uuid).drop 9 = padded 4 uuid.timeMid.toNat ++ ([dash] ++
        (padded 4 uuid.timeHiAndVersion.toNat ++
          (dash :: padded 2 uuid.clockSeqHiAndReserved.toNat ++ padded 2 uuid.clockSeqLow.toNat ++
            dash :: (List.ofFn fun i => padded 2 (uuid.node i).toNat).flatten))) := by
      rw [whole, ← List.append_assoc]
      exact List.drop_left' (by simp [low])
    rw [cut, List.take_append_of_le_length (by omega), List.take_of_length_le (by omega), midValue]
  · have cut : (exportText uuid).drop 14 = padded 4 uuid.timeHiAndVersion.toNat ++
        (dash :: padded 2 uuid.clockSeqHiAndReserved.toNat ++ padded 2 uuid.clockSeqLow.toNat ++
          dash :: (List.ofFn fun i => padded 2 (uuid.node i).toNat).flatten) := by
      rw [whole, ← List.append_assoc, ← List.append_assoc, ← List.append_assoc]
      exact List.drop_left' (by simp [low, mid])
    rw [printedHi, cut, List.take_append_of_le_length (by omega), List.take_of_length_le (by omega),
      hiValue]

/-- The text is exported whole. -/
theorem ezcfgUuidExportStr_eq (uuid : EzcfgUuid) :
    ezcfgUuidExportStr uuid 37 = some (true, exportText uuid) := by
  have length := (exportText_front uuid).1
  rw [ezcfgUuidExportStr, bind_of_some (ensure_of (by decide))]
  dsimp only
  rw [List.take_of_length_le (Nat.le_of_eq length), length]
  rfl

/-- The text holds the time of the fields. -/
theorem printedTime_eq (uuid : EzcfgUuid) : printedTime (exportText uuid) = storedTime uuid := by
  obtain ⟨-, low, mid, hi⟩ := exportText_front uuid
  rw [printedTime, storedTime, low, mid, hi]

/-- The fields that are generated hold the lowest 60 bits of the count, and the version. -/
theorem genUuidV1_fields (env : Environment) (timeNow : Timeval) (uuid : EzcfgUuid) :
    ∃ after, genUuidV1 { env with gettimeofday := some timeNow } uuid = (true, after) ∧
      storedTime after = (timestamp timeNow).toNat % 2 ^ 60 ∧
      after.timeHiAndVersion.toNat / 2 ^ 12 = 1 := by
  refine ⟨_, rfl, ?_, ?_⟩
  · rw [storedTime, timeLow_toNat, timeMid_toNat, timeHi_toNat, ← assemble_eq,
      Nat.add_mod_right, Nat.mod_mod]
  · rw [timeHi_toNat]
    omega

/-- The time that is generated, as a long holds the steps. -/
theorem storedTime_eq (env : Environment) (timeNow : Timeval) (uuid : EzcfgUuid) :
    ∃ after, genUuidV1 { env with gettimeofday := some timeNow } uuid = (true, after) ∧
      (storedTime after : Int) = toInt32 timeNow.steps + 0x01B21DD213814000 ∧
      after.timeHiAndVersion.toNat / 2 ^ 12 = 1 := by
  obtain ⟨after, done, stored, version⟩ := genUuidV1_fields env timeNow uuid
  refine ⟨after, done, ?_, version⟩
  have count := timestamp_toNat timeNow
  have bounds : -2 ^ 31 ≤ toInt32 timeNow.steps ∧ toInt32 timeNow.steps < 2 ^ 31 := by
    unfold toInt32
    omega
  rw [stored]
  omega

/-- A UUID carries the time exactly while the steps fit in a long; and while they do, a later
clock gives a larger time. -/
theorem carriesTime_iff {timeNow : Timeval} (valid : timeNow.Valid) (env : Environment)
    (uuid : EzcfgUuid) :
    (CarriesTime env timeNow uuid ↔ timeNow.steps < 2 ^ 31) ∧
    ∀ (earlier : Timeval) (env' : Environment) (uuid' : EzcfgUuid), earlier.Valid →
      earlier.Before timeNow → timeNow.steps < 2 ^ 31 →
      storedTime (genUuidV1 { env' with gettimeofday := some earlier } uuid').2 <
        storedTime (genUuidV1 { env with gettimeofday := some timeNow } uuid).2 := by
  obtain ⟨low, usecLow, usecHigh⟩ := valid
  obtain ⟨after, done, stored, version⟩ := storedTime_eq env timeNow uuid
  have steps : 0 ≤ timeNow.steps := by
    rw [Timeval.steps]
    omega
  constructor
  · constructor
    · rintro ⟨other, text, made, -, -, -, -, whole, -⟩
      obtain rfl : after = other := (Prod.mk.inj (done.symm.trans made)).2
      rw [stored] at whole
      unfold toInt32 at whole
      omega
    · intro fits
      rw [toInt32_of_range (by omega) fits] at stored
      refine ⟨after, exportText after, done, ezcfgUuidExportStr_eq after,
        (exportText_front after).1, version, ?_, stored, ?_⟩
      · rw [(exportText_front after).2.2.2, version]
      · rw [printedTime_eq, stored]
  · rintro earlier env' uuid' ⟨low', usecLow', usecHigh'⟩ before fits
    obtain ⟨after', done', stored', -⟩ := storedTime_eq env' earlier uuid'
    have smaller : 0 ≤ earlier.steps ∧ earlier.steps < timeNow.steps := by
      rw [Timeval.steps, Timeval.steps]
      rcases before with sooner | ⟨same, sooner⟩
      · omega
      · omega
    rw [toInt32_of_range (by omega) fits] at stored
    rw [toInt32_of_range (by omega) (by omega)] at stored'
    rw [done, done']
    dsimp only
    omega

/-- A new UUID of version 1. -/
def newUuid : EzcfgUuid := ⟨1, 0, 0, 0, 0, 0, fun _ => 0, fun _ => 0⟩

/-- No call gives anything but zeros. -/
def zeros : Environment := ⟨none, fun _ => 0, 0⟩

/-- The first second of 2020. -/
def newYear : Timeval := ⟨1577836800, 0⟩

/-- A second after the epoch. -/
def firstSecond : Timeval := ⟨1, 0⟩

/-- A second after the epoch is carried. -/
theorem carriesTime_iff_first :
    (CarriesTime zeros firstSecond newUuid ↔ firstSecond.steps < 2 ^ 31) ∧
    ∀ (earlier : Timeval) (env' : Environment) (uuid' : EzcfgUuid), earlier.Valid →
      earlier.Before firstSecond → firstSecond.steps < 2 ^ 31 →
      storedTime (genUuidV1 { env' with gettimeofday := some earlier } uuid').2 <
        storedTime (genUuidV1 { zeros with gettimeofday := some firstSecond } newUuid).2 :=
  carriesTime_iff (show firstSecond.Valid by rw [Timeval.Valid]; decide) zeros newUuid

/-- The year 2020 is not. -/
theorem not_carriesTime : ¬ ∀ (env : Environment) (timeNow : Timeval) (uuid : EzcfgUuid),
    timeNow.Valid → CarriesTime env timeNow uuid := by
  intro carries
  obtain ⟨other, text, made, -, -, -, -, whole, -⟩ :=
    carries zeros newYear newUuid (by rw [Timeval.Valid]; decide)
  obtain ⟨after, done, stored, -⟩ := storedTime_eq zeros newYear newUuid
  obtain rfl : after = other := (Prod.mk.inj (done.symm.trans made)).2
  rw [stored] at whole
  exact absurd whole (by decide)

end Ezcfg.Uuid

import Mathlib.Algebra.GroupWithZero.Nat
import Mathlib.Data.List.TakeWhile
import Ezcfg.Foundation.CString

/-!
# Bounded areas of bytes

An area is a list of bytes of fixed length. Reading a terminated string, writing
bytes and moving a block have a result only inside the area, so a result is a
proof that nothing outside was touched. The lemmas state each access on an area
cut at the places it touches; `pack` is a sequence of terminated strings laid out
one behind the other.
-/

namespace Foundation.ByteArea

/-- The terminated string that starts at a position, without its terminator. It
has no value when the area ends before a terminator. -/
def stringAt (area : List UInt8) (p : Nat) : Option (List UInt8) :=
  let s := (area.drop p).takeWhile (· ≠ 0)
  if s.length < (area.drop p).length then some s else none

/-- Write bytes at a position. -/
def write (area : List UInt8) (p : Nat) (bytes : List UInt8) : Option (List UInt8) :=
  if p + bytes.length ≤ area.length then
    some (area.take p ++ bytes ++ area.drop (p + bytes.length))
  else none

/-- Move a block inside the area; source and target may overlap. A negative count
is a huge one to the callee. -/
def memmove (area : List UInt8) (target source : Nat) (count : Int) : Option (List UInt8) :=
  if 0 ≤ count ∧ source + count.toNat ≤ area.length then
    write area target ((area.drop source).take count.toNat)
  else none

/-- Terminated strings one behind the other. -/
def pack (strings : List (List UInt8)) : List UInt8 := strings.flatMap (· ++ [0])

/-- The strings at the start of an area, up to the first empty one. The fuel bounds
their number. -/
def unpack : Nat → List UInt8 → List (List UInt8)
  | 0, _ => []
  | fuel + 1, area =>
    let s := area.takeWhile (· ≠ 0)
    if s = [] then [] else s :: unpack fuel (area.drop (s.length + 1))

@[simp] theorem pack_nil : pack [] = [] := rfl

@[simp] theorem pack_cons (s : List UInt8) (rest : List (List UInt8)) :
    pack (s :: rest) = s ++ 0 :: pack rest := by
  simp [pack]

@[simp] theorem pack_append (first second : List (List UInt8)) :
    pack (first ++ second) = pack first ++ pack second := List.flatMap_append

/-- Every string takes its bytes and a terminator. -/
theorem pack_length (strings : List (List UInt8)) :
    (pack strings).length = (strings.map fun s => s.length + 1).sum := by
  induction strings with
  | nil => rfl
  | cons s rest inductionHypothesis =>
    rw [pack_cons, List.length_append, List.length_cons, inductionHypothesis, List.map_cons,
      List.sum_cons]
    omega

/-- A string ends at the first terminator. -/
theorem takeWhile_nonul (s after : List UInt8) (nonul : (0 : UInt8) ∉ s) :
    (s ++ 0 :: after).takeWhile (· ≠ 0) = s := by
  have kept : ∀ byte ∈ s, decide (byte ≠ 0) = true := by
    intro byte member
    rw [decide_eq_true_eq]
    rintro rfl
    exact nonul member
  rw [List.takeWhile_append_of_pos kept]
  simp

/-- The string between a position and its terminator is read there. -/
theorem stringAt_between (before s after : List UInt8) (nonul : (0 : UInt8) ∉ s) :
    stringAt (before ++ s ++ 0 :: after) before.length = some s := by
  have dropped : (before ++ s ++ 0 :: after).drop before.length = s ++ 0 :: after := by simp
  rw [stringAt, dropped, takeWhile_nonul s after nonul, if_pos (by simp)]

/-- What stands terminated at the front of an area is the string there. -/
theorem stringAt_front {text area : List UInt8} (nonul : (0 : UInt8) ∉ text)
    (front : text ++ [0] <+: area) : stringAt area 0 = some text := by
  obtain ⟨tail, rfl⟩ := front
  have read := stringAt_between [] text tail nonul
  rw [List.nil_append, List.length_nil] at read
  rw [List.append_assoc]
  exact read

/-- Packed strings are found again at the start of the area. -/
theorem unpack_pack (strings : List (List UInt8)) (junk : List UInt8) (fuel : Nat)
    (proper : ∀ s ∈ strings, s ≠ [] ∧ (0 : UInt8) ∉ s) (enough : strings.length < fuel) :
    unpack fuel (pack strings ++ 0 :: junk) = strings := by
  induction strings generalizing fuel with
  | nil =>
    obtain _ | fuel := fuel
    · cases enough
    · simp [unpack]
  | cons s rest inductionHypothesis =>
    obtain _ | fuel := fuel
    · cases enough
    · obtain ⟨nonempty, nonul⟩ := proper s List.mem_cons_self
      have taken := takeWhile_nonul s (pack rest ++ 0 :: junk) nonul
      have area : pack (s :: rest) ++ 0 :: junk = s ++ 0 :: (pack rest ++ 0 :: junk) := by simp
      have dropped : (s ++ 0 :: (pack rest ++ 0 :: junk)).drop (s.length + 1) =
          pack rest ++ 0 :: junk := by
        rw [← List.drop_drop, List.drop_left]
        rfl
      rw [area, unpack, taken, if_neg nonempty, dropped,
        inductionHypothesis fuel (fun t member => proper t (List.mem_cons_of_mem _ member))
          (Nat.lt_of_succ_lt_succ enough)]

/-- What is read is followed by a terminator and contains none. -/
theorem stringAt_eq_some {area s : List UInt8} {p : Nat} (found : stringAt area p = some s) :
    (0 : UInt8) ∉ s ∧ ∃ after, area.drop p = s ++ 0 :: after := by
  simp only [stringAt] at found
  split at found
  · rename_i shorter
    obtain rfl := Option.some.inj found
    refine ⟨fun member => by simpa using List.mem_takeWhile_imp member, ?_⟩
    have parts := List.takeWhile_append_dropWhile (p := (· ≠ (0 : UInt8))) (l := area.drop p)
    cases rest : (area.drop p).dropWhile (· ≠ 0) with
    | nil =>
      rw [rest, List.append_nil] at parts
      rw [parts] at shorter
      exact absurd shorter (Nat.lt_irrefl _)
    | cons byte after =>
      have stopped := List.head?_dropWhile_not (· ≠ (0 : UInt8)) (area.drop p)
      rw [rest] at stopped
      obtain rfl : byte = 0 := by simpa using stopped
      exact ⟨after, by rw [← rest, parts]⟩
  · cases found

/-- Writing over as many bytes replaces them. -/
theorem write_between (before old bytes after : List UInt8) (same : old.length = bytes.length) :
    write (before ++ old ++ after) before.length bytes = some (before ++ bytes ++ after) := by
  have room : before.length + bytes.length ≤ (before ++ old ++ after).length := by
    simp only [List.length_append]
    omega
  have split : before.length + bytes.length = (before ++ old).length := by
    rw [List.length_append, same]
  rw [write, if_pos room, split, List.drop_left, List.append_assoc before old after,
    List.take_left]

/-- What is in front of a written place stays. -/
theorem write_front {area bytes after front : List UInt8} {p : Nat} (isFront : front <+: area)
    (before : front.length ≤ p) (written : write area p bytes = some after) : front <+: after := by
  obtain ⟨tail, rfl⟩ := isFront
  simp only [write] at written
  split at written
  · obtain rfl := Option.some.inj written
    rw [List.take_append, List.take_of_length_le before, List.append_assoc, List.append_assoc]
    exact List.prefix_append _ _
  · cases written

/-- What is written behind the front of an area is behind it. -/
theorem write_behind {area bytes after front : List UInt8} (isFront : front <+: area)
    (written : write area front.length bytes = some after) : front ++ bytes <+: after := by
  obtain ⟨tail, rfl⟩ := isFront
  simp only [write] at written
  split at written
  · obtain rfl := Option.some.inj written
    rw [List.take_left]
    exact List.prefix_append _ _
  · cases written

/-- An area keeps its length. -/
theorem write_length {area bytes after : List UInt8} {p : Nat}
    (written : write area p bytes = some after) : after.length = area.length := by
  simp only [write] at written
  split at written
  · obtain rfl := Option.some.inj written
    simp only [List.length_append, List.length_take, List.length_drop]
    omega
  · cases written

theorem memmove_length {area after : List UInt8} {target source : Nat} {count : Int}
    (moved : memmove area target source count = some after) : after.length = area.length := by
  simp only [memmove] at moved
  split at moved
  · exact write_length moved
  · cases moved

/-- Moving a block down over a gap closes the gap and leaves a hole behind the block; what
follows stays at its place. -/
theorem memmove_down (before gap moved after : List UInt8) :
    ∃ hole, memmove (before ++ gap ++ moved ++ after) before.length
        (before.length + gap.length) moved.length = some (before ++ moved ++ hole ++ after) ∧
      hole.length = gap.length := by
  refine ⟨(gap ++ moved).drop moved.length, ?_, ?_⟩
  · have source : (before ++ gap ++ moved ++ after).drop (before.length + gap.length) =
        moved ++ after := by
      rw [← List.length_append, List.append_assoc _ moved after, List.drop_left]
    have room : before.length + gap.length + moved.length ≤
        (before ++ gap ++ moved ++ after).length := by
      simp only [List.length_append]
      omega
    have target : before.length + moved.length ≤ (before ++ gap ++ moved ++ after).length := by
      simp only [List.length_append]
      omega
    have rest : (before ++ gap ++ moved ++ after).drop (before.length + moved.length) =
        (gap ++ moved).drop moved.length ++ after := by
      rw [List.append_assoc before, List.append_assoc before, ← List.drop_drop, List.drop_left,
        List.drop_append_of_le_length (by rw [List.length_append]; omega)]
    have kept : (before ++ gap ++ moved ++ after).take before.length = before := by
      rw [List.append_assoc, List.append_assoc, List.take_left]
    rw [memmove, if_pos ⟨Int.natCast_nonneg _, by simpa only [Int.toNat_natCast] using room⟩,
      source, Int.toNat_natCast, List.take_left, write, if_pos target, rest, kept,
      ← List.append_assoc]
  · simp only [List.length_drop, List.length_append]
    omega

/-- Moving a block up into spare bytes opens a hole in front of it. -/
theorem memmove_up (before moved spare after : List UInt8) :
    ∃ hole, memmove (before ++ moved ++ spare ++ after) (before.length + spare.length)
        before.length moved.length = some (before ++ hole ++ moved ++ after) ∧
      hole.length = spare.length := by
  refine ⟨(moved ++ spare).take spare.length, ?_, ?_⟩
  · have source : (before ++ moved ++ spare ++ after).drop before.length =
        moved ++ (spare ++ after) := by
      rw [List.append_assoc, List.append_assoc, List.drop_left]
    have room : before.length + moved.length ≤ (before ++ moved ++ spare ++ after).length := by
      simp only [List.length_append]
      omega
    have target : before.length + spare.length + moved.length ≤
        (before ++ moved ++ spare ++ after).length := by
      simp only [List.length_append]
      omega
    have rest : (before ++ moved ++ spare ++ after).drop
        (before.length + spare.length + moved.length) = after := by
      have total : before.length + spare.length + moved.length =
          (before ++ moved ++ spare).length := by
        simp only [List.length_append]
        omega
      rw [total, List.drop_left]
    have kept : (before ++ moved ++ spare ++ after).take (before.length + spare.length) =
        before ++ (moved ++ spare).take spare.length := by
      rw [List.append_assoc, List.append_assoc, ← List.append_assoc moved spare after,
        List.take_length_add_append]
      congr 1
      exact List.take_append_of_le_length (by rw [List.length_append]; omega)
    rw [memmove, if_pos ⟨Int.natCast_nonneg _, by simpa only [Int.toNat_natCast] using room⟩,
      source, Int.toNat_natCast, List.take_left, write, if_pos target, rest, kept]
  · simp only [List.length_take, List.length_append]
    omega

end Foundation.ByteArea

import Mathlib.Order.Lattice
import Mathlib.Algebra.Group.Nat.Defs
import Mathlib.Algebra.Group.Int.Defs
import Mathlib.Data.List.Basic

/-!
# Byte strings compared as C compares them

A C string is the bytes before its terminator: no byte is zero, and the string
with its terminator fits in one object of a target whose object sizes are below
`2 ^ 31`. Comparison is bytewise and unsigned, and a proper prefix is smaller,
because the terminator is smaller than any byte of the longer string.

The comparison is a linear order on C strings; the length-limited comparison is
the same comparison of the two truncated strings.
-/

namespace Foundation

/-- A nul-terminated string, without its terminator. -/
structure CString where
  bytes : List UInt8
  nonul : (0 : UInt8) ∉ bytes
  short : bytes.length + 1 < 2 ^ 31
deriving DecidableEq, Repr

/-- The sign of `strcmp` on the bytes before the two terminators. -/
def strcmp : List UInt8 → List UInt8 → Ordering
  | [], [] => .eq
  | [], _ :: _ => .lt
  | _ :: _, [] => .gt
  | a :: as, b :: bs => if a < b then .lt else if b < a then .gt else strcmp as bs

/-- The sign of `strncmp`: at most `n` bytes of each string are looked at. -/
def strncmp : Nat → List UInt8 → List UInt8 → Ordering
  | 0, _, _ => .eq
  | _ + 1, [], [] => .eq
  | _ + 1, [], _ :: _ => .lt
  | _ + 1, _ :: _, [] => .gt
  | n + 1, a :: as, b :: bs =>
    if a < b then .lt else if b < a then .gt else strncmp n as bs

/-- Two bytes neither of which is below the other are equal. -/
theorem byte_eq_of_not_lt {a b : UInt8} (notBelow : ¬ a < b) (notAbove : ¬ b < a) : a = b :=
  UInt8.le_antisymm (UInt8.not_lt.mp notAbove) (UInt8.not_lt.mp notBelow)

/-- A string compares equal exactly to itself. -/
theorem strcmp_eq_iff (a b : List UInt8) : strcmp a b = .eq ↔ a = b := by
  induction a generalizing b with
  | nil => cases b <;> simp [strcmp]
  | cons first rest inductionHypothesis =>
    cases b with
    | nil => simp [strcmp]
    | cons other tail =>
      by_cases below : first < other
      · simp [strcmp, below, UInt8.ne_of_lt below]
      · by_cases above : other < first
        · have different : first ≠ other := (UInt8.ne_of_lt above).symm
          simp [strcmp, below, above, different]
        · have same : first = other := byte_eq_of_not_lt below above
          subst same
          simp [strcmp, below, inductionHypothesis]

/-- Every string compares equal to itself. -/
@[simp] theorem strcmp_self (a : List UInt8) : strcmp a a = .eq := (strcmp_eq_iff a a).mpr rfl

/-- Exchanging the arguments exchanges the sign. -/
theorem strcmp_swap (a b : List UInt8) : (strcmp a b).swap = strcmp b a := by
  induction a generalizing b with
  | nil => cases b <;> rfl
  | cons first rest inductionHypothesis =>
    cases b with
    | nil => rfl
    | cons other tail =>
      by_cases below : first < other
      · have notAbove : ¬ other < first := UInt8.not_lt.mpr (UInt8.le_of_lt below)
        simp [strcmp, below, notAbove]
      · by_cases above : other < first
        · simp [strcmp, below, above]
        · simp [strcmp, below, above, inductionHypothesis]

/-- One string is above another exactly when the other is below it. -/
theorem strcmp_gt_iff (a b : List UInt8) : strcmp a b = .gt ↔ strcmp b a = .lt := by
  rw [← strcmp_swap a b]
  cases strcmp a b <;> decide

/-- Being below is transitive. The first byte at which the outer strings differ
is the first one at which either inner pair does. -/
theorem strcmp_lt_trans (a b c : List UInt8) (first : strcmp a b = .lt)
    (second : strcmp b c = .lt) : strcmp a c = .lt := by
  induction a generalizing b c with
  | nil =>
    cases c with
    | nil => cases b <;> simp [strcmp] at second
    | cons => rfl
  | cons x xs inductionHypothesis =>
    cases b with
    | nil => simp [strcmp] at first
    | cons y ys =>
      cases c with
      | nil => simp [strcmp] at second
      | cons z zs =>
        simp only [strcmp] at first second ⊢
        split_ifs at first second ⊢ <;> grind

namespace CString

instance : Coe CString (List UInt8) := ⟨CString.bytes⟩

/-- `strlen`. -/
def length (s : CString) : Nat := s.bytes.length

/-- The string of one byte. -/
def single (byte : UInt8) (nonzero : byte ≠ 0) : CString :=
  ⟨[byte], by simpa using nonzero.symm, by simp⟩

/-- The string of given bytes, if there is one. -/
def ofBytes (bytes : List UInt8) : Option CString :=
  if good : (0 : UInt8) ∉ bytes ∧ bytes.length + 1 < 2 ^ 31 then some ⟨bytes, good.1, good.2⟩
  else none

/-- The bytes of a string are those of that string. -/
theorem ofBytes_bytes (s : CString) : ofBytes s.bytes = some s := by
  rw [ofBytes, dif_pos ⟨s.nonul, s.short⟩]

theorem ext {s t : CString} (same : s.bytes = t.bytes) : s = t := by
  cases s
  cases t
  simpa using same

theorem ext_iff {s t : CString} : s = t ↔ s.bytes = t.bytes := ⟨fun same => same ▸ rfl, ext⟩

/-- C strings are linearly ordered by `strcmp`. -/
instance : LinearOrder CString where
  le s t := strcmp s t ≠ .gt
  lt s t := strcmp s t = .lt
  le_refl s := by simp
  le_trans s t u first second above := by
    have below : strcmp u s = .lt := (strcmp_gt_iff _ _).mp above
    cases upper : strcmp t u with
    | lt => exact first ((strcmp_gt_iff _ _).mpr (strcmp_lt_trans _ _ _ upper below))
    | eq =>
      rw [(strcmp_eq_iff _ _).mp upper] at first
      exact first above
    | gt => exact second upper
  lt_iff_le_not_ge s t := by
    rw [ne_eq, ne_eq, not_not, strcmp_gt_iff t s]
    cases compared : strcmp s t <;> simp
  le_antisymm s t first second := by
    apply ext
    cases compared : strcmp s t with
    | lt => exact absurd ((strcmp_gt_iff _ _).mpr compared) second
    | eq => exact (strcmp_eq_iff _ _).mp compared
    | gt => exact absurd compared first
  le_total s t := by
    rw [ne_eq, ne_eq, strcmp_gt_iff t s]
    cases compared : strcmp s t <;> simp
  toDecidableLE s t := inferInstanceAs (Decidable (strcmp s t ≠ .gt))
  toDecidableLT s t := inferInstanceAs (Decidable (strcmp s t = .lt))
  toDecidableEq := inferInstance

theorem lt_iff {s t : CString} : s < t ↔ strcmp s t = .lt := Iff.rfl

theorem gt_iff {s t : CString} : t < s ↔ strcmp s t = .gt := (strcmp_gt_iff _ _).symm

theorem eq_iff {s t : CString} : s = t ↔ strcmp s t = .eq :=
  ext_iff.trans (strcmp_eq_iff _ _).symm

end CString

/-- The length-limited comparison is the comparison of the two truncations. -/
theorem strncmp_eq_take (n : Nat) (a b : List UInt8) :
    strncmp n a b = strcmp (a.take n) (b.take n) := by
  induction n generalizing a b with
  | zero => simp [strncmp]
  | succ n inductionHypothesis =>
    cases a <;> cases b <;> simp [strncmp, strcmp, inductionHypothesis]

/-- Comparing the whole of `a` with as many bytes of `b` finds no difference
exactly when `b` starts with `a`. -/
theorem strncmp_length_eq_iff (a b : List UInt8) :
    strncmp a.length a b = .eq ↔ a <+: b := by
  rw [strncmp_eq_take, List.take_length, strcmp_eq_iff, List.prefix_iff_eq_take]

end Foundation

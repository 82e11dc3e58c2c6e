import Mathlib.Algebra.Group.Nat.Defs
import Mathlib.Algebra.Group.Int.Defs

/-!
# Return codes and C integers

Functions of the library answer with a code that is an int; a code is zero on
success and minus one on failure. The int of the target is 32 bits wide:
`toInt32` is the conversion of a mathematical integer to it.
-/

namespace Ezcfg

/-- `EZCFG_RET_OK` -/
def retOk : Int := 0

/-- `EZCFG_RET_FAIL` -/
def retFail : Int := -1

/-- The int that has the given value modulo `2 ^ 32`. -/
def toInt32 (n : Int) : Int := (n + 2 ^ 31) % 2 ^ 32 - 2 ^ 31

/-- Signed arithmetic that leaves the range of int has no result. -/
def checkedInt (n : Int) : Option Int := if -2 ^ 31 ≤ n ∧ n < 2 ^ 31 then some n else none

/-- The value of an int after it has been stored in a bool. -/
def toBool (n : Int) : Int := if n = 0 then 0 else 1

/-- `ASSERT`; a run whose assertion fails has no result. -/
def ensure (condition : Prop) [Decidable condition] : Option Unit :=
  if condition then some () else none

/-- A value in the range of int is converted to itself. -/
theorem toInt32_of_range {n : Int} (low : -2 ^ 31 ≤ n) (high : n < 2 ^ 31) : toInt32 n = n := by
  unfold toInt32
  omega

/-- Arithmetic that stays in the range of int has its result. -/
theorem checkedInt_of_range {n : Int} (low : 0 ≤ n) (high : n < 2 ^ 31) : checkedInt n = some n := by
  have lower : (-2 ^ 31 : Int) ≤ n := by omega
  rw [checkedInt, if_pos ⟨lower, high⟩]

/-- An assertion that holds is passed. -/
theorem ensure_of {condition : Prop} [Decidable condition] (holds : condition) :
    ensure condition = some () := if_pos holds

/-- A computation that has a result goes on with it. -/
theorem bind_of_some {α β : Type} {first : Option α} {a : α} {next : α → Option β}
    (found : first = some a) : (first >>= next) = next a := by
  rw [found]
  rfl

end Ezcfg

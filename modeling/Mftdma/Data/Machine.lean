import Mathlib.Algebra.Ring.Int.Defs
import Mathlib.Algebra.Ring.Nat

/-!
# Arithmetic of `int`

A sum, a difference or a product of 32 bits keeps its value as long as the value is in the
range of `int`; beyond the range it wraps. `int32` is the wrapped value, so a computation is
exact where `int32` can be taken away.
-/

namespace Mftdma.Machine

/-- What an `int` holds after arithmetic on 32 bits. -/
def int32 (x : ℤ) : ℤ := x.bmod (2 ^ 32)

variable {x y : ℤ}

theorem int32_eq (low : -2 ^ 31 ≤ x) (high : x < 2 ^ 31) : int32 x = x :=
  Int.bmod_eq_of_le (by omega) (by omega)

theorem int32_of_lt (low : 0 ≤ x) (high : x < 2 ^ 31) : int32 x = x :=
  int32_eq (by omega) high

theorem int32_zero : int32 0 = 0 := rfl

theorem int32_lt (x : ℤ) : int32 x < 2 ^ 31 := Int.bmod_lt (by decide)

theorem le_int32 (x : ℤ) : -2 ^ 31 ≤ int32 x := Int.le_bmod (by decide)

theorem int32_add (x y : ℤ) : int32 (int32 x + y) = int32 (x + y) :=
  Int.bmod_add_bmod ..

theorem int32_add_int32 (x y : ℤ) : int32 (int32 x + int32 y) = int32 (x + y) := by
  rw [int32_add, Int.add_comm, int32_add, Int.add_comm]

/-- A sum beyond the range of `int` comes out negative. -/
theorem int32_neg (low : 2 ^ 31 ≤ x) (high : x < 2 ^ 32) : int32 x < 0 := by
  have wrapped : int32 x = x - 2 ^ 32 := by
    rw [int32, ← Int.sub_bmod_right]
    exact Int.bmod_eq_of_le (by omega) (by omega)
  omega

end Mftdma.Machine

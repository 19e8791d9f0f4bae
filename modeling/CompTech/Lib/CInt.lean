import Mathlib

/-!
# The type int

`asInt v` is the number `v` converted to a 32-bit `int`: the one number of that type that differs
from `v` by a multiple of 2³². It is what an implicit conversion of a `long` or a `size_t` stores,
and what an overflow comes to where arithmetic wraps.
-/

namespace Lib

/-- The largest `int`. -/
def INT_MAX : Int := 2 ^ 31 - 1

/-- What an integer is as an `int`: it wraps, as conversions do where they are used. -/
def asInt (v : Int) : Int := (v + 2 ^ 31) % 2 ^ 32 - 2 ^ 31

theorem asInt_range (v : Int) : -2 ^ 31 ≤ asInt v ∧ asInt v < 2 ^ 31 := by
  unfold asInt
  omega

theorem asInt_add_mul (v : Int) : ∃ q, v = asInt v + 2 ^ 32 * q :=
  ⟨(v + 2 ^ 31) / 2 ^ 32, by unfold asInt; omega⟩

/-- A conversion keeps the numbers of the type, and no others. -/
theorem asInt_eq_self_iff {v : Int} : asInt v = v ↔ -2 ^ 31 ≤ v ∧ v < 2 ^ 31 := by
  unfold asInt
  omega

end Lib

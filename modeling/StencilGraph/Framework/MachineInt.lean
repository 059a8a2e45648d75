import Mathlib.Data.Int.Order.Basic
import Mathlib.Tactic.Ring
import Mathlib.Tactic.Linarith

namespace StencilGraph.Framework

/-- Conversion to the 64-bit `size_t`. -/
def sizeT (z : Int) : Nat := (z % 2^64).toNat

/-- Conversion to the 32-bit signed `int`; an out-of-range value wraps. -/
def int32 (z : Int) : Int := z.bmod (2^32)

/-- The value of a 64-bit signed computation; an overflow wraps. -/
def int64 (z : Int) : Int := z.bmod (2^64)

theorem int64_of_range (z : Int) (h0 : -2^63 ≤ z) (h : z < 2^63) : int64 z = z := by
  unfold int64
  rw [Int.bmod_eq_of_le] <;> omega

theorem sizeT_natCast (n : Nat) (h : n < 2^64) : sizeT n = n := by
  unfold sizeT
  omega

theorem sizeT_of_nonneg (z : Int) (h0 : 0 ≤ z) (h : z < 2^64) : (sizeT z : Int) = z := by
  unfold sizeT
  omega

theorem int32_of_small (z : Int) (h0 : 0 ≤ z) (h : z < 2^31) : int32 z = z := by
  unfold int32
  rw [Int.bmod_eq_of_le] <;> omega

section Wrap

variable (x y : Int)

theorem int32_int32_add : int32 (int32 x + y) = int32 (x + y) := Int.bmod_add_bmod

theorem int32_add_int32 : int32 (x + int32 y) = int32 (x + y) := Int.add_bmod_bmod

theorem int32_int32_sub : int32 (int32 x - y) = int32 (x - y) := Int.bmod_sub_bmod

theorem int32_int32_mul : int32 (int32 x * y) = int32 (x * y) := Int.bmod_mul_bmod

theorem int32_mul_int32 : int32 (x * int32 y) = int32 (x * y) := Int.mul_bmod_bmod

theorem int32_range : -2^31 ≤ int32 x ∧ int32 x < 2^31 := by
  have hmod := Int.emod_nonneg x (by decide : (2^32 : Int) ≠ 0)
  have hlt := Int.emod_lt_of_pos x (by decide : (0 : Int) < 2^32)
  unfold int32
  rw [Int.bmod_def]
  omega

theorem int32_of_wrapped (h0 : 2^31 ≤ x) (h : x < 2^32) : int32 x < 0 := by
  unfold int32
  rw [Int.bmod_def]
  omega

end Wrap

/-- The smallest multiple of `a` that is at least `x`. -/
def roundUp (x a : Int) : Int := (x + a - 1) / a * a

theorem le_roundUp (x a : Int) (ha : 0 < a) : x ≤ roundUp x a := by
  have hd := Int.emod_add_mul_ediv (x + a - 1) a
  have hm := Int.emod_lt_of_pos (x + a - 1) ha
  unfold roundUp
  rw [mul_comm]
  omega

theorem roundUp_nonneg (x a : Int) (ha : 0 < a) (hx : 0 ≤ x) : 0 ≤ roundUp x a :=
  hx.trans (le_roundUp x a ha)

theorem roundUp_lt (x a : Int) (ha : 0 < a) : roundUp x a < x + a := by
  have hd := Int.emod_add_mul_ediv (x + a - 1) a
  have hm := Int.emod_nonneg (x + a - 1) ha.ne'
  unfold roundUp
  rw [mul_comm]
  omega

end StencilGraph.Framework

import Mathlib.Algebra.Order.Ring.Int
import Mathlib.Algebra.Order.Ring.Nat
import Mathlib.Data.Nat.Log
import Mathlib.Tactic.Linarith
import Mathlib.Tactic.Common

namespace StencilGraph.Framework

/-- The double next to the natural number `m`: 53 significant bits, ties to even. A value with a
binary fraction is scaled to an integer first, so the exponent is taken to be in range. -/
def roundDouble (m : Nat) : Nat :=
  let shift := m.log2 - 52
  let q := m / 2 ^ shift
  let r := m % 2 ^ shift
  if 2 ^ shift < 2 * r ∨ 2 * r = 2 ^ shift ∧ q % 2 = 1 then (q + 1) * 2 ^ shift else q * 2 ^ shift

/-- The rounding error is at most half of a unit in the last place. -/
theorem roundDouble_near (m : Nat) :
    2 * m ≤ 2 * roundDouble m + 2 ^ (m.log2 - 52) ∧
      2 * roundDouble m ≤ 2 * m + 2 ^ (m.log2 - 52) := by
  unfold roundDouble
  generalize m.log2 - 52 = shift
  have hdiv := Nat.div_add_mod m (2 ^ shift)
  have hlt := Nat.mod_lt m (Nat.two_pow_pos shift)
  rw [Nat.mul_comm] at hdiv
  simp only
  split_ifs with h
  · rw [Nat.add_mul, Nat.one_mul]
    omega
  · omega

theorem roundDouble_of_lt {m : Nat} (h : m < 2 ^ 53) : roundDouble m = m := by
  have hshift : m.log2 - 52 = 0 := by
    rcases Nat.eq_zero_or_pos m with rfl | hpos
    · rfl
    · have hlog := (Nat.log2_lt (by omega)).mpr h
      omega
  unfold roundDouble
  rw [hshift]
  simp [Nat.mod_one]

/-- Either the value is exact or the error is at most one part in `2 ^ 53`. -/
theorem roundDouble_bounds (m : Nat) :
    m * (2 ^ 53 - 1) ≤ roundDouble m * 2 ^ 53 ∧ roundDouble m * 2 ^ 53 ≤ m * (2 ^ 53 + 1) := by
  by_cases h : m < 2 ^ 53
  · rw [roundDouble_of_lt h]
    omega
  · obtain ⟨hlow, hhigh⟩ := roundDouble_near m
    have hne : m ≠ 0 := by omega
    have hlog : 53 ≤ m.log2 := (Nat.le_log2 hne).mpr (by omega)
    have hself : 2 ^ m.log2 ≤ m := Nat.log2_self_le hne
    have hpow : 2 ^ (m.log2 - 52) * 2 ^ 52 = 2 ^ m.log2 := by
      rw [← Nat.pow_add, Nat.sub_add_cancel (by omega)]
    generalize 2 ^ (m.log2 - 52) = unit at hlow hhigh hpow
    omega

end StencilGraph.Framework

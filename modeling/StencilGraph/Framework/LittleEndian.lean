import Mathlib.Algebra.Order.Ring.Int
import Mathlib.Data.List.Basic
import Mathlib.Tactic.Common

namespace StencilGraph.Framework

/-- The low `width` bytes of `n`, the lowest first. -/
def littleEndian : Nat → Nat → List UInt8
  | 0, _ => []
  | width + 1, n => UInt8.ofNat n :: littleEndian width (n / 256)

/-- The number whose bytes are given, the lowest first. -/
def ofLittleEndian : List UInt8 → Nat
  | [] => 0
  | b :: bytes => b.toNat + 256 * ofLittleEndian bytes

@[simp] theorem littleEndian_length (width n : Nat) : (littleEndian width n).length = width := by
  induction width generalizing n with
  | zero => rfl
  | succ width ih => rw [littleEndian, List.length_cons, ih]

theorem ofLittleEndian_littleEndian (width n : Nat) :
    ofLittleEndian (littleEndian width n) = n % 256 ^ width := by
  induction width generalizing n with
  | zero => exact (Nat.mod_one n).symm
  | succ width ih =>
    have hlow : (UInt8.ofNat n).toNat = n % 256 := UInt8.toNat_ofNat'
    rw [littleEndian, ofLittleEndian, ih, hlow, pow_succ', Nat.mod_mul]

theorem ofLittleEndian_eq_zero {bytes : List UInt8} (h : ofLittleEndian bytes = 0) :
    bytes = List.replicate bytes.length 0 := by
  induction bytes with
  | nil => rfl
  | cons b bytes ih =>
    rw [ofLittleEndian] at h
    have hb : b = 0 := by
      apply UInt8.toNat.inj
      show b.toNat = 0
      omega
    have hrest := ih (by omega)
    rw [List.length_cons, List.replicate_succ, ← hrest, hb]

end StencilGraph.Framework

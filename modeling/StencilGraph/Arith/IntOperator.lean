import Mathlib
import StencilGraph.Framework.Corners
import StencilGraph.Framework.MachineInt

namespace StencilGraph.Arith
open Set Framework

/-- `WillOverflow<AddNode>`. -/
def willOverflowAdd (x y minValue maxValue : Int) : Bool :=
  (y > 0 ∧ x > maxValue - y) ∨ (y < 0 ∧ x < minValue - y)

/-- `WillOverflow<MulNode>`. -/
def willOverflowMul (x y minValue maxValue : Int) : Bool :=
  if y = 0 then false
  else if y > 0 then x < minValue.tdiv y ∨ x > maxValue.tdiv y
  else (y = -1 ∧ x = -2^63) ∨ x > minValue.tdiv y ∨ x < maxValue.tdiv y

def floordiv (x y : Int) : Int :=
  let rdiv := x.tdiv y
  let rmod := x.tmod y
  if (y ≥ 0 ∧ rmod ≥ 0) ∨ (y < 0 ∧ rmod ≤ 0) then rdiv else rdiv - 1

theorem natAbs_tmod_lt (a : Int) {b : Int} (hb : b ≠ 0) : (a.tmod b).natAbs < b.natAbs := by
  rw [Int.natAbs_tmod]
  exact Nat.mod_lt _ (by omega)

section Euclid

-- what becomes of a sum, difference or product: `id` when the arithmetic is unbounded
variable (num : Int → Int)

/-- The loop of `ExtendedEuclidean`; returns `old_r` and `old_s`. -/
def euclidLoop (r oldR s oldS : Int) : Int × Int :=
  if h : r = 0 then (oldR, oldS)
  else
    let q := oldR.tdiv r
    -- the remainder is smaller than `r`
    euclidLoop (oldR - q * r) r (num (oldS - num (q * s))) s
termination_by r.natAbs
decreasing_by
  have hmod := Int.tmod_add_mul_tdiv oldR r
  rw [show oldR - oldR.tdiv r * r = oldR.tmod r by rw [Int.mul_comm]; omega]
  exact natAbs_tmod_lt oldR h

/-- `ExtendedEuclidean`: the greatest common divisor with the coefficients `x` and `y`. -/
def extendedEuclidean (a b : Int) : Int × Int × Int :=
  let (oldR, oldS) := euclidLoop num b (if a ≥ 0 then a else num (-a)) 0 1
  let x := if a ≥ 0 then oldS else num (-oldS)
  let y := if b ≠ 0 then (num (oldR - num (x * a))).tdiv b else 1
  (oldR, x, y)

/-- The loop of `ZeroAwareGCD`, which starts with `b` other than 0. -/
def gcdLoop (a b : Int) : Int :=
  if h : b = 0 ∨ a.tmod b = 0 then b else gcdLoop b (a.tmod b)
termination_by b.natAbs
decreasing_by exact natAbs_tmod_lt a (by omega)

def zeroAwareGCD (a b : Int) : Int :=
  let a := if a < 0 then num (-a) else a
  let b := if b < 0 then num (-b) else b
  let (a, b) := if a < b then (b, a) else (a, b)
  if b = 0 then a else gcdLoop a b

end Euclid

theorem tmod_nonpos {x : Int} (y : Int) (hx : x ≤ 0) : x.tmod y ≤ 0 := by
  have h := Int.tmod_nonneg y (show 0 ≤ -x by omega)
  rw [Int.neg_tmod] at h
  omega

theorem floordiv_eq (x : Int) {y : Int} (hy : y ≠ 0) : floordiv x y = x.fdiv y := by
  have hzero : y ∣ x ↔ x.tmod y = 0 := Int.dvd_iff_tmod_eq_zero
  have hpos : 0 ≤ x → 0 ≤ x.tmod y := Int.tmod_nonneg y
  have hneg : x ≤ 0 → x.tmod y ≤ 0 := tmod_nonpos y
  unfold floordiv
  rw [Int.fdiv_eq_tdiv]
  by_cases hd : y ∣ x
  · have h0 := hzero.mp hd
    rw [if_pos hd, if_pos (by omega)]
    omega
  · have h0 := mt hzero.mpr hd
    rw [if_neg hd]
    by_cases hx : 0 ≤ x
    · rw [if_pos hx]
      by_cases h : 0 ≤ y
      · rw [if_pos h, if_pos (by omega)]
        omega
      · rw [if_neg h, if_neg (by omega)]
    · rw [if_neg hx]
      by_cases h : 0 ≤ y
      · rw [if_pos h, Int.sign_eq_one_of_pos (by omega), if_neg (by omega)]
      · rw [if_neg h, Int.sign_eq_neg_one_of_neg (by omega), if_pos (by omega)]
        omega

theorem ediv_anti_right {x y y' : Int} (hx : 0 ≤ x) (hy : 0 < y) (h : y ≤ y') :
    x / y' ≤ x / y := by
  rw [Int.le_ediv_iff_mul_le hy]
  calc x / y' * y ≤ x / y' * y' :=
        Int.mul_le_mul_of_nonneg_left h (Int.ediv_nonneg hx (by omega))
    _ ≤ x := Int.ediv_mul_le x (by omega)

theorem ediv_mono_right {x y y' : Int} (hx : x ≤ 0) (hy : 0 < y) (h : y ≤ y') :
    x / y ≤ x / y' := by
  have hq : x / y ≤ 0 := by
    rw [Int.ediv_le_iff_le_mul hy]
    omega
  rw [Int.le_ediv_iff_mul_le (by omega)]
  calc x / y * y' ≤ x / y * y := Int.mul_le_mul_of_nonpos_left hq h
    _ ≤ x := Int.ediv_mul_le x (by omega)

/-- What the two divisions have in common: monotonic in the dividend, of one direction in a divisor
that keeps its sign, and never larger than the dividend. -/
structure Quotient (q : Int → Int → Int) : Prop where
  mono : ∀ {x x' y : Int}, 0 < y → x ≤ x' → q x y ≤ q x' y
  anti : ∀ {x x' y : Int}, y < 0 → x ≤ x' → q x' y ≤ q x y
  pos : ∀ (x : Int) {a b : Int}, 0 < a → OneWay (q x) (Icc a b)
  neg : ∀ (x : Int) {a b : Int}, b < 0 → OneWay (q x) (Icc a b)
  bound : ∀ {x y n : Int}, y ≠ 0 → -n ≤ x → x ≤ n → -n ≤ q x y ∧ q x y ≤ n

/-- It is enough to know a division on positive divisors. -/
theorem Quotient.of_pos {q r : Int → Int → Int}
    (hneg : ∀ x y, 0 < y → q x (-y) = r x y)
    (hmono : ∀ {x x' y : Int}, 0 < y → x ≤ x' → q x y ≤ q x' y)
    (hanti : ∀ {x x' y : Int}, 0 < y → x ≤ x' → r x' y ≤ r x y)
    (hq : ∀ (x : Int) {a b : Int}, 0 < a → OneWay (q x) (Icc a b))
    (hr : ∀ (x : Int) {a b : Int}, 0 < a → OneWay (r x) (Icc a b))
    (hbound : ∀ {x y n : Int}, 0 < y → -n ≤ x → x ≤ n →
      (-n ≤ q x y ∧ q x y ≤ n) ∧ -n ≤ r x y ∧ r x y ≤ n) : Quotient q := by
  have hswap (x : Int) {y : Int} (hy : y < 0) : q x y = r x (-y) := by
    rw [← hneg x (-y) (by omega), Int.neg_neg]
  refine ⟨hmono, ?_, hq, ?_, ?_⟩
  · intro x x' y hy h
    rw [hswap x hy, hswap x' hy]
    exact hanti (by omega) h
  · intro x a b hb
    have hflip {y y' : Int} (hy : y ∈ Icc a b) (hy' : y' ∈ Icc a b) (h : y ≤ y') :
        -y ∈ Icc (-b) (-a) ∧ -y' ∈ Icc (-b) (-a) ∧ -y' ≤ -y := by
      simp only [mem_Icc] at hy hy' ⊢
      omega
    have hlt {y : Int} (hy : y ∈ Icc a b) : y < 0 := lt_of_le_of_lt hy.2 hb
    cases hr x (show 0 < -b by omega) (b := -a) with
    | inl h =>
      refine Or.inr fun y hy y' hy' hle => ?_
      obtain ⟨h₁, h₂, h₃⟩ := hflip hy hy' hle
      rw [hswap x (hlt hy), hswap x (hlt hy')]
      exact h h₂ h₁ h₃
    | inr h =>
      refine Or.inl fun y hy y' hy' hle => ?_
      obtain ⟨h₁, h₂, h₃⟩ := hflip hy hy' hle
      rw [hswap x (hlt hy), hswap x (hlt hy')]
      exact h h₂ h₁ h₃
  · intro x y n hy h₁ h₂
    by_cases h : 0 < y
    · exact (hbound h h₁ h₂).1
    · rw [hswap x (by omega)]
      exact (hbound (by omega) h₁ h₂).2

theorem ediv_bound {x y n : Int} (hy : 0 < y) (h₁ : -n ≤ x) (h₂ : x ≤ n) :
    -n ≤ x / y ∧ x / y ≤ n := by
  have hn : 0 ≤ n := by omega
  constructor
  · rw [Int.le_ediv_iff_mul_le hy]
    nlinarith
  · rw [Int.ediv_le_iff_le_mul hy]
    nlinarith

theorem ediv_oneWay (x : Int) {a b : Int} (ha : 0 < a) : OneWay (fun y => x / y) (Icc a b) := by
  by_cases hx : 0 ≤ x
  · refine Or.inr fun y hy y' _ h => ediv_anti_right hx (lt_of_lt_of_le ha hy.1) h
  · refine Or.inl fun y hy y' _ h => ediv_mono_right (by omega) (lt_of_lt_of_le ha hy.1) h

theorem tdiv_of_sign (x y : Int) :
    x.tdiv y = if 0 ≤ x then x / y else -(-x / y) := by
  split_ifs with hx
  · exact Int.tdiv_eq_ediv_of_nonneg hx
  · rw [← Int.tdiv_eq_ediv_of_nonneg (by omega), Int.neg_tdiv, Int.neg_neg]

theorem neg_antitone : Antitone fun x : Int => -x := fun _ _ h => Int.neg_le_neg h

theorem tdiv_quotient : Quotient Int.tdiv := by
  have hmono {x x' y : Int} (hy : 0 < y) (h : x ≤ x') : x.tdiv y ≤ x'.tdiv y := by
    rw [tdiv_of_sign, tdiv_of_sign]
    have h₁ := Int.ediv_le_ediv hy h
    have h₂ := Int.ediv_le_ediv hy (Int.neg_le_neg h)
    split_ifs with hx hx'
    · exact h₁
    · omega
    · have h₃ := Int.ediv_nonneg (show 0 ≤ -x by omega) hy.le
      have h₄ := Int.ediv_nonneg (show 0 ≤ x' by omega) hy.le
      omega
    · omega
  have honeWay (x : Int) {a b : Int} (ha : 0 < a) : OneWay x.tdiv (Icc a b) := by
    by_cases hx : 0 ≤ x
    · exact (ediv_oneWay x ha).congr fun y _ => by rw [tdiv_of_sign, if_pos hx]
    · exact ((ediv_oneWay (-x) ha).antitone_comp neg_antitone).congr fun y _ => by rw [tdiv_of_sign, if_neg hx]
  have hbound {x y n : Int} (hy : 0 < y) (h₁ : -n ≤ x) (h₂ : x ≤ n) :
      -n ≤ x.tdiv y ∧ x.tdiv y ≤ n := by
    rw [tdiv_of_sign]
    split_ifs with hx
    · exact ediv_bound hy h₁ h₂
    · have h := ediv_bound hy (show -n ≤ -x by omega) (by omega)
      omega
  apply Quotient.of_pos (r := fun x y => -(x.tdiv y))
  · intro x y _
    exact Int.tdiv_neg x y
  · exact hmono
  · intro x x' y hy h
    exact Int.neg_le_neg (hmono hy h)
  · exact honeWay
  · intro x a b ha
    exact (honeWay x ha).antitone_comp neg_antitone
  · intro x y n hy h₁ h₂
    have h := hbound hy h₁ h₂
    exact ⟨h, by omega, by omega⟩

theorem fdiv_quotient : Quotient Int.fdiv := by
  have hfdiv (x : Int) {y : Int} (hy : 0 < y) : x.fdiv y = x / y :=
    Int.fdiv_eq_ediv_of_nonneg x hy.le
  have honeWay (x : Int) {a b : Int} (ha : 0 < a) : OneWay x.fdiv (Icc a b) :=
    (ediv_oneWay x ha).congr fun y hy => hfdiv x (lt_of_lt_of_le ha hy.1)
  apply Quotient.of_pos (r := fun x y => (-x).fdiv y)
  · intro x y _
    rw [← Int.neg_fdiv_neg, Int.neg_neg]
  · intro x x' y hy h
    rw [hfdiv x hy, hfdiv x' hy]
    exact Int.ediv_le_ediv hy h
  · intro x x' y hy h
    rw [hfdiv (-x) hy, hfdiv (-x') hy]
    exact Int.ediv_le_ediv hy (Int.neg_le_neg h)
  · exact honeWay
  · intro x a b ha
    exact honeWay (-x) ha
  · intro x y n hy h₁ h₂
    rw [hfdiv x hy, hfdiv (-x) hy]
    exact ⟨ediv_bound hy h₁ h₂, ediv_bound hy (by omega) (by omega)⟩

end StencilGraph.Arith

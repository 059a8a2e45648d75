import StencilGraph.Arith.ConstIntBound
import StencilGraph.Framework.Ensures

namespace StencilGraph.Arith.ConstIntBoundAnalyzer
open Set Framework

/-- A finite value. -/
def Finite (v : Int) : Prop := kNegInf < v ∧ v < kPosInf

instance (v : Int) : Decidable (Finite v) := inferInstanceAs (Decidable (_ ∧ _))

def Entry.Contains (e : Entry) (v : Int) : Prop := e.minValue ≤ v ∧ v ≤ e.maxValue

/-- An entry between the infinities that contains a value. -/
structure Entry.Sound (e : Entry) (v : Int) : Prop where
  min_ge : kNegInf ≤ e.minValue
  min_le : e.minValue ≤ v
  le_max : v ≤ e.maxValue
  max_le : e.maxValue ≤ kPosInf

theorem Entry.Sound.contains {e : Entry} {v : Int} (h : e.Sound v) : e.Contains v :=
  ⟨h.min_le, h.le_max⟩

variable {a b : Entry} {j k v : Int} {dt : DataType}

theorem makeBound_sound {lo hi : Int} (h₁ : kNegInf ≤ lo) (h₂ : lo ≤ v) (h₃ : v ≤ hi)
    (h₄ : hi ≤ kPosInf) (hv : Finite v) : (makeBound lo hi).Sound v := by
  have hinf : kNegInf = -kPosInf ∧ kPosInf = 9223372036854775807 := ⟨rfl, rfl⟩
  obtain ⟨hv₁, hv₂⟩ := hv
  have hlo : lo ≠ kPosInf := by omega
  have hhi : hi ≠ kNegInf := by omega
  unfold makeBound
  rw [if_neg hlo, if_neg hhi]
  exact ⟨h₁, h₂, h₃, h₄⟩

theorem makeBound_contains {lo hi : Int} (h₁ : lo ≤ v) (h₂ : v ≤ hi) :
    (makeBound lo hi).Contains v := by
  unfold makeBound Entry.Contains
  split_ifs <;> simp only <;> omega

theorem union_sound (ha : kNegInf ≤ a.minValue ∧ a.maxValue ≤ kPosInf)
    (hb : kNegInf ≤ b.minValue ∧ b.maxValue ≤ kPosInf) (h : a.Contains v ∨ b.Contains v) :
    (union a b).Sound v := by
  obtain ⟨ha₁, ha₂⟩ := ha
  obtain ⟨hb₁, hb₂⟩ := hb
  unfold Entry.Contains at h
  refine ⟨?_, ?_, ?_, ?_⟩ <;> simp only [union] <;> omega

theorem intersect_sound (ha : a.Sound v) (hb : b.Contains v) : (intersect a b).Sound v := by
  obtain ⟨h₁, h₂, h₃, h₄⟩ := ha
  obtain ⟨h₅, h₆⟩ := hb
  refine ⟨?_, ?_, ?_, ?_⟩ <;> simp only [intersect] <;> omega

theorem two_pow_lt {n : Nat} (h : n < 63) : (2 : Int)^n ≤ 2^62 :=
  pow_le_pow_right₀ (by decide) (by omega)

theorem everything_sound (hint : dt.isInt = true) (hfits : dt.Fits v) (hv : Finite v) :
    (everything dt).Sound v := by
  have hcode : dt.code = .int := of_decide_eq_true hint
  have huint : dt.isUInt = false := by
    unfold DataType.isUInt
    rw [hcode]
    rfl
  unfold DataType.Fits at hfits
  rw [hcode] at hfits
  obtain ⟨hv₁, hv₂⟩ := hv
  unfold everything
  rw [if_neg (by simp only [hint, Bool.true_eq_false, false_and, not_false_eq_true])]
  simp only [hint, if_true, huint, Bool.false_eq_true, if_false]
  by_cases hbits : dt.bits - 1 ≥ 63
  · rw [if_pos hbits, if_pos hbits]
    exact ⟨le_refl _, hv₁.le, hv₂.le, le_refl _⟩
  · have hpow := two_pow_lt (show dt.bits - 1 < 63 by omega)
    have hinf : kNegInf = -9223372036854775807 ∧ kPosInf = 9223372036854775807 := ⟨rfl, rfl⟩
    rw [if_neg hbits, if_neg hbits]
    refine ⟨?_, hfits.1, ?_, ?_⟩ <;> simp only <;> omega

/-! ### Addition -/

/-- A sum of upper bounds is an upper bound of the sum. -/
theorem infAwareAdd_upper {x y : Int} (ha : kNegInf < j) (hb : kNegInf < k) (hx : j ≤ x)
    (hy : k ≤ y) (hx' : x ≤ kPosInf) (hy' : y ≤ kPosInf) (hv : kNegInf ≤ j + k)
    (hv' : j + k ≤ kPosInf) :
    ∃ r, infAwareAdd x y = .ok r ∧ j + k ≤ r ∧ r ≤ kPosInf := by
  have hinf : kNegInf = -9223372036854775807 ∧ kPosInf = 9223372036854775807 := ⟨rfl, rfl⟩
  unfold infAwareAdd
  by_cases hxp : x = kPosInf
  · rw [if_pos hxp, if_neg (by omega)]
    exact ⟨_, rfl, hv', le_refl _⟩
  rw [if_neg hxp, if_neg (by omega)]
  by_cases hyp : y = kPosInf ∨ y = kNegInf
  · rw [if_pos hyp]
    exact ⟨_, rfl, by omega, by omega⟩
  rw [if_neg hyp]
  unfold willOverflowAdd
  by_cases hover : (y > 0 ∧ x > kPosInf - y) ∨ (y < 0 ∧ x < kNegInf - y)
  · rw [if_pos (decide_eq_true hover), if_pos (by omega)]
    exact ⟨_, rfl, hv', le_refl _⟩
  · rw [if_neg (by rw [decide_eq_false hover]; exact Bool.false_ne_true)]
    exact ⟨_, rfl, by omega, by omega⟩

theorem infAwareAdd_lower {x y : Int} (ha : j < kPosInf) (hb : k < kPosInf) (hx : x ≤ j)
    (hy : y ≤ k) (hx' : kNegInf ≤ x) (hy' : kNegInf ≤ y) (hv : j + k ≤ kPosInf)
    (hv' : kNegInf ≤ j + k) :
    ∃ r, infAwareAdd x y = .ok r ∧ r ≤ j + k ∧ kNegInf ≤ r := by
  have hinf : kNegInf = -9223372036854775807 ∧ kPosInf = 9223372036854775807 := ⟨rfl, rfl⟩
  unfold infAwareAdd
  rw [if_neg (by omega)]
  by_cases hxn : x = kNegInf
  · rw [if_pos hxn, if_neg (by omega)]
    exact ⟨_, rfl, hv', le_refl _⟩
  rw [if_neg hxn]
  by_cases hyp : y = kPosInf ∨ y = kNegInf
  · rw [if_pos hyp]
    exact ⟨_, rfl, by omega, by omega⟩
  rw [if_neg hyp]
  unfold willOverflowAdd
  by_cases hover : (y > 0 ∧ x > kPosInf - y) ∨ (y < 0 ∧ x < kNegInf - y)
  · rw [if_pos (decide_eq_true hover), if_neg (by omega)]
    exact ⟨_, rfl, hv', le_refl _⟩
  · rw [if_neg (by rw [decide_eq_false hover]; exact Bool.false_ne_true)]
    exact ⟨_, rfl, by omega, by omega⟩

theorem visitAdd_sound (ha : a.Sound j) (hb : b.Sound k) (hva : Finite j) (hvb : Finite k)
    (hv : Finite (j + k)) : ∃ e, visitAdd a b = .ok e ∧ e.Sound (j + k) := by
  obtain ⟨lo, hlo, hlo₁, hlo₂⟩ := infAwareAdd_lower hva.2 hvb.2 ha.min_le hb.min_le ha.min_ge
    hb.min_ge hv.2.le hv.1.le
  obtain ⟨hi, hhi, hhi₁, hhi₂⟩ := infAwareAdd_upper hva.1 hvb.1 ha.le_max hb.le_max ha.max_le
    hb.max_le hv.1.le hv.2.le
  refine ⟨⟨lo, hi⟩, ?_, hlo₂, hlo₁, hhi₁, hhi₂⟩
  unfold visitAdd
  rw [hlo, hhi]
  rfl

/-- The entry of a negated value. -/
theorem neg_sound (hb : b.Sound k) (hvb : Finite k) :
    (⟨int64 (-b.maxValue), int64 (-b.minValue)⟩ : Entry).Sound (-k) := by
  have hinf : kNegInf = -9223372036854775807 ∧ kPosInf = 9223372036854775807 := ⟨rfl, rfl⟩
  obtain ⟨h₁, h₂, h₃, h₄⟩ := hb
  obtain ⟨h₅, h₆⟩ := hvb
  have hmax : int64 (-b.maxValue) = -b.maxValue := int64_of_range _ (by omega) (by omega)
  have hmin : int64 (-b.minValue) = -b.minValue := int64_of_range _ (by omega) (by omega)
  refine ⟨?_, ?_, ?_, ?_⟩ <;> simp only [hmax, hmin] <;> omega

theorem visitSub_sound (ha : a.Sound j) (hb : b.Sound k) (hva : Finite j) (hvb : Finite k)
    (hv : Finite (j - k)) : ∃ e, visitSub a b = .ok e ∧ e.Sound (j - k) := by
  have hneg : Finite (-k) := by
    have hinf : kNegInf = -kPosInf := rfl
    obtain ⟨h₁, h₂⟩ := hvb
    constructor <;> omega
  rw [Int.sub_eq_add_neg] at hv ⊢
  -- a difference is bounded as the sum with the negated entry
  exact visitAdd_sound ha (neg_sound hb hvb) hva hneg hv

/-! ### Multiplication and division -/

def clamp (z : Int) : Int := max kNegInf (min kPosInf z)

theorem clamp_monotone : Monotone clamp := by
  intro x y h
  unfold clamp
  omega

theorem clamp_range (z : Int) : kNegInf ≤ clamp z ∧ clamp z ≤ kPosInf := by
  have hinf : kNegInf = -9223372036854775807 ∧ kPosInf = 9223372036854775807 := ⟨rfl, rfl⟩
  unfold clamp
  omega

theorem willOverflowMul_iff (x y : Int) :
    willOverflowMul x y kNegInf kPosInf = true ↔ x * y < kNegInf ∨ kPosInf < x * y := by
  have hneg : kNegInf = -kPosInf := rfl
  have hpos : (0 : Int) ≤ kPosInf := by decide
  have htdiv (z : Int) : kPosInf.tdiv z = kPosInf / z := Int.tdiv_eq_ediv_of_nonneg hpos
  unfold willOverflowMul
  by_cases hy : y = 0
  · simp only [hy, if_true, Int.mul_zero, Bool.false_eq_true, false_iff]
    omega
  rw [if_neg hy]
  by_cases hy' : y > 0
  · rw [if_pos hy', hneg, Int.neg_tdiv, htdiv, decide_eq_true_iff]
    have h₁ := Int.ediv_lt_iff_lt_mul hy' (a := kPosInf) (b := x)
    have h₂ := Int.ediv_lt_iff_lt_mul hy' (a := kPosInf) (b := -x)
    rw [Int.neg_mul] at h₂
    omega
  · have hy'' : 0 < -y := by omega
    have hflip : kPosInf.tdiv y = -(kPosInf / -y) := by
      rw [← htdiv, Int.tdiv_neg, Int.neg_neg]
    rw [if_neg hy', hneg, Int.neg_tdiv, hflip, decide_eq_true_iff]
    have h₁ := Int.ediv_lt_iff_lt_mul hy'' (a := kPosInf) (b := x)
    have h₂ := Int.ediv_lt_iff_lt_mul hy'' (a := kPosInf) (b := -x)
    rw [Int.mul_neg] at h₁
    rw [Int.neg_mul_neg] at h₂
    have hmin : y = -1 ∧ x = -2^63 → kPosInf < x * y := by
      rintro ⟨rfl, rfl⟩
      decide
    omega

theorem infAwareMul_eq (x y : Int) : infAwareMul x y = .ok (clamp (x * y)) := by
  have hinf : kNegInf = -9223372036854775807 ∧ kPosInf = 9223372036854775807 := ⟨rfl, rfl⟩
  unfold infAwareMul clamp
  cases hover : willOverflowMul x y kNegInf kPosInf with
  | false =>
    have h := mt (willOverflowMul_iff x y).mpr (by rw [hover]; exact Bool.false_ne_true)
    rw [if_pos rfl]
    congr 1
    omega
  | true =>
    have h := (willOverflowMul_iff x y).mp hover
    rw [if_neg (by exact fun h => Bool.noConfusion h)]
    by_cases hsign : (x > 0 ∧ y > 0) ∨ (x < 0 ∧ y < 0)
    · have hpos : 0 < x * y := by
        rcases hsign with ⟨h₁, h₂⟩ | ⟨h₁, h₂⟩
        · exact Int.mul_pos h₁ h₂
        · exact Int.mul_pos_of_neg_of_neg h₁ h₂
      rw [if_pos hsign]
      congr 1
      omega
    · have hneg : x * y ≤ 0 := by
        rcases Int.lt_trichotomy x 0 with hx | rfl | hx
        · exact Int.mul_nonpos_of_nonpos_of_nonneg hx.le (by omega)
        · rw [Int.zero_mul]
        · exact Int.mul_nonpos_of_nonneg_of_nonpos hx.le (by omega)
      rw [if_neg hsign]
      congr 1
      omega

/-- The corners of a total operation. -/
theorem binaryOpBoundary_total {op : Int → Int → Except Check Int} {f : Int → Int → Int}
    (h : ∀ x y, (x = a.minValue ∨ x = a.maxValue) → (y = b.minValue ∨ y = b.maxValue) →
      op x y = .ok (f x y)) :
    binaryOpBoundary a b op = .ok
      ⟨min (min (min (f a.minValue b.minValue) (f a.maxValue b.maxValue)) (f a.minValue b.maxValue))
          (f a.maxValue b.minValue),
        max (max (max (f a.minValue b.minValue) (f a.maxValue b.maxValue)) (f a.minValue b.maxValue))
          (f a.maxValue b.minValue)⟩ := by
  unfold binaryOpBoundary
  rw [h _ _ (Or.inl rfl) (Or.inl rfl), h _ _ (Or.inr rfl) (Or.inr rfl), h _ _ (Or.inl rfl) (Or.inr rfl),
    h _ _ (Or.inr rfl) (Or.inl rfl)]
  rfl

theorem mul_oneWay_left (y : Int) (s : Set Int) : OneWay (fun x => x * y) s := by
  by_cases hy : 0 ≤ y
  · exact Or.inl fun x _ x' _ h => Int.mul_le_mul_of_nonneg_right h hy
  · exact Or.inr fun x _ x' _ h => Int.mul_le_mul_of_nonpos_right h (by omega)

theorem mul_oneWay_right (x : Int) (s : Set Int) : OneWay (fun y => x * y) s :=
  (mul_oneWay_left x s).congr fun y _ => Int.mul_comm x y

theorem visitMul_sound (ha : a.Sound j) (hb : b.Sound k) (hv : Finite (j * k)) :
    ∃ e, binaryOpBoundary a b infAwareMul = .ok e ∧ e.Sound (j * k) := by
  refine ⟨_, binaryOpBoundary_total fun x y _ _ => infAwareMul_eq x y, ?_⟩
  have hclamp : clamp (j * k) = j * k := by
    obtain ⟨h₁, h₂⟩ := hv
    unfold clamp
    omega
  obtain ⟨hmin, hmax⟩ := corners (f := fun x y => clamp (x * y)) ⟨ha.min_le, ha.le_max⟩
    ⟨hb.min_le, hb.le_max⟩ (fun y _ => (mul_oneWay_left y _).monotone_comp clamp_monotone)
    (fun x _ => (mul_oneWay_right x _).monotone_comp clamp_monotone)
  rw [hclamp] at hmin hmax
  have h₁ := clamp_range (a.minValue * b.minValue)
  have h₂ := clamp_range (a.maxValue * b.maxValue)
  have h₃ := clamp_range (a.minValue * b.maxValue)
  have h₄ := clamp_range (a.maxValue * b.minValue)
  exact ⟨by simp only [le_min_iff]; omega, hmin, hmax, by simp only [max_le_iff]; omega⟩

/-- The division of extended values by a nonzero divisor. -/
def extendedQuotient (q : Int → Int → Int) (x y : Int) : Int :=
  if x = kPosInf ∨ x = kNegInf then (if y > 0 then x else -x) else q x y

section Quotient

variable {q : Int → Int → Int} (hq : Quotient q)

include hq

theorem infAwareQuotient_eq {x y : Int} (hy : y ≠ 0) (h₁ : kNegInf ≤ x) (h₂ : x ≤ kPosInf) :
    infAwareQuotient q x y = .ok (extendedQuotient q x y) := by
  have hinf : kNegInf = -9223372036854775807 ∧ kPosInf = 9223372036854775807 := ⟨rfl, rfl⟩
  have hb := hq.bound hy h₁ h₂
  unfold infAwareQuotient extendedQuotient
  rw [if_neg hy]
  split_ifs
  · rfl
  · rfl
  · rw [int64_of_range _ (by omega) (by omega)]

theorem extendedQuotient_range {x y : Int} (hy : y ≠ 0) (h₁ : kNegInf ≤ x) (h₂ : x ≤ kPosInf) :
    kNegInf ≤ extendedQuotient q x y ∧ extendedQuotient q x y ≤ kPosInf := by
  have hinf : kNegInf = -9223372036854775807 ∧ kPosInf = 9223372036854775807 := ⟨rfl, rfl⟩
  have hb := hq.bound hy h₁ h₂
  unfold extendedQuotient
  split_ifs <;> omega

/-- The infinities are at the ends of both directions. -/
theorem extendedQuotient_left {y : Int} (hy : y ≠ 0) :
    OneWay (fun x => extendedQuotient q x y) (Icc kNegInf kPosInf) := by
  have hinf : kNegInf = -9223372036854775807 ∧ kPosInf = 9223372036854775807 := ⟨rfl, rfl⟩
  by_cases hpos : 0 < y
  · refine Or.inl fun x hx x' hx' h => ?_
    obtain ⟨h₁, h₂⟩ := hx
    obtain ⟨h₃, h₄⟩ := hx'
    have hb := hq.bound hy h₁ h₂
    have hb' := hq.bound hy h₃ h₄
    have hm := hq.mono hpos h
    simp only [extendedQuotient]
    split_ifs <;> omega
  · refine Or.inr fun x hx x' hx' h => ?_
    obtain ⟨h₁, h₂⟩ := hx
    obtain ⟨h₃, h₄⟩ := hx'
    have hb := hq.bound hy h₁ h₂
    have hb' := hq.bound hy h₃ h₄
    have hm := hq.anti (show y < 0 by omega) h
    simp only [extendedQuotient]
    split_ifs <;> omega

theorem extendedQuotient_right (x : Int) {lo hi : Int} (h : 0 < lo ∨ hi < 0) :
    OneWay (extendedQuotient q x) (Icc lo hi) := by
  by_cases hx : x = kPosInf ∨ x = kNegInf
  · have hconst : ∀ y ∈ Icc lo hi, extendedQuotient q x y = if 0 < lo then x else -x := by
      intro y hy
      obtain ⟨h₁, h₂⟩ := hy
      unfold extendedQuotient
      rw [if_pos hx]
      split_ifs <;> omega
    refine Or.inl fun y hy y' hy' _ => ?_
    rw [hconst y hy, hconst y' hy']
  · have heq : ∀ y ∈ Icc lo hi, extendedQuotient q x y = q x y := fun y _ => if_neg hx
    cases h with
    | inl h => exact (hq.pos x h).congr heq
    | inr h => exact (hq.neg x h).congr heq

/-- The corners of a division whose divisor is not 0 at the ends of its range. -/
theorem division_corners (ha : a.Sound j) (h₁ : b.minValue ≠ 0) (h₂ : b.maxValue ≠ 0)
    (hva : Finite j) :
    ∃ e, binaryOpBoundary a b (infAwareQuotient q) = .ok e ∧ kNegInf ≤ e.minValue ∧
      e.maxValue ≤ kPosInf ∧
      (0 < b.minValue ∨ b.maxValue < 0 → b.Contains k → e.Contains (q j k)) := by
  have hmin : kNegInf ≤ a.minValue ∧ a.minValue ≤ kPosInf :=
    ⟨ha.min_ge, ha.min_le.trans hva.2.le⟩
  have hmax : kNegInf ≤ a.maxValue ∧ a.maxValue ≤ kPosInf :=
    ⟨hva.1.le.trans ha.le_max, ha.max_le⟩
  refine ⟨_, binaryOpBoundary_total (f := extendedQuotient q) ?_, ?_, ?_, ?_⟩
  · intro x y hx hy
    have hy' : y ≠ 0 := by
      cases hy with
      | inl h => exact h ▸ h₁
      | inr h => exact h ▸ h₂
    cases hx with
    | inl h => exact infAwareQuotient_eq hq hy' (h ▸ hmin.1) (h ▸ hmin.2)
    | inr h => exact infAwareQuotient_eq hq hy' (h ▸ hmax.1) (h ▸ hmax.2)
  · simp only [le_min_iff]
    exact ⟨⟨⟨(extendedQuotient_range hq h₁ hmin.1 hmin.2).1,
      (extendedQuotient_range hq h₂ hmax.1 hmax.2).1⟩,
      (extendedQuotient_range hq h₂ hmin.1 hmin.2).1⟩, (extendedQuotient_range hq h₁ hmax.1 hmax.2).1⟩
  · simp only [max_le_iff]
    exact ⟨⟨⟨(extendedQuotient_range hq h₁ hmin.1 hmin.2).2,
      (extendedQuotient_range hq h₂ hmax.1 hmax.2).2⟩,
      (extendedQuotient_range hq h₂ hmin.1 hmin.2).2⟩, (extendedQuotient_range hq h₁ hmax.1 hmax.2).2⟩
  · intro hsign hvb
    have hfin : extendedQuotient q j k = q j k := by
      obtain ⟨h₁, h₂⟩ := hva
      exact if_neg (by omega)
    have hsub : Icc a.minValue a.maxValue ⊆ Icc kNegInf kPosInf := Icc_subset_Icc hmin.1 hmax.2
    have hleft : ∀ y ∈ Icc b.minValue b.maxValue,
        OneWay (fun x => extendedQuotient q x y) (Icc a.minValue a.maxValue) := by
      intro y hy
      obtain ⟨h₁, h₂⟩ := hy
      exact (extendedQuotient_left hq (show y ≠ 0 by omega)).mono hsub
    have hc := corners (f := extendedQuotient q) ⟨ha.min_le, ha.le_max⟩ ⟨hvb.1, hvb.2⟩ hleft
      fun x _ => extendedQuotient_right hq x hsign
    rw [hfin] at hc
    exact hc

/-- Dividing by everything fails for a type of one bit, whose range ends at 0. -/
theorem everything_division (ha : a.Sound j) (hva : Finite j) (hint : dt.isInt = true) :
    Ensures (fun _ => dt.bits = 1) (binaryOpBoundary a (everything dt) (infAwareQuotient q))
      (fun e => kNegInf ≤ e.minValue ∧ e.maxValue ≤ kPosInf) := by
  have hcode : dt.code = .int := of_decide_eq_true hint
  have huint : dt.isUInt = false := by
    unfold DataType.isUInt
    rw [hcode]
    rfl
  have heq : everything dt = ⟨if dt.bits - 1 ≥ 63 then kNegInf else -2^(dt.bits - 1),
      if dt.bits - 1 ≥ 63 then kPosInf else 2^(dt.bits - 1) - 1⟩ := by
    unfold everything
    rw [if_neg (by simp only [hint, Bool.true_eq_false, false_and, not_false_eq_true])]
    simp only [hint, if_true, huint, Bool.false_eq_true, if_false]
  by_cases hbits : dt.bits = 1
  · have hzero : infAwareQuotient q a.maxValue 0 = .error .zeroDivisor := rfl
    rw [heq, hbits]
    unfold binaryOpBoundary
    change Ensures _ (infAwareQuotient q a.minValue (-1) >>= fun v1 =>
      infAwareQuotient q a.maxValue 0 >>= _) _
    cases infAwareQuotient q a.minValue (-1) with
    | error c => exact rfl
    | ok v1 =>
      rw [hzero]
      exact rfl
  · have hpos := dt.bits_pos
    have hpow : (2 : Int)^1 ≤ 2^(dt.bits - 1) := pow_le_pow_right₀ (by decide) (by omega)
    obtain ⟨e, he, h₁, h₂, -⟩ := division_corners hq ha (b := everything dt) (k := 0)
      (by rw [heq]; simp only; split_ifs <;> [decide; omega])
      (by rw [heq]; simp only; split_ifs <;> [decide; omega]) hva
    rw [he]
    exact ⟨h₁, h₂⟩

/-- Division by one side of a range: the part on that side, or everything when there is none. -/
theorem side_division (ha : a.Sound j) (hva : Finite j) (hint : dt.isInt = true) {side : Entry}
    {p : Prop} [Decidable p]
    (hside : p → 0 < side.minValue ∧ 0 < side.maxValue ∨ side.minValue < 0 ∧ side.maxValue < 0) :
    Ensures (fun _ => dt.bits = 1)
      (binaryOpBoundary a (if p then side else everything dt) (infAwareQuotient q))
      (fun e => kNegInf ≤ e.minValue ∧ e.maxValue ≤ kPosInf ∧
        (p → side.Contains k → e.Contains (q j k))) := by
  by_cases ht : p
  · have hs := hside ht
    rw [if_pos ht]
    obtain ⟨e, he, h₁, h₂, h₃⟩ := division_corners hq ha (b := side) (k := k) (by omega) (by omega) hva
    rw [he]
    exact ⟨h₁, h₂, fun _ hc => h₃ (by omega) hc⟩
  · rw [if_neg ht]
    exact (everything_division hq ha hva hint).mono fun e he => ⟨he.1, he.2, fun h => absurd h ht⟩

/-- Division by a nonzero value: only a type of one bit can fail a check. -/
theorem handleDivision_sound (ha : a.Sound j) (hb : b.Sound k) (hva : Finite j)
    (hvb : k ≠ 0) (hint : dt.isInt = true) (hv : Finite (q j k)) :
    Ensures (fun _ => dt.bits = 1) (handleDivision a b dt (infAwareQuotient q))
      (fun e => e.Sound (q j k)) := by
  have hinf : kNegInf = -9223372036854775807 ∧ kPosInf = 9223372036854775807 := ⟨rfl, rfl⟩
  have hmin := hb.min_le
  have hmax := hb.le_max
  have hge := hb.min_ge
  have hle := hb.max_le
  unfold handleDivision
  by_cases hzero : b.minValue ≤ 0 ∧ 0 ≤ b.maxValue
  · rw [if_pos ⟨hzero.1, hzero.2, hint⟩]
    have hneg : b.minValue < 0 → makeBound b.minValue (-1) = ⟨b.minValue, -1⟩ := by
      intro h
      unfold makeBound
      rw [if_neg (by omega), if_neg (by omega)]
    have hpos : b.maxValue > 0 → makeBound 1 b.maxValue = ⟨1, b.maxValue⟩ := by
      intro h
      unfold makeBound
      rw [if_neg (by omega), if_neg (by omega)]
    apply (side_division hq ha hva hint (k := k) (p := b.minValue < 0) fun h => by
      rw [hneg h]
      exact Or.inr ⟨h, neg_one_lt_zero⟩).bind
    intro eNeg _ hNeg
    apply (side_division hq ha hva hint (k := k) (p := b.maxValue > 0) fun h => by
      rw [hpos h]
      exact Or.inl ⟨zero_lt_one, h⟩).bind
    intro ePos _ hPos
    obtain ⟨hn₁, hn₂, hn₃⟩ := hNeg
    obtain ⟨hp₁, hp₂, hp₃⟩ := hPos
    have hcontains : eNeg.Contains (q j k) ∨ ePos.Contains (q j k) := by
      by_cases hs : k < 0
      · have hb' : b.minValue < 0 := by omega
        exact Or.inl (hn₃ hb' (by rw [hneg hb']; exact ⟨hmin, by simp only; omega⟩))
      · have hb' : b.maxValue > 0 := by omega
        exact Or.inr (hp₃ hb' (by rw [hpos hb']; exact ⟨by simp only; omega, hmax⟩))
    have hu := union_sound ⟨hn₁, hn₂⟩ ⟨hp₁, hp₂⟩ hcontains
    exact makeBound_sound hu.min_ge hu.min_le hu.le_max hu.max_le hv
  · rw [if_neg (fun h => hzero ⟨h.1, h.2.1⟩), if_neg (fun h => by omega)]
    obtain ⟨e, he, h₁, h₂, h₃⟩ := division_corners hq ha (b := b) (k := k) (by omega) (by omega) hva
    have hc := h₃ (by omega) hb.contains
    rw [he]
    exact ⟨h₁, hc.1, hc.2, h₂⟩

end Quotient

theorem infAwareFloorDiv_eq : infAwareFloorDiv = infAwareQuotient Int.fdiv := by
  funext x y
  unfold infAwareFloorDiv infAwareQuotient
  by_cases hy : y = 0
  · rw [if_pos hy, if_pos hy]
  · rw [floordiv_eq x hy]

/-- Division never fails on a constant 0 when the divisor is not 0. -/
theorem not_isConst_zero (hb : b.Sound k) (hvb : k ≠ 0) : b.isConst 0 = false := by
  have h₁ := hb.min_le
  have h₂ := hb.le_max
  apply decide_eq_false
  omega

/-! ### Modulus -/

theorem cap_upper (hb : b.Sound k) (hvb : Finite k) :
    ∃ cap, infAwareAdd b.maxValue (-1) = .ok cap ∧ k - 1 ≤ cap ∧ cap ≤ kPosInf := by
  have hinf : kNegInf = -9223372036854775807 ∧ kPosInf = 9223372036854775807 := ⟨rfl, rfl⟩
  obtain ⟨hv₁, hv₂⟩ := hvb
  exact infAwareAdd_upper (k := -1) hv₁ (by omega) hb.le_max (le_refl _) hb.max_le (by omega)
    (by omega) (by omega)

theorem cap_lower (hb : b.Sound k) (hvb : Finite k) :
    ∃ cap, infAwareAdd b.minValue 1 = .ok cap ∧ cap ≤ k + 1 ∧ kNegInf ≤ cap := by
  have hinf : kNegInf = -9223372036854775807 ∧ kPosInf = 9223372036854775807 := ⟨rfl, rfl⟩
  obtain ⟨hv₁, hv₂⟩ := hvb
  exact infAwareAdd_lower (k := 1) hv₂ (by omega) hb.min_le (le_refl _) hb.min_ge (by omega)
    (by omega) (by omega)

/-- The remainder of a division by a positive number. -/
theorem tmod_bounds {x y : Int} (hy : 0 < y) :
    -(y - 1) ≤ x.tmod y ∧ x.tmod y ≤ y - 1 ∧ (0 ≤ x → 0 ≤ x.tmod y ∧ x.tmod y ≤ x) ∧
      (x ≤ 0 → x ≤ x.tmod y ∧ x.tmod y ≤ 0) := by
  have hlt := Int.tmod_lt_of_pos x hy
  have hlt' := Int.tmod_lt_of_pos (-x) hy
  have hnonneg : 0 ≤ x → 0 ≤ x.tmod y := Int.tmod_nonneg y
  have hnonpos : x ≤ 0 → x.tmod y ≤ 0 := tmod_nonpos y
  have hsum := Int.tmod_add_mul_tdiv x y
  have hq : 0 ≤ x → 0 ≤ y * x.tdiv y := fun h => Int.mul_nonneg hy.le (Int.tdiv_nonneg h hy.le)
  have hq' : x ≤ 0 → y * x.tdiv y ≤ 0 := by
    intro h
    have h' := Int.mul_nonneg hy.le (Int.tdiv_nonneg (show 0 ≤ -x by omega) hy.le)
    rw [Int.neg_tdiv, Int.mul_neg] at h'
    omega
  rw [Int.neg_tmod] at hlt'
  refine ⟨by omega, by omega, fun h => ⟨hnonneg h, ?_⟩, fun h => ⟨?_, hnonpos h⟩⟩
  · have := hq h
    omega
  · have := hq' h
    omega

theorem fmod_eq_tmod {x y : Int} (hx : 0 ≤ x) (hy : 0 < y) : x.fmod y = x.tmod y :=
  Int.fmod_eq_tmod_of_nonneg hx hy.le

/-- A dividend below the divisor is its own remainder. -/
theorem tmod_small (ha : a.Sound j) (hb : b.Sound k) (hneg : 0 ≤ a.minValue)
    (hsmall : a.maxValue < b.minValue) : j.tmod k = j := by
  have h₁ := ha.min_le
  have h₂ := ha.le_max
  have h₃ := hb.min_le
  exact Int.tmod_eq_of_lt (by omega) (by omega)

theorem visitMod_sound (ha : a.Sound j) (hb : b.Sound k) (hvb : Finite k)
    (hne : k ≠ 0) (hint : dt.isInt = true) (hfits : dt.Fits (j.tmod k))
    (hv : Finite (j.tmod k)) : ∃ e, visitMod dt a b = .ok e ∧ e.Sound (j.tmod k) := by
  have hinf : kNegInf = -9223372036854775807 ∧ kPosInf = 9223372036854775807 := ⟨rfl, rfl⟩
  have h₁ := ha.min_le
  have h₂ := ha.le_max
  have h₃ := hb.min_le
  unfold visitMod
  by_cases hpos : b.minValue > 0
  · obtain ⟨cap, hcap, hcap₁, hcap₂⟩ := cap_upper hb hvb
    obtain ⟨hm₁, hm₂, hm₃, hm₄⟩ := tmod_bounds (x := j) (show 0 < k by omega)
    rw [if_pos hpos, hcap]
    change ∃ e, (if a.minValue ≥ 0 then if a.maxValue < b.minValue then Except.ok a else _ else _) =
      Except.ok e ∧ _
    by_cases hneg : a.minValue ≥ 0
    · rw [if_pos hneg]
      by_cases hsmall : a.maxValue < b.minValue
      · rw [if_pos hsmall, tmod_small ha hb hneg hsmall]
        exact ⟨_, rfl, ha⟩
      · rw [if_neg hsmall]
        have hm := hm₃ (by omega)
        refine ⟨_, rfl, makeBound_sound (by decide) hm.1 ?_ ?_ hv⟩ <;> omega
    · rw [if_neg hneg]
      have hge := ha.min_ge
      refine ⟨_, rfl, makeBound_sound ?_ ?_ ?_ ?_ hv⟩ <;> omega
  · rw [if_neg hpos, not_isConst_zero hb hne]
    exact ⟨_, rfl, everything_sound hint hfits hv⟩

/-- A floor remainder has the sign of the divisor. -/
theorem fmod_bounds (x y : Int) :
    (0 < y → 0 ≤ x.fmod y ∧ x.fmod y ≤ y - 1) ∧ (y < 0 → y + 1 ≤ x.fmod y ∧ x.fmod y ≤ 0) := by
  constructor
  · intro h
    have h₁ := Int.fmod_nonneg_of_pos x h
    have h₂ := Int.fmod_lt_of_pos x h
    omega
  · intro h
    have h₁ := Int.fmod_nonneg_of_pos (-x) (show 0 < -y by omega)
    have h₂ := Int.fmod_lt_of_pos (-x) (show 0 < -y by omega)
    rw [Int.neg_fmod_neg] at h₁ h₂
    omega

theorem visitFloorMod_sound (ha : a.Sound j) (hb : b.Sound k) (hvb : Finite k)
    (hne : k ≠ 0) (hint : dt.isInt = true) (hfits : dt.Fits (j.fmod k))
    (hv : Finite (j.fmod k)) : ∃ e, visitFloorMod dt a b = .ok e ∧ e.Sound (j.fmod k) := by
  have hinf : kNegInf = -9223372036854775807 ∧ kPosInf = 9223372036854775807 := ⟨rfl, rfl⟩
  have h₁ := ha.min_le
  have h₂ := ha.le_max
  have h₃ := hb.min_le
  obtain ⟨hf₁, hf₂⟩ := fmod_bounds j k
  unfold visitFloorMod
  by_cases hpos : b.minValue > 0
  · obtain ⟨cap, hcap, hcap₁, hcap₂⟩ := cap_upper hb hvb
    have hf := hf₁ (by omega)
    rw [if_pos hpos, hcap]
    change ∃ e, (if a.minValue ≥ 0 then if a.maxValue < b.minValue then Except.ok a else _ else _) =
      Except.ok e ∧ _
    by_cases hneg : a.minValue ≥ 0
    · rw [if_pos hneg]
      have heq := fmod_eq_tmod (show 0 ≤ j by omega) (show 0 < k by omega)
      by_cases hsmall : a.maxValue < b.minValue
      · rw [if_pos hsmall, heq, tmod_small ha hb hneg hsmall]
        exact ⟨_, rfl, ha⟩
      · rw [if_neg hsmall]
        have hm := (tmod_bounds (x := j) (show 0 < k by omega)).2.2.1 (by omega)
        refine ⟨_, rfl, makeBound_sound (by decide) hf.1 ?_ ?_ hv⟩ <;> omega
    · rw [if_neg hneg]
      refine ⟨_, rfl, makeBound_sound (by decide) hf.1 ?_ ?_ hv⟩ <;> omega
  · rw [if_neg hpos, not_isConst_zero hb hne]
    obtain ⟨lo, hlo, hlo₁, hlo₂⟩ := cap_lower hb hvb
    obtain ⟨hi, hhi, hhi₁, hhi₂⟩ := cap_upper hb hvb
    have hbounds : min 0 lo ≤ j.fmod k ∧ j.fmod k ≤ max 0 hi := by omega
    rw [hlo, hhi]
    exact ⟨_, rfl, intersect_sound (makeBound_sound (by omega) hbounds.1 hbounds.2 (by omega) hv)
      (everything_sound hint hfits hv).contains⟩

/-! ### The other rules -/

theorem ldiff_le (m n : Nat) : Nat.ldiff m n ≤ m := by
  apply Nat.le_of_testBit
  intro i hi
  rw [Nat.testBit_ldiff] at hi
  exact (Bool.and_eq_true_iff.mp hi).1

theorem land_le_right {x y : Int} (hy : 0 ≤ y) : 0 ≤ x.land y ∧ x.land y ≤ y := by
  obtain ⟨n, rfl⟩ := Int.eq_ofNat_of_zero_le hy
  cases x with
  | ofNat m =>
    have h : m &&& n ≤ n := Nat.and_le_right
    exact ⟨Int.natCast_nonneg _, Int.ofNat_le.mpr h⟩
  | negSucc m => exact ⟨Int.natCast_nonneg _, Int.ofNat_le.mpr (ldiff_le n m)⟩

theorem land_le_left {x y : Int} (hx : 0 ≤ x) : 0 ≤ x.land y ∧ x.land y ≤ x := by
  obtain ⟨m, rfl⟩ := Int.eq_ofNat_of_zero_le hx
  cases y with
  | ofNat n =>
    have h : m &&& n ≤ m := Nat.and_le_left
    exact ⟨Int.natCast_nonneg _, Int.ofNat_le.mpr h⟩
  | negSucc n => exact ⟨Int.natCast_nonneg _, Int.ofNat_le.mpr (ldiff_le m n)⟩

theorem visitBitwiseAnd_sound (ha : a.Sound j) (hb : b.Sound k) (hint : dt.isInt = true)
    (hfits : dt.Fits (j.land k)) (hv : Finite (j.land k)) :
    (visitBitwiseAnd dt a b).Sound (j.land k) := by
  have hneg : kNegInf ≤ 0 := by decide
  obtain ⟨-, ha₁, ha₂, ha₃⟩ := ha
  obtain ⟨-, hb₁, hb₂, hb₃⟩ := hb
  unfold visitBitwiseAnd
  by_cases hboth : a.minValue ≥ 0 ∧ b.minValue ≥ 0
  · rw [if_pos hboth]
    have h₁ := land_le_left (x := j) (y := k) (by omega)
    have h₂ := land_le_right (x := j) (y := k) (by omega)
    exact makeBound_sound hneg h₁.1 (by omega) (by omega) hv
  · rw [if_neg hboth]
    by_cases hright : b.minValue ≥ 0
    · rw [if_pos hright]
      have h := land_le_right (x := j) (y := k) (by omega)
      exact makeBound_sound hneg h.1 (by omega) hb₃ hv
    · rw [if_neg hright]
      by_cases hleft : a.minValue ≥ 0
      · rw [if_pos hleft]
        have h := land_le_left (x := j) (y := k) (by omega)
        exact makeBound_sound hneg h.1 (by omega) ha₃ hv
      · rw [if_neg hleft]
        exact everything_sound hint hfits hv

/-- Every arithmetic node keeps to its rule; only a division of one bit can fail a check. -/
theorem visitBinary_sound (op : BinaryOp) (ha : a.Sound j) (hb : b.Sound k) (hva : Finite j)
    (hvb : Finite k) (hne : op.divides = true → k ≠ 0) (hint : dt.isInt = true)
    (hfits : dt.Fits (op.eval j k)) (hv : Finite (op.eval j k)) :
    Ensures (fun _ => (op = .div ∨ op = .floorDiv) ∧ dt.bits = 1) (visitBinary op dt a b)
      (fun e => e.Sound (op.eval j k)) := by
  have hreturns {x : Except Check Entry} (h : ∃ e, x = .ok e ∧ e.Sound (op.eval j k)) :
      Ensures (fun _ => (op = .div ∨ op = .floorDiv) ∧ dt.bits = 1) x
        (fun e => e.Sound (op.eval j k)) := by
    obtain ⟨e, he, hs⟩ := h
    rw [he]
    exact hs
  have hnarrow {x : Except Check Entry} (hop : op = .div ∨ op = .floorDiv)
      (h : Ensures (fun _ => dt.bits = 1) x (fun e => e.Sound (op.eval j k))) :
      Ensures (fun _ => (op = .div ∨ op = .floorDiv) ∧ dt.bits = 1) x
        (fun e => e.Sound (op.eval j k)) := by
    cases x with
    | ok e => exact h
    | error c => exact ⟨hop, h⟩
  cases op with
  | add => exact hreturns (visitAdd_sound ha hb hva hvb hv)
  | sub => exact hreturns (visitSub_sound ha hb hva hvb hv)
  | mul => exact hreturns (visitMul_sound ha hb hv)
  | div =>
    apply hnarrow (Or.inl rfl)
    change Ensures _ (if b.isConst 0 = true then _ else _) _
    rw [not_isConst_zero hb (hne rfl)]
    exact handleDivision_sound tdiv_quotient ha hb hva (hne rfl) hint hv
  | mod => exact hreturns (visitMod_sound ha hb hvb (hne rfl) hint hfits hv)
  | floorDiv =>
    apply hnarrow (Or.inr rfl)
    change Ensures _ (if b.isConst 0 = true then _ else _) _
    rw [not_isConst_zero hb (hne rfl), infAwareFloorDiv_eq]
    exact handleDivision_sound fdiv_quotient ha hb hva (hne rfl) hint hv
  | floorMod => exact hreturns (visitFloorMod_sound ha hb hvb (hne rfl) hint hfits hv)
  | min =>
    obtain ⟨ha₁, ha₂, ha₃, ha₄⟩ := ha
    obtain ⟨hb₁, hb₂, hb₃, hb₄⟩ := hb
    refine hreturns ⟨_, rfl, ?_, ?_, ?_, ?_⟩ <;> simp only [BinaryOp.eval] <;> omega
  | max =>
    obtain ⟨ha₁, ha₂, ha₃, ha₄⟩ := ha
    obtain ⟨hb₁, hb₂, hb₃, hb₄⟩ := hb
    refine hreturns ⟨_, rfl, ?_, ?_, ?_, ?_⟩ <;> simp only [BinaryOp.eval] <;> omega

end StencilGraph.Arith.ConstIntBoundAnalyzer

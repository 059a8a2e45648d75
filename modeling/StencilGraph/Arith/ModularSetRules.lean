import Mathlib.Algebra.GroupWithZero.Divisibility
import Mathlib.Algebra.Order.Group.Unbundled.Int
import Mathlib.Algebra.Order.Ring.Abs
import Mathlib.Data.Int.GCD
import StencilGraph.Arith.ModularSet
import StencilGraph.Framework.Ensures

namespace StencilGraph.Arith

/-! ### The greatest common divisors -/

theorem gcd_tmod (a b : Int) : Int.gcd b (a.tmod b) = Int.gcd a b := by
  have hmod := Int.tmod_add_mul_tdiv a b
  rw [Int.gcd_comm a b]
  conv_rhs => rw [← hmod]
  rw [Int.gcd_add_mul_left_right]

theorem gcdLoop_eq {a b : Int} (hb : 0 < b) (ha : 0 ≤ a) : gcdLoop a b = Int.gcd a b := by
  induction a, b using gcdLoop.induct with
  | case1 a b h =>
    have hdvd : b ∣ a := Int.dvd_of_tmod_eq_zero (by omega)
    rw [gcdLoop, dif_pos h, Int.gcd_eq_natAbs_right hdvd, Int.natAbs_of_nonneg hb.le]
  | case2 a b h ih =>
    have hnonneg := Int.tmod_nonneg b ha
    rw [gcdLoop, dif_neg h, ih (by omega) hb.le, gcd_tmod]

theorem zeroAwareGCD_eq (a b : Int) : zeroAwareGCD id a b = Int.gcd a b := by
  have habs (z : Int) : (if z < 0 then -z else z) = z.natAbs := by
    split_ifs <;> omega
  have hgcd : Int.gcd a b = Int.gcd a.natAbs b.natAbs := rfl
  -- the larger absolute value comes first
  have hordered {m n : Int} (hmn : n ≤ m) (hn : 0 ≤ n) :
      (if n = 0 then m else gcdLoop m n) = Int.gcd m n := by
    split_ifs with hzero
    · rw [hzero, Int.gcd_zero_right, Int.natAbs_of_nonneg (by omega)]
    · exact gcdLoop_eq (by omega) (by omega)
  unfold zeroAwareGCD
  simp only [id, habs]
  by_cases hlt : (a.natAbs : Int) < b.natAbs
  · simp only [if_pos hlt]
    rw [hordered hlt.le (by omega), Int.gcd_comm, hgcd]
  · simp only [if_neg hlt]
    rw [hordered (by omega) (by omega), hgcd]

theorem gcd_euclid (oldR r q : Int) : Int.gcd r (oldR - q * r) = Int.gcd oldR r := by
  rw [Int.sub_eq_add_neg, ← Int.neg_mul, Int.gcd_add_mul_right_right, Int.gcd_comm]

/-- The loop keeps both remainders in the form `a * x + b * y`. -/
theorem euclidLoop_spec {a b r oldR s oldS : Int} (hr : b ∣ r - a * s) (hold : b ∣ oldR - a * oldS)
    (hr0 : 0 ≤ r) (hold0 : 0 ≤ oldR) :
    b ∣ (euclidLoop id r oldR s oldS).1 - a * (euclidLoop id r oldR s oldS).2 ∧
      (euclidLoop id r oldR s oldS).1 = Int.gcd oldR r := by
  induction r, oldR, s, oldS using euclidLoop.induct id with
  | case1 oldR s oldS =>
    rw [euclidLoop, dif_pos rfl, Int.gcd_zero_right, Int.natAbs_of_nonneg hold0]
    exact ⟨hold, rfl⟩
  | case2 r oldR s oldS h q ih =>
    have hmod := Int.tmod_add_mul_tdiv oldR r
    have hnonneg := Int.tmod_nonneg r hold0
    have hrem : oldR - q * r = oldR.tmod r := by
      rw [Int.mul_comm, show q = oldR.tdiv r from rfl]
      omega
    rw [euclidLoop, dif_neg h, ← gcd_euclid oldR r q]
    apply ih _ hr (by omega) hr0
    have hlin : oldR - q * r - a * (oldS - q * s) = oldR - a * oldS - q * (r - a * s) := by ring
    show b ∣ oldR - q * r - a * (oldS - q * s)
    rw [hlin]
    exact Int.dvd_sub hold (Dvd.dvd.mul_left hr q)

theorem extendedEuclidean_spec {a b : Int} (ha : 0 ≤ a) (hb : 0 ≤ b) :
    (extendedEuclidean id a b).1 = Int.gcd a b ∧
      b ∣ (extendedEuclidean id a b).1 - a * (extendedEuclidean id a b).2.1 := by
  have h := @euclidLoop_spec a b b a 0 1
    (by rw [Int.mul_zero, Int.sub_zero]) (by rw [Int.mul_one, Int.sub_self]; exact Int.dvd_zero b)
    hb ha
  unfold extendedEuclidean
  simp only [if_pos ha]
  exact ⟨h.2, h.1⟩

namespace ModularSetAnalyzer
open Framework

/-- A number of the set; the only one is `base` when `coeff` is 0. -/
def Entry.Contains (e : Entry) (n : Int) : Prop := e.coeff ∣ n - e.base

/-- A proper entry that contains a number. -/
structure Entry.Sound (e : Entry) (n : Int) : Prop where
  coeff_nonneg : 0 ≤ e.coeff
  contains : e.Contains n

variable {a b : Entry} {va vb n : Int}

theorem everything_sound (n : Int) : everything.Sound n := ⟨by decide, Int.one_dvd _⟩

/-- The constructor reduces the base, which changes nothing modulo the coefficient. -/
theorem make_sound {coeff base : Int} (hc : 0 ≤ coeff) (h : coeff ∣ n - base) :
    ∃ e, Entry.make coeff base = .ok e ∧ e.Sound n := by
  unfold Entry.make
  rw [if_neg (by omega)]
  by_cases hzero : coeff = 0
  · rw [if_neg (by omega)]
    exact ⟨_, rfl, hc, h⟩
  · rw [if_pos hzero]
    refine ⟨_, rfl, hc, ?_⟩
    have hmod : coeff ∣ base - base.tmod coeff := by
      have := Int.tmod_add_mul_tdiv base coeff
      exact ⟨base.tdiv coeff, by omega⟩
    have hbase : coeff ∣ n - base.tmod coeff := by
      have := Int.dvd_add h hmod
      rwa [show n - base + (base - base.tmod coeff) = n - base.tmod coeff by omega] at this
    simp only [Entry.Contains]
    split_ifs
    · have := Int.dvd_sub hbase (Int.dvd_refl coeff)
      rwa [show n - base.tmod coeff - coeff = n - (base.tmod coeff + coeff) by omega] at this
    · exact hbase

theorem visitAdd_sound (ha : a.Sound va) (hb : b.Sound vb) :
    ∃ e, visitAdd id a b = .ok e ∧ e.Sound (va + vb) := by
  unfold visitAdd
  rw [zeroAwareGCD_eq]
  apply make_sound (Int.natCast_nonneg _)
  have h₁ := Int.dvd_trans (Int.gcd_dvd_left a.coeff b.coeff) ha.contains
  have h₂ := Int.dvd_trans (Int.gcd_dvd_right a.coeff b.coeff) hb.contains
  have h := Int.dvd_add h₁ h₂
  rwa [show va - a.base + (vb - b.base) = va + vb - (a.base + b.base) by omega] at h

theorem visitSub_sound (ha : a.Sound va) (hb : b.Sound vb) :
    ∃ e, visitSub id a b = .ok e ∧ e.Sound (va - vb) := by
  unfold visitSub
  rw [zeroAwareGCD_eq]
  apply make_sound (Int.natCast_nonneg _)
  have h₁ := Int.dvd_trans (Int.gcd_dvd_left a.coeff b.coeff) ha.contains
  have h₂ := Int.dvd_trans (Int.gcd_dvd_right a.coeff b.coeff) hb.contains
  have h := Int.dvd_sub h₁ h₂
  rwa [show va - a.base - (vb - b.base) = va - vb - (a.base - b.base) by omega] at h

/-- `(p x + n) (q y + m) = pq xy + pm x + qn y + mn`. -/
theorem visitMul_sound (ha : a.Sound va) (hb : b.Sound vb) :
    ∃ e, visitMul id a b = .ok e ∧ e.Sound (va * vb) := by
  unfold visitMul
  simp only [id, zeroAwareGCD_eq]
  apply make_sound (Int.natCast_nonneg _)
  obtain ⟨x, hx⟩ := ha.contains
  obtain ⟨y, hy⟩ := hb.contains
  have hpq := Int.gcd_dvd_left (a.coeff * b.coeff)
    (Int.gcd (a.coeff * b.base) (a.base * b.coeff))
  have hrest := Int.gcd_dvd_right (a.coeff * b.coeff)
    (Int.gcd (a.coeff * b.base) (a.base * b.coeff))
  have hpm := Int.dvd_trans hrest (Int.gcd_dvd_left (a.coeff * b.base) (a.base * b.coeff))
  have hqn := Int.dvd_trans hrest (Int.gcd_dvd_right (a.coeff * b.base) (a.base * b.coeff))
  have hsum := Int.dvd_add (Int.dvd_add (Dvd.dvd.mul_right hpq (x * y)) (Dvd.dvd.mul_right hpm x))
    (Dvd.dvd.mul_right hqn y)
  have heq : va * vb - a.base * b.base =
      a.coeff * b.coeff * (x * y) + a.coeff * b.base * x + a.base * b.coeff * y := by
    rw [show va = a.coeff * x + a.base by omega, show vb = b.coeff * y + b.base by omega]
    ring
  rw [heq]
  exact hsum

/-- Division of a multiple of the divisor is exact; otherwise only rounding down is handled. -/
theorem divByConst_sound {q : Int → Int → Int} {val : Int} {nonneg roundDown : Bool}
    (ha : a.Sound va) (hval : val ≠ 0) (hexact : ∀ k, q (val * k) val = k)
    (hround : 0 < val → roundDown = true ∨ nonneg = true → ∀ k m, va = val * k + m →
      q va val = k + m / val) :
    ∃ e, divByConst a nonneg val roundDown = .ok e ∧ e.Sound (q va val) := by
  unfold divByConst
  rw [if_neg hval]
  by_cases hmod : a.coeff.tmod val = 0
  · obtain ⟨k, hk⟩ := Int.dvd_of_tmod_eq_zero hmod
    obtain ⟨x, hx⟩ := ha.contains
    have hdiv : a.coeff.tdiv val = k := by
      rw [hk]
      exact Int.mul_tdiv_cancel_left k hval
    rw [if_pos hmod, hdiv]
    by_cases hbase : a.base = 0
    · rw [if_pos hbase]
      apply make_sound (abs_nonneg k)
      have hva : va = val * (k * x) := by
        rw [← Int.mul_assoc, ← hk]
        omega
      rw [hva, hexact, Int.sub_zero, abs_dvd]
      exact Dvd.intro x rfl
    · rw [if_neg hbase]
      by_cases hcase : a.base > 0 ∧ val > 0 ∧ (roundDown = true ∨ nonneg = true)
      · obtain ⟨hpos, hvpos, hr⟩ := hcase
        rw [if_pos ⟨hpos, hvpos, hr⟩]
        have hk0 : 0 ≤ k := by
          by_contra hneg
          have := Int.mul_neg_of_pos_of_neg hvpos (show k < 0 by omega)
          have := ha.coeff_nonneg
          omega
        apply make_sound hk0
        have hva : va = val * (k * x) + a.base := by
          rw [← Int.mul_assoc, ← hk]
          omega
        rw [hround hvpos hr (k * x) a.base hva, Int.tdiv_eq_ediv_of_nonneg hpos.le]
        exact ⟨x, by omega⟩
      · rw [if_neg hcase]
        exact ⟨_, rfl, everything_sound _⟩
  · rw [if_neg hmod]
    exact ⟨_, rfl, everything_sound _⟩

theorem visitFloorMod_sound {c2 : Int} (ha : a.Sound va) :
    ∃ e, visitFloorMod id a c2 = .ok e ∧ e.Sound (va.fmod c2) := by
  unfold visitFloorMod
  rw [zeroAwareGCD_eq]
  apply make_sound (Int.natCast_nonneg _)
  have hleft := Int.dvd_trans (Int.gcd_dvd_left a.coeff c2) ha.contains
  have hright := Int.gcd_dvd_right a.coeff c2
  have hfloor := Int.fmod_add_mul_fdiv va c2
  have htrunc := Int.tmod_add_mul_tdiv a.base c2
  have h := Int.dvd_add (Int.dvd_sub hleft (Dvd.dvd.mul_right hright (va.fdiv c2)))
    (Dvd.dvd.mul_right hright (a.base.tdiv c2))
  rwa [show va - a.base - c2 * va.fdiv c2 + c2 * a.base.tdiv c2 =
    va.fmod c2 - a.base.tmod c2 by omega] at h

/-- The union contains what either set contains. -/
theorem union_sound (ha : 0 ≤ a.coeff) (h : a.Contains n ∨ b.Contains n) :
    ∃ e, union id a b = .ok e ∧ e.Sound n := by
  have hmod (z g : Int) : g ∣ z - z.tmod g := by
    have := Int.tmod_add_mul_tdiv z g
    exact ⟨z.tdiv g, by omega⟩
  unfold union
  simp only [zeroAwareGCD_eq]
  by_cases hzero : (Int.gcd a.coeff b.coeff : Int) = 0
  · rw [if_pos hzero]
    have hcoeff := Int.gcd_eq_zero_iff.mp (Int.natCast_eq_zero.mp hzero)
    by_cases hbase : a.base = b.base
    · rw [if_pos hbase]
      refine ⟨_, rfl, ha, h.elim id fun h => ?_⟩
      unfold Entry.Contains at h ⊢
      rw [hcoeff.1, hbase]
      rwa [hcoeff.2] at h
    · rw [if_neg hbase]
      exact ⟨_, rfl, everything_sound n⟩
  · rw [if_neg hzero]
    have hleft := Int.gcd_dvd_left a.coeff b.coeff
    have hright := Int.gcd_dvd_right a.coeff b.coeff
    have hg : (0 : Int) ≤ Int.gcd a.coeff b.coeff := Int.natCast_nonneg _
    generalize (Int.gcd a.coeff b.coeff : Int) = g at hleft hright hg
    have hreduced : g ∣ n - a.base.tmod g ∨ g ∣ n - b.base.tmod g := by
      cases h with
      | inl h =>
        have := Int.dvd_add (Int.dvd_trans hleft h) (hmod a.base g)
        rw [show n - a.base + (a.base - a.base.tmod g) = n - a.base.tmod g by omega] at this
        exact Or.inl this
      | inr h =>
        have := Int.dvd_add (Int.dvd_trans hright h) (hmod b.base g)
        rw [show n - b.base + (b.base - b.base.tmod g) = n - b.base.tmod g by omega] at this
        exact Or.inr this
    by_cases heq : a.base.tmod g = b.base.tmod g
    · rw [if_pos heq]
      rw [← heq, or_self] at hreduced
      exact make_sound hg hreduced
    · rw [if_neg heq]
      apply make_sound (Int.natCast_nonneg _)
      have h₁ := Int.gcd_dvd_left (Int.gcd (a.base.tmod g) (b.base.tmod g) : Int) g
      have h₂ := Int.gcd_dvd_right (Int.gcd (a.base.tmod g) (b.base.tmod g) : Int) g
      have h₃ := Int.dvd_trans h₁ (Int.gcd_dvd_left (a.base.tmod g) (b.base.tmod g))
      have h₄ := Int.dvd_trans h₁ (Int.gcd_dvd_right (a.base.tmod g) (b.base.tmod g))
      cases hreduced with
      | inl h => exact Int.dvd_trans h₂ h
      | inr h =>
        -- every number of the second set is a multiple of the new coefficient too
        have := Int.dvd_sub (Int.dvd_add (Int.dvd_trans h₂ h) h₄) h₃
        rwa [show n - b.base.tmod g + b.base.tmod g - a.base.tmod g = n - a.base.tmod g by omega]
          at this

/-- The product of one number and the other's cofactor divides every common multiple. -/
theorem lcm_dvd {x y m g : Int} (hg : g = Int.gcd x y) (hne : g ≠ 0) (hx : x ∣ m) (hy : y ∣ m) :
    x.tdiv g * y ∣ m := by
  have hgx : g ∣ x := hg ▸ Int.gcd_dvd_left x y
  have hmul : g * (x.tdiv g * y) = x * y := by
    rw [← Int.mul_assoc, Int.mul_tdiv_cancel' hgx]
  have hlcm : g * (x.tdiv g * y) ∣ g * m := by
    rw [hmul, hg, Int.gcd_eq_gcd_ab, Int.add_mul]
    apply Int.dvd_add
    · rw [Int.mul_assoc]
      exact Int.mul_dvd_mul (Int.dvd_refl x) (Dvd.dvd.mul_left hy _)
    · rw [Int.mul_assoc, Int.mul_comm x y]
      exact Int.mul_dvd_mul (Int.dvd_refl y) (Dvd.dvd.mul_left hx _)
  exact Int.dvd_of_mul_dvd_mul_left hne hlcm

/-- The intersection contains what both sets contain. -/
theorem intersect_sound (ha : a.Sound n) (hb : b.Sound n) {e : Entry}
    (hrun : intersect id a b = .ok e) : e.Sound n := by
  obtain ⟨hgcd, hx⟩ := extendedEuclidean_spec ha.coeff_nonneg hb.coeff_nonneg
  obtain ⟨p, hp⟩ := ha.contains
  obtain ⟨q, hq⟩ := hb.contains
  unfold intersect at hrun
  generalize extendedEuclidean id a.coeff b.coeff = result at hrun hgcd hx
  obtain ⟨g, x, y⟩ := result
  simp only [id] at hrun hgcd hx
  by_cases hzero : g = 0
  · rw [if_pos hzero] at hrun
    cases hrun
  rw [if_neg hzero] at hrun
  have hga : g ∣ a.coeff := hgcd ▸ Int.gcd_dvd_left a.coeff b.coeff
  have hgb : g ∣ b.coeff := hgcd ▸ Int.gcd_dvd_right a.coeff b.coeff
  have hv : b.base - a.base = a.coeff * p - b.coeff * q := by omega
  have hgv : g ∣ b.base - a.base := by
    rw [hv]
    exact Int.dvd_sub (Dvd.dvd.mul_right hga p) (Dvd.dvd.mul_right hgb q)
  rw [if_pos (Int.tmod_eq_zero_of_dvd hgv)] at hrun
  obtain ⟨w, hw⟩ := hgv
  obtain ⟨t, ht⟩ := hx
  have hquot : (b.base - a.base).tdiv g = w := by
    rw [hw]
    exact Int.mul_tdiv_cancel_left w hzero
  rw [hquot] at hrun
  have hleft : a.coeff ∣ n - (w * x * a.coeff + a.base) :=
    ⟨p - w * x, by rw [Int.mul_sub, ← hp, Int.mul_comm (w * x)]; omega⟩
  have hright : b.coeff ∣ n - (w * x * a.coeff + a.base) := by
    refine ⟨q + w * t, ?_⟩
    have hwx : w * x * a.coeff = b.base - a.base - b.coeff * (w * t) := by
      rw [hw, show b.coeff * (w * t) = w * (b.coeff * t) by ring, ← ht]
      ring
    rw [Int.mul_add, hwx]
    omega
  have hnonneg : 0 ≤ a.coeff.tdiv g * b.coeff := by
    have hg0 : 0 ≤ g := hgcd ▸ Int.natCast_nonneg _
    exact Int.mul_nonneg (Int.tdiv_nonneg ha.coeff_nonneg hg0) hb.coeff_nonneg
  obtain ⟨e', he', hsound⟩ := make_sound (n := n) hnonneg (lcm_dvd hgcd hzero hleft hright)
  obtain rfl := Except.ok.inj (hrun.symm.trans he')
  exact hsound

/-- Two sets can be intersected when one of them is not a single number. -/
theorem intersect_ok (ha : 0 ≤ a.coeff) (hb : 0 < b.coeff) : ∃ e, intersect id a b = .ok e := by
  obtain ⟨hgcd, -⟩ := extendedEuclidean_spec ha hb.le
  have hpos : 0 < Int.gcd a.coeff b.coeff := Int.gcd_pos_of_ne_zero_right _ hb.ne'
  unfold intersect
  generalize extendedEuclidean id a.coeff b.coeff = result at hgcd
  obtain ⟨g, x, y⟩ := result
  simp only [id] at hgcd ⊢
  rw [if_neg (by omega)]
  split_ifs
  · have hnonneg : 0 ≤ a.coeff.tdiv g * b.coeff :=
      Int.mul_nonneg (Int.tdiv_nonneg ha (by omega)) hb.le
    obtain ⟨e, he, -⟩ := make_sound (n := (b.base - a.base).tdiv g * x * a.coeff + a.base) hnonneg
      (by rw [Int.sub_self]; exact Int.dvd_zero _)
    exact ⟨e, he⟩
  · exact ⟨_, rfl⟩

end ModularSetAnalyzer

end StencilGraph.Arith

import StencilGraph.Arith.ConstIntBound
import StencilGraph.Framework.Ensures

namespace StencilGraph.Arith
open Framework

namespace ConstIntBoundAnalyzer

def Infinite (x : Int) : Prop := x = kPosInf ∨ x = kNegInf

/-- One infinity and the other. -/
def Opposite (x y : Int) : Prop := (x = kPosInf ∧ y = kNegInf) ∨ (x = kNegInf ∧ y = kPosInf)

/-- The bounds of two operands that a sum or a difference can combine. -/
def Compatible (op : BinaryOp) (a b : Entry) : Prop :=
  match op with
  | .add => ¬ Opposite a.minValue b.minValue ∧ ¬ Opposite a.maxValue b.maxValue
  | .sub => ¬ Opposite a.minValue (int64 (-b.maxValue)) ∧ ¬ Opposite a.maxValue (int64 (-b.minValue))
  | _ => True

/-- Something finite is shifted by 0 to 63 only. -/
def Shiftable (a b : Entry) : Prop :=
  (Infinite a.minValue ∧ Infinite a.maxValue) ∨
    ((0 ≤ b.minValue ∧ b.minValue < 64) ∧ 0 ≤ b.maxValue ∧ b.maxValue < 64)

/-- Every sum and difference that the visitor reaches has operands with compatible bounds, every shift
an amount in range. -/
def Combines : PrimExpr → Impl → Prop
  | .cast _ e, s => Combines e s
  | .binary op a b, s => Combines a s ∧ ∀ ea, visitExpr a s = .ok ea →
    Combines b s ∧ ∀ eb, visitExpr b s = .ok eb → Compatible op ea eb
  | .select _ t f, s => Combines t s ∧ ∀ et, visitExpr t s = .ok et → Combines f s
  | .letIn v value body, s =>
    match s.varMap v with
    | none => Combines value s ∧ ∀ bound, visitExpr value s = .ok bound →
      Combines body { s with varMap := Function.update s.varMap v (some bound) }
    | some _ => Combines body s
  | .shiftRight a b, s => Combines a s ∧ ∀ ea, visitExpr a s = .ok ea →
    Combines b s ∧ ∀ eb, visitExpr b s = .ok eb → Shiftable ea eb
  | .bitwiseAnd a b, s => Combines a s ∧ ∀ ea, visitExpr a s = .ok ea → Combines b s
  | _, _ => True

/-- Neither a sum of opposite infinities nor an undefined shift. -/
def Harmless (c : Check) : Prop := c ≠ .oppositeInf ∧ c ≠ .undefinedShift

variable {a b : Entry} {x y : Int}

/-- The computation passes the checks of `InfAwareAdd`, and shifts by amounts in range. -/
def Passes {α : Type} (r : Except Check α) : Prop := Ensures Harmless r fun _ => True

theorem passes_ok {α : Type} (r : α) : Passes (.ok r) := trivial

theorem passes_bind {α β : Type} {r : Except Check α} {f : α → Except Check β} :
    Passes (r >>= f) ↔ Passes r ∧ ∀ v, r = .ok v → Passes (f v) := Ensures.bind_iff

theorem passes_bind_ok {α β : Type} {r : Except Check α} {f : α → β} :
    Passes (r >>= fun v => .ok (f v)) ↔ Passes r := by
  rw [passes_bind]
  exact and_iff_left fun v _ => passes_ok _

theorem passes_ite {α : Type} {c : Prop} [Decidable c] {r r' : Except Check α} (h : Passes r)
    (h' : Passes r') : Passes (if c then r else r') := by
  split_ifs
  · exact h
  · exact h'

theorem infAwareAdd_passes : Passes (infAwareAdd x y) ↔ ¬ Opposite x y := by
  have hinf : kPosInf ≠ kNegInf := by decide
  unfold infAwareAdd Opposite
  by_cases hpos : x = kPosInf
  · rw [if_pos hpos]
    by_cases hy : y = kNegInf
    · rw [if_pos hy]
      exact iff_of_false (fun h => h.1 rfl) (not_not_intro (Or.inl ⟨hpos, hy⟩))
    · rw [if_neg hy]
      refine iff_of_true trivial ?_
      rintro (h | h)
      · exact hy h.2
      · exact hinf (hpos.symm.trans h.1)
  · rw [if_neg hpos]
    by_cases hneg : x = kNegInf
    · rw [if_pos hneg]
      by_cases hy : y = kPosInf
      · rw [if_pos hy]
        exact iff_of_false (fun h => h.1 rfl) (not_not_intro (Or.inr ⟨hneg, hy⟩))
      · rw [if_neg hy]
        refine iff_of_true trivial ?_
        rintro (h | h)
        · exact hpos h.1
        · exact hy h.2
    · rw [if_neg hneg]
      have hnot : ¬ ((x = kPosInf ∧ y = kNegInf) ∨ (x = kNegInf ∧ y = kPosInf)) := by
        rintro (h | h)
        · exact hpos h.1
        · exact hneg h.1
      refine iff_of_true ?_ hnot
      split_ifs
      all_goals exact passes_ok _

theorem infAwareRightShift_passes :
    Passes (infAwareRightShift x y) ↔ Infinite x ∨ (0 ≤ y ∧ y < 64) := by
  unfold infAwareRightShift Infinite
  by_cases hx : x = kPosInf ∨ x = kNegInf
  · rw [if_pos hx]
    exact iff_of_true trivial (Or.inl hx)
  · rw [if_neg hx]
    by_cases hy : 0 ≤ y ∧ y < 64
    · rw [if_pos hy]
      exact iff_of_true trivial (Or.inr hy)
    · rw [if_neg hy]
      exact iff_of_false (fun h => h.2 rfl) fun h => h.elim hx hy

theorem infAwareQuotient_passes (q : Int → Int → Int) : Passes (infAwareQuotient q x y) :=
  passes_ite ⟨Check.noConfusion, Check.noConfusion⟩ (passes_ite (passes_ok _) (passes_ok _))

theorem infAwareMul_passes : Passes (infAwareMul x y) :=
  passes_ite (passes_ok _) (passes_ite (passes_ok _) (passes_ok _))

theorem binaryOpBoundary_passes {op : Int → Int → Except Check Int} (h : ∀ x y, Passes (op x y)) :
    Passes (binaryOpBoundary a b op) := by
  unfold binaryOpBoundary
  simp only [passes_bind]
  exact ⟨h _ _, fun _ _ => ⟨h _ _, fun _ _ => ⟨h _ _, fun _ _ => ⟨h _ _, fun _ _ => passes_ok _⟩⟩⟩⟩

/-- A shift that passes returns. -/
theorem passes_rightShift_ok (h : Passes (infAwareRightShift x y)) :
    ∃ v, infAwareRightShift x y = .ok v := by
  unfold infAwareRightShift at h ⊢
  split_ifs at h ⊢
  · exact ⟨_, rfl⟩
  · exact ⟨_, rfl⟩
  · exact absurd rfl h.2

/-- All four corners are shifted. -/
theorem rightShift_passes : Passes (binaryOpBoundary a b infAwareRightShift) ↔ Shiftable a b := by
  have hcorners : Passes (binaryOpBoundary a b infAwareRightShift) ↔
      Passes (infAwareRightShift a.minValue b.minValue) ∧
      Passes (infAwareRightShift a.maxValue b.maxValue) ∧
      Passes (infAwareRightShift a.minValue b.maxValue) ∧
      Passes (infAwareRightShift a.maxValue b.minValue) := by
    unfold binaryOpBoundary
    simp only [passes_bind]
    constructor
    · intro h
      obtain ⟨h₁, h⟩ := h
      obtain ⟨v₁, hv₁⟩ := passes_rightShift_ok h₁
      obtain ⟨h₂, h⟩ := h v₁ hv₁
      obtain ⟨v₂, hv₂⟩ := passes_rightShift_ok h₂
      obtain ⟨h₃, h⟩ := h v₂ hv₂
      obtain ⟨v₃, hv₃⟩ := passes_rightShift_ok h₃
      exact ⟨h₁, h₂, h₃, (h v₃ hv₃).1⟩
    · intro h
      exact ⟨h.1, fun _ _ => ⟨h.2.1, fun _ _ => ⟨h.2.2.1, fun _ _ => ⟨h.2.2.2, fun _ _ => passes_ok _⟩⟩⟩⟩
  rw [hcorners]
  simp only [infAwareRightShift_passes, Shiftable]
  constructor
  · intro h
    obtain ⟨h₁, h₂, h₃, h₄⟩ := h
    by_cases hmin : Infinite a.minValue
    · by_cases hmax : Infinite a.maxValue
      · exact Or.inl ⟨hmin, hmax⟩
      · exact Or.inr ⟨h₄.resolve_left hmax, h₂.resolve_left hmax⟩
    · exact Or.inr ⟨h₁.resolve_left hmin, h₃.resolve_left hmin⟩
  · intro h
    cases h with
    | inl hinf => exact ⟨Or.inl hinf.1, Or.inl hinf.2, Or.inl hinf.1, Or.inl hinf.2⟩
    | inr hin => exact ⟨Or.inr hin.1, Or.inr hin.2, Or.inr hin.2, Or.inr hin.1⟩

theorem handleDivision_passes {dt : DataType} (q : Int → Int → Int) :
    Passes (handleDivision a b dt (infAwareQuotient q)) := by
  have hq (a b : Entry) : Passes (binaryOpBoundary a b (infAwareQuotient q)) :=
    binaryOpBoundary_passes fun _ _ => infAwareQuotient_passes q
  apply passes_ite
  · simp only [passes_bind]
    exact ⟨hq _ _, fun _ _ => ⟨hq _ _, fun _ _ => passes_ok _⟩⟩
  · exact passes_ite (hq _ _) (hq _ _)

/-- Stepping to the next number never meets an infinity. -/
theorem cap_passes (h : y = 1 ∨ y = -1) : Passes (infAwareAdd x y) := by
  rw [infAwareAdd_passes]
  unfold Opposite kPosInf kNegInf
  omega

theorem visitMod_passes {dt : DataType} : Passes (visitMod dt a b) := by
  apply passes_ite
  · rw [passes_bind]
    refine ⟨cap_passes (Or.inr rfl), fun cap _ => ?_⟩
    exact passes_ite (passes_ite (passes_ok _) (passes_ok _)) (passes_ok _)
  · exact passes_ite ⟨Check.noConfusion, Check.noConfusion⟩ (passes_ok _)

theorem visitFloorMod_passes {dt : DataType} : Passes (visitFloorMod dt a b) := by
  apply passes_ite
  · rw [passes_bind]
    refine ⟨cap_passes (Or.inr rfl), fun cap _ => ?_⟩
    exact passes_ite (passes_ite (passes_ok _) (passes_ok _)) (passes_ok _)
  · refine passes_ite ⟨Check.noConfusion, Check.noConfusion⟩ ?_
    simp only [passes_bind]
    exact ⟨cap_passes (Or.inl rfl), fun _ _ => ⟨cap_passes (Or.inr rfl), fun _ _ => passes_ok _⟩⟩

/-- A sum that passes returns. -/
theorem passes_add_ok (h : Passes (infAwareAdd x y)) : ∃ v, infAwareAdd x y = .ok v := by
  unfold infAwareAdd at h ⊢
  split_ifs at h ⊢
  all_goals first
    | exact ⟨_, rfl⟩
    | exact absurd rfl h.1

/-- Both ends of a bound are added. -/
theorem ends_passes {lo hi lo' hi' : Int} :
    Passes (do
      let minValue ← infAwareAdd lo lo'
      let maxValue ← infAwareAdd hi hi'
      Except.ok (Entry.mk minValue maxValue)) ↔ ¬ Opposite lo lo' ∧ ¬ Opposite hi hi' := by
  simp only [passes_bind]
  constructor
  · intro h
    obtain ⟨hlo, h⟩ := h
    obtain ⟨minValue, hmin⟩ := passes_add_ok hlo
    exact ⟨infAwareAdd_passes.mp hlo, infAwareAdd_passes.mp (h minValue hmin).1⟩
  · intro h
    exact ⟨infAwareAdd_passes.mpr h.1, fun _ _ => ⟨infAwareAdd_passes.mpr h.2, fun _ _ => passes_ok _⟩⟩

/-- Only sums and differences depend on their operands. -/
theorem visitBinary_passes {op : BinaryOp} {dt : DataType} :
    Passes (visitBinary op dt a b) ↔ Compatible op a b := by
  have hzero (c : Check) (hc : Harmless c) (q : Int → Int → Int) : Passes
      (if b.isConst 0 then .error c else handleDivision a b dt (infAwareQuotient q)) := by
    split_ifs
    · exact hc
    · exact handleDivision_passes q
  cases op with
  | add => exact ends_passes
  | sub => exact ends_passes
  | mul => exact iff_of_true (binaryOpBoundary_passes fun _ _ => infAwareMul_passes) trivial
  | div =>
    exact iff_of_true (hzero .divideByZero ⟨Check.noConfusion, Check.noConfusion⟩ Int.tdiv) trivial
  | mod => exact iff_of_true visitMod_passes trivial
  | floorDiv =>
    exact iff_of_true (hzero .floordivByZero ⟨Check.noConfusion, Check.noConfusion⟩ floordiv) trivial
  | floorMod => exact iff_of_true visitFloorMod_passes trivial
  | min | max => exact iff_of_true (passes_ok _) trivial

theorem passes_iff {α : Type} (r : Except Check α) :
    Passes r ↔ ∀ c, r = .error c → c ≠ .oppositeInf ∧ c ≠ .undefinedShift := by
  cases r with
  | ok v =>
    refine iff_of_true trivial fun c h => ?_
    cases h
  | error c => exact ⟨fun h c' hc => Except.error.inj hc ▸ h, fun h => h c rfl⟩

theorem visitExpr_passes {e : PrimExpr} {s : Impl} : Passes (visitExpr e s) ↔ Combines e s := by
  induction e generalizing s with
  | intImm | var | sizeVar | compare | and | or | not => exact iff_of_true (passes_ok _) trivial
  | cast dt e ih =>
    simp only [visitExpr, passes_bind, passes_ok, implies_true, and_true]
    exact ih
  | binary op a b iha ihb =>
    simp only [visitExpr, passes_bind, passes_ok, implies_true, and_true, visitBinary_passes, iha, ihb]
    exact Iff.rfl
  | select c t f ihc iht ihf =>
    simp only [visitExpr, passes_bind, passes_ok, implies_true, and_true, iht, ihf]
    exact Iff.rfl
  | letIn v value body ihv ihb =>
    simp only [visitExpr, Combines]
    cases s.varMap v with
    | none => simp only [passes_bind, passes_ok, implies_true, and_true, ihv, ihb]
    | some entry => simp only [passes_bind, passes_ok, implies_true, and_true, ihb]
  | shiftRight a b iha ihb =>
    simp only [visitExpr, passes_bind, passes_ok, implies_true, and_true, rightShift_passes, iha, ihb]
    exact Iff.rfl
  | bitwiseAnd a b iha ihb =>
    simp only [visitExpr, passes_bind, passes_ok, implies_true, and_true, iha, ihb]
    exact Iff.rfl

/-- `(2^62 + 2^62) + x` with an unknown `x`: the sum of the constants saturates, and its minimum, which
is then +inf, meets the -inf of the variable. -/
def saturatedSum : PrimExpr :=
  .binary .add (.binary .add (.intImm .int64 (2^62)) (.intImm .int64 (2^62))) (.var 0 .int64)

/-- `7 >> x` with an unknown `x`. -/
def unknownShift : PrimExpr := .shiftRight (.intImm .int32 7) (.var 0 .int32)

end ConstIntBoundAnalyzer

end StencilGraph.Arith

import StencilGraph.Arith.ConstIntBoundRules

namespace StencilGraph.Arith
open Framework ConstIntBoundAnalyzer

namespace PrimExpr

/-- A value that the type of the expression represents, between the infinities. -/
def Representable (e : PrimExpr) (ρ : Assignment) : Prop :=
  e.dtype.Fits (e.eval ρ) ∧ Finite (e.eval ρ)

instance (e : PrimExpr) (ρ : Assignment) : Decidable (e.Representable ρ) :=
  inferInstanceAs (Decidable (_ ∧ _))

/-- No division by zero, and a representable value for every subexpression; a size is not negative. -/
def WellDefined : PrimExpr → Assignment → Prop
  | intImm dt value, ρ => (intImm dt value).Representable ρ
  | var v dt, ρ => (var v dt).Representable ρ
  | sizeVar v dt, ρ => (sizeVar v dt).Representable ρ ∧ 0 ≤ ρ v
  | cast dt e, ρ => (cast dt e).Representable ρ ∧ e.WellDefined ρ
  | binary op a b, ρ => (binary op a b).Representable ρ ∧ a.WellDefined ρ ∧ b.WellDefined ρ ∧
    (op.divides = true → b.eval ρ ≠ 0)
  | compare op a b, ρ => (compare op a b).Representable ρ ∧ a.WellDefined ρ ∧ b.WellDefined ρ
  | and a b, ρ => (and a b).Representable ρ ∧ a.WellDefined ρ ∧ b.WellDefined ρ
  | or a b, ρ => (or a b).Representable ρ ∧ a.WellDefined ρ ∧ b.WellDefined ρ
  | not a, ρ => (not a).Representable ρ ∧ a.WellDefined ρ
  | select c t f, ρ => (select c t f).Representable ρ ∧ c.WellDefined ρ ∧ t.WellDefined ρ ∧
    f.WellDefined ρ
  | letIn v value body, ρ => (letIn v value body).Representable ρ ∧ value.WellDefined ρ ∧
    body.WellDefined (Function.update ρ v (value.eval ρ))
  | shiftRight a b, ρ => (shiftRight a b).Representable ρ ∧ a.WellDefined ρ ∧ b.WellDefined ρ
  | bitwiseAnd a b, ρ => (bitwiseAnd a b).Representable ρ ∧ a.WellDefined ρ ∧ b.WellDefined ρ

/-- Signed integer expressions over constants between the infinities, variables, lets, arithmetic,
selections under any condition and bitwise and. -/
def Signed : PrimExpr → Prop
  | intImm dt value => dt.isInt = true ∧ Finite value
  | var _ dt => dt.isInt = true
  | sizeVar _ dt => dt.isInt = true
  | binary _ a b => a.Signed ∧ b.Signed
  | select _ t f => t.Signed ∧ f.Signed
  | letIn _ value body => value.Signed ∧ body.Signed
  | bitwiseAnd a b => a.Signed ∧ b.Signed
  | _ => False

/-- Whether a division of one-bit integers occurs. -/
def DividesNarrow : PrimExpr → Prop
  | binary op a b => ((op = .div ∨ op = .floorDiv) ∧ a.dtype.bits = 1) ∨ a.DividesNarrow ∨
    b.DividesNarrow
  | select _ t f => t.DividesNarrow ∨ f.DividesNarrow
  | letIn _ value body => value.DividesNarrow ∨ body.DividesNarrow
  | bitwiseAnd a b => a.DividesNarrow ∨ b.DividesNarrow
  | _ => False

/-- The signed expressions extended with casts between signed types. -/
def CastSigned : PrimExpr → Prop
  | intImm dt value => dt.isInt = true ∧ Finite value
  | var _ dt => dt.isInt = true
  | sizeVar _ dt => dt.isInt = true
  | cast dt e => dt.isInt = true ∧ e.CastSigned
  | binary _ a b => a.CastSigned ∧ b.CastSigned
  | select _ t f => t.CastSigned ∧ f.CastSigned
  | letIn _ value body => value.CastSigned ∧ body.CastSigned
  | bitwiseAnd a b => a.CastSigned ∧ b.CastSigned
  | _ => False

/-- Every cast is of a value that its type represents. -/
def CastsFit : PrimExpr → Assignment → Prop
  | cast dt e, ρ => e.CastsFit ρ ∧ dt.Fits (e.eval ρ)
  | binary _ a b, ρ => a.CastsFit ρ ∧ b.CastsFit ρ
  | select _ t f, ρ => t.CastsFit ρ ∧ f.CastsFit ρ
  | letIn v value body, ρ => value.CastsFit ρ ∧ body.CastsFit (Function.update ρ v (value.eval ρ))
  | bitwiseAnd a b, ρ => a.CastsFit ρ ∧ b.CastsFit ρ
  | _, _ => True

/-- Whether a division of one-bit integers occurs, also under a cast. -/
def CastDividesNarrow : PrimExpr → Prop
  | cast _ e => e.CastDividesNarrow
  | binary op a b => ((op = .div ∨ op = .floorDiv) ∧ a.dtype.bits = 1) ∨ a.CastDividesNarrow ∨
    b.CastDividesNarrow
  | select _ t f => t.CastDividesNarrow ∨ f.CastDividesNarrow
  | letIn _ value body => value.CastDividesNarrow ∨ body.CastDividesNarrow
  | bitwiseAnd a b => a.CastDividesNarrow ∨ b.CastDividesNarrow
  | _ => False

def decideWellDefined : (e : PrimExpr) → (ρ : Assignment) → Decidable (e.WellDefined ρ)
  | intImm dt value, ρ => inferInstanceAs (Decidable ((intImm dt value).Representable ρ))
  | var v dt, ρ => inferInstanceAs (Decidable ((var v dt).Representable ρ))
  | sizeVar _ _, _ => inferInstanceAs (Decidable (_ ∧ _))
  | cast _ e, ρ =>
    have := e.decideWellDefined ρ
    inferInstanceAs (Decidable (_ ∧ _))
  | not a, ρ =>
    have := a.decideWellDefined ρ
    inferInstanceAs (Decidable (_ ∧ _))
  | binary _ a b, ρ | compare _ a b, ρ | and a b, ρ | or a b, ρ | shiftRight a b, ρ
  | bitwiseAnd a b, ρ =>
    have := a.decideWellDefined ρ
    have := b.decideWellDefined ρ
    inferInstanceAs (Decidable (_ ∧ _))
  | select c t f, ρ =>
    have := c.decideWellDefined ρ
    have := t.decideWellDefined ρ
    have := f.decideWellDefined ρ
    inferInstanceAs (Decidable (_ ∧ _))
  | letIn v value body, ρ =>
    have := value.decideWellDefined ρ
    have := body.decideWellDefined (Function.update ρ v (value.eval ρ))
    inferInstanceAs (Decidable (_ ∧ _))

instance (e : PrimExpr) (ρ : Assignment) : Decidable (e.WellDefined ρ) := e.decideWellDefined ρ

/-- The constants of an expression. -/
def constants : PrimExpr → List Int
  | intImm _ value => [value]
  | var _ _ => []
  | sizeVar _ _ => []
  | cast _ e => e.constants
  | binary _ a b => a.constants ++ b.constants
  | compare _ a b => a.constants ++ b.constants
  | and a b => a.constants ++ b.constants
  | or a b => a.constants ++ b.constants
  | not a => a.constants
  | select c t f => c.constants ++ t.constants ++ f.constants
  | letIn _ value body => value.constants ++ body.constants
  | shiftRight a b => a.constants ++ b.constants
  | bitwiseAnd a b => a.constants ++ b.constants

theorem CastSigned.isInt {e : PrimExpr} (h : e.CastSigned) : e.dtype.isInt = true := by
  induction e with
  | intImm dt value => exact h.1
  | var v dt => exact h
  | sizeVar v dt => exact h
  | cast dt e ih => exact h.1
  | binary op a b iha ihb => exact iha h.1
  | select c t f ihc iht ihf => exact iht h.1
  | letIn v value body ihv ihb => exact ihb h.2
  | bitwiseAnd a b iha ihb => exact iha h.1
  | compare | and | or | not | shiftRight => exact h.elim

/-- An expression without casts is one with casts, all of which fit. -/
theorem Signed.castSigned {e : PrimExpr} (h : e.Signed) :
    e.CastSigned ∧ (∀ ρ, e.CastsFit ρ) ∧ (e.CastDividesNarrow → e.DividesNarrow) := by
  induction e with
  | intImm | var | sizeVar => exact ⟨h, fun _ => trivial, fun hn => hn⟩
  | binary op a b iha ihb =>
    obtain ⟨ha, hfa, hna⟩ := iha h.1
    obtain ⟨hb, hfb, hnb⟩ := ihb h.2
    exact ⟨⟨ha, hb⟩, fun ρ => ⟨hfa ρ, hfb ρ⟩, fun hn => hn.imp_right (Or.imp hna hnb)⟩
  | select c a b ihc iha ihb =>
    obtain ⟨ha, hfa, hna⟩ := iha h.1
    obtain ⟨hb, hfb, hnb⟩ := ihb h.2
    exact ⟨⟨ha, hb⟩, fun ρ => ⟨hfa ρ, hfb ρ⟩, Or.imp hna hnb⟩
  | letIn v a b iha ihb =>
    obtain ⟨ha, hfa, hna⟩ := iha h.1
    obtain ⟨hb, hfb, hnb⟩ := ihb h.2
    exact ⟨⟨ha, hb⟩, fun ρ => ⟨hfa ρ, hfb _⟩, Or.imp hna hnb⟩
  | bitwiseAnd a b iha ihb =>
    obtain ⟨ha, hfa, hna⟩ := iha h.1
    obtain ⟨hb, hfb, hnb⟩ := ihb h.2
    exact ⟨⟨ha, hb⟩, fun ρ => ⟨hfa ρ, hfb ρ⟩, Or.imp hna hnb⟩
  | cast | compare | and | or | not | shiftRight => exact h.elim

theorem WellDefined.representable {e : PrimExpr} {ρ : Assignment} (h : e.WellDefined ρ) :
    e.Representable ρ := by
  cases e with
  | intImm | var => exact h
  | _ => exact h.1

end PrimExpr

namespace ConstIntBoundAnalyzer

open PrimExpr

/-- What an analyzer assumes about an assignment holds of its finite values. -/
structure Impl.Sound (s : Impl) (ρ : Assignment) : Prop where
  map : ∀ v entry, s.varMap v = some entry → Finite (ρ v) → entry.Sound (ρ v)
  info : ∀ info ∈ s.additionalInfo, Finite (info.expr.eval ρ) →
    info.bound.Contains (info.expr.eval ρ)

/-- The variables that a let of the expression must not bind again. -/
structure Impl.Free (s : Impl) (e : PrimExpr) : Prop where
  nodup : e.binders.Nodup
  own : ∀ v ∈ e.binders, v ∉ e.freeVars
  map : ∀ v ∈ e.binders, s.varMap v = none
  info : ∀ v ∈ e.binders, ∀ info ∈ s.additionalInfo, v ∉ info.expr.freeVars

variable {s : Impl} {ρ : Assignment} {e a b : PrimExpr} {entry : Entry}

theorem refine_sound (hs : s.Sound ρ) (hv : Finite (e.eval ρ)) (h : entry.Sound (e.eval ρ)) :
    (s.refine e entry).Sound (e.eval ρ) := by
  have hinfo := hs.info
  unfold Impl.refine
  generalize s.additionalInfo = infos at hinfo
  induction infos generalizing entry with
  | nil => exact h
  | cons info rest ih =>
    rw [List.foldl_cons]
    apply ih
    · by_cases heq : e = info.expr
      · have hc := hinfo info List.mem_cons_self (heq ▸ hv)
        rw [if_pos heq]
        exact intersect_sound h (heq ▸ hc)
      · rw [if_neg heq]
        exact h
    · intro info' hmem
      exact hinfo info' (List.mem_cons_of_mem _ hmem)

/-- The parts of an expression bind no more than the expression. -/
theorem Impl.Free.part {part : PrimExpr} (hf : s.Free e) (hb : part.binders.Sublist e.binders)
    (hv : ∀ v ∈ part.freeVars, v ∈ e.freeVars) : s.Free part where
  nodup := hf.nodup.sublist hb
  own v hmem hfree := hf.own v (hb.subset hmem) (hv v hfree)
  map v hmem := hf.map v (hb.subset hmem)
  info v hmem := hf.info v (hb.subset hmem)

/-- In the body of a let the analyzer knows the bound of the let's variable. -/
theorem Impl.Sound.letIn {v : VarRef} {value : Int} (hs : s.Sound ρ) (he : entry.Sound value)
    (hfree : ∀ info ∈ s.additionalInfo, v ∉ info.expr.freeVars) :
    Impl.Sound { s with varMap := Function.update s.varMap v (some entry) }
      (Function.update ρ v value) where
  map w entry' hw hfin := by
    by_cases heq : w = v
    · rw [heq, Function.update_self]
      simp only [heq, Function.update_self, Option.some.injEq] at hw
      rw [← hw]
      exact he
    · simp only [Function.update_of_ne heq] at hw hfin ⊢
      exact hs.map w entry' hw hfin
  info i hi hfin := by
    rw [eval_update value (hfree i hi)] at hfin ⊢
    exact hs.info i hi hfin

theorem Impl.Free.letIn {v : VarRef} {value body : PrimExpr} (hf : s.Free (.letIn v value body)) :
    Impl.Free { s with varMap := Function.update s.varMap v (some entry) } body := by
  have hnodup := hf.nodup
  simp only [binders, List.nodup_cons, List.cons_append, List.mem_append, not_or] at hnodup
  have hmem {w : VarRef} (hw : w ∈ body.binders) : w ∈ (PrimExpr.letIn v value body).binders :=
    List.mem_append_right _ hw
  have hne {w : VarRef} (hw : w ∈ body.binders) : w ≠ v := by
    intro heq
    exact hnodup.1.2 (heq ▸ hw)
  refine ⟨hnodup.2.sublist (List.sublist_append_right _ _), fun w hw hfree => ?_, fun w hw => ?_, fun w hw => ?_⟩
  · exact hf.own w (hmem hw)
      (List.mem_append_right _ (List.mem_filter.mpr ⟨hfree, decide_eq_true (hne hw)⟩))
  · simp only [Function.update_of_ne (hne hw)]
    exact hf.map w (hmem hw)
  · exact hf.info w (hmem hw)

/-- The entry of an expression contains its value; only a division of one-bit integers can fail a
check. -/
theorem visitExpr_sound (he : e.CastSigned) (hc : e.CastsFit ρ) (hd : e.WellDefined ρ)
    (hs : s.Sound ρ) (hf : s.Free e) :
    Ensures (fun _ => e.CastDividesNarrow) (visitExpr e s) (fun entry => entry.Sound (e.eval ρ)) := by
  have hv := hd.representable.2
  induction e generalizing s ρ with
  | intImm dt value =>
    exact refine_sound hs hv (makeBound_sound he.2.1.le (le_refl value) (le_refl value) he.2.2.le he.2)
  | var v dt =>
    apply refine_sound hs hv
    cases hmap : s.varMap v with
    | none => exact everything_sound he hd.1 hd.2
    | some entry => exact hs.map v entry hmap hv
  | sizeVar v dt =>
    apply refine_sound hs hv
    cases hmap : s.varMap v with
    | none =>
      exact makeBound_sound (by decide) hd.2 hd.1.2.2.le (le_refl _) hd.1.2
    | some entry => exact hs.map v entry hmap hv
  | binary op a b iha ihb =>
    obtain ⟨hrep, hda, hdb, hne⟩ := hd
    have hfa := hf.part (List.sublist_append_left _ _) (fun v hv => List.mem_append_left _ hv)
    have hfb := hf.part (List.sublist_append_right _ _) (fun v hv => List.mem_append_right _ hv)
    apply ((iha he.1 hc.1 hda hs hfa hda.representable.2).weaken fun _ h => Or.inr (Or.inl h)).bind
    intro ea _ hea
    apply ((ihb he.2 hc.2 hdb hs hfb hdb.representable.2).weaken fun _ h => Or.inr (Or.inr h)).bind
    intro eb _ heb
    apply ((visitBinary_sound op hea heb hda.representable.2 hdb.representable.2 hne he.1.isInt
      hrep.1 hrep.2).weaken fun _ h => Or.inl h).bind
    intro res _ hres
    exact refine_sound hs hv hres
  | select c t f ihc iht ihf =>
    obtain ⟨hrep, -, hdt, hdf⟩ := hd
    have hft := hf.part ((List.sublist_append_right _ _).trans (List.sublist_append_left _ _))
      (fun v hv => List.mem_append_left _ (List.mem_append_right _ hv))
    have hff := hf.part (List.sublist_append_right _ _) (fun v hv => List.mem_append_right _ hv)
    apply ((iht he.1 hc.1 hdt hs hft hdt.representable.2).weaken fun _ h => Or.inl h).bind
    intro et _ het
    apply ((ihf he.2 hc.2 hdf hs hff hdf.representable.2).weaken fun _ h => Or.inr h).bind
    intro ef _ hef
    apply refine_sound hs hv
    apply union_sound ⟨het.min_ge, het.max_le⟩ ⟨hef.min_ge, hef.max_le⟩
    by_cases htrue : c.eval ρ ≠ 0
    · left
      simp only [eval, if_pos htrue]
      exact het.contains
    · right
      simp only [eval, if_neg htrue]
      exact hef.contains
  | letIn v value body ihv ihb =>
    obtain ⟨-, hdv, hdb⟩ := hd
    have hvalue : value.binders.Sublist (PrimExpr.letIn v value body).binders :=
      (List.sublist_append_left _ _).trans (List.sublist_cons_self _ _)
    have hfv := hf.part hvalue (fun w hw => List.mem_append_left _ hw)
    have hmem : v ∈ (PrimExpr.letIn v value body).binders := List.mem_cons_self
    simp only [visitExpr, hf.map v hmem]
    apply ((ihv he.1 hc.1 hdv hs hfv hdv.representable.2).weaken fun _ h => Or.inl h).bind
    intro bound _ hbound
    apply ((ihb he.2 hc.2 hdb (hs.letIn hbound (hf.info v hmem)) hf.letIn hdb.representable.2).weaken fun _ h =>
      Or.inr h).bind
    intro ret _ hret
    exact refine_sound hs hv hret
  | bitwiseAnd a b iha ihb =>
    obtain ⟨hrep, hda, hdb⟩ := hd
    have hfa := hf.part (List.sublist_append_left _ _) (fun v hv => List.mem_append_left _ hv)
    have hfb := hf.part (List.sublist_append_right _ _) (fun v hv => List.mem_append_right _ hv)
    apply ((iha he.1 hc.1 hda hs hfa hda.representable.2).weaken fun _ h => Or.inl h).bind
    intro ea _ hea
    apply ((ihb he.2 hc.2 hdb hs hfb hdb.representable.2).weaken fun _ h => Or.inr h).bind
    intro eb _ heb
    exact refine_sound hs hv (visitBitwiseAnd_sound hea heb he.1.isInt hrep.1 hrep.2)
  | cast dt e ih =>
    obtain ⟨hrep, hde⟩ := hd
    -- a value that fits is not changed
    have hkept : (cast dt e).eval ρ = e.eval ρ := DataType.convert_of_fits hc.2
    rw [hkept] at hv ⊢
    apply (ih he.2 hc.1 hde hs (hf.part (List.Sublist.refl _) fun v hv => hv)
      hde.representable.2).bind
    intro a _ ha
    have hres := intersect_sound ha (everything_sound he.1 hc.2 hv).contains
    rw [← hkept] at hv hres ⊢
    exact refine_sound hs hv hres
  | compare | and | or | not | shiftRight => exact he.elim

/-- The variables that a call talks about. -/
def Act.taken : Act → List VarRef
  | .bind v _ _ _ => [v]
  | .update v _ _ => [v]
  | .enterConstraint constraint => constraint.freeVars
  | .exitConstraint => []

/-- What a call must be: ranges are signed expressions whose lets bind variables of their own, and
the constants of a constraint are 64-bit integers. -/
def Act.WellFormed (taken : List VarRef) : Act → Prop
  | .bind _ rangeMin rangeExtent _ => rangeMin.Signed ∧ rangeExtent.Signed ∧
    rangeMin.BoundOnce taken ∧ rangeExtent.BoundOnce taken
  | .update _ _ _ => True
  | .enterConstraint constraint => ∀ c ∈ constraint.constants, -2^63 ≤ c ∧ c < 2^63
  | .exitConstraint => True

/-- The assignment satisfies what a call states. -/
def Act.Holds (ρ : Assignment) : Act → Prop
  | .bind v rangeMin rangeExtent _ => rangeMin.WellDefined ρ ∧ rangeExtent.WellDefined ρ ∧
    rangeMin.eval ρ ≤ ρ v ∧ ρ v < rangeMin.eval ρ + rangeExtent.eval ρ
  | .update v info _ => info.minValue ≤ ρ v ∧ ρ v ≤ info.maxValue
  | .enterConstraint constraint => constraint.eval ρ ≠ 0
  | .exitConstraint => True

/-- What a call must be when its ranges may have casts. -/
def Act.CastWellFormed (taken : List VarRef) : Act → Prop
  | .bind _ rangeMin rangeExtent _ => rangeMin.CastSigned ∧ rangeExtent.CastSigned ∧
    rangeMin.BoundOnce taken ∧ rangeExtent.BoundOnce taken
  | act => act.WellFormed taken

/-- The casts in the range of a call are of values that fit. -/
def Act.CastsFit (ρ : Assignment) : Act → Prop
  | .bind _ rangeMin rangeExtent _ => rangeMin.CastsFit ρ ∧ rangeExtent.CastsFit ρ
  | _ => True

theorem Act.WellFormed.castWellFormed {taken : List VarRef} {act : Act} (h : act.WellFormed taken) :
    act.CastWellFormed taken ∧ act.CastsFit ρ := by
  cases act with
  | bind v rangeMin rangeExtent allowOverride =>
    obtain ⟨hmin, hextent, honce⟩ := h
    exact ⟨⟨hmin.castSigned.1, hextent.castSigned.1, honce⟩, hmin.castSigned.2.1 ρ,
      hextent.castSigned.2.1 ρ⟩
  | update | enterConstraint | exitConstraint => exact ⟨h, trivial⟩

theorem toInt_ne_zero {c : Bool} (h : c.toInt ≠ 0) : c = true := by
  cases c with
  | true => rfl
  | false => exact absurd rfl h

/-- The bounds found in a condition hold where the condition does. -/
theorem detectBoundInfo_sound {c : PrimExpr} (hc : ∀ k ∈ c.constants, -2^63 ≤ k ∧ k < 2^63)
    (htrue : c.eval ρ ≠ 0) : ∀ info ∈ detectBoundInfo c,
      (∀ v ∈ info.expr.freeVars, v ∈ c.freeVars) ∧
      (Finite (info.expr.eval ρ) → info.bound.Contains (info.expr.eval ρ)) := by
  have hinf : kNegInf = -9223372036854775807 ∧ kPosInf = 9223372036854775807 := ⟨rfl, rfl⟩
  have hinc {k v : Int} (hk : -2^63 ≤ k) (hv : v < kPosInf) (h : k < v) : int64 (k + 1) ≤ v := by
    rw [int64_of_range _ (by omega) (by omega)]
    omega
  have hdec {k v : Int} (hk : k < 2^63) (hv : kNegInf < v) (h : v < k) : v ≤ int64 (k - 1) := by
    rw [int64_of_range _ (by omega) (by omega)]
    omega
  induction c using detectBoundInfo.induct with
  | case1 dt k x =>
    have hle : k ≤ x.eval ρ := of_decide_eq_true (toInt_ne_zero htrue)
    intro info hmem
    obtain rfl := List.mem_singleton.mp hmem
    exact ⟨fun v hv => hv, fun hfin => makeBound_contains hle hfin.2.le⟩
  | case2 dt k x =>
    have hlt : k < x.eval ρ := of_decide_eq_true (toInt_ne_zero htrue)
    have hk := hc k List.mem_cons_self
    intro info hmem
    obtain rfl := List.mem_singleton.mp hmem
    exact ⟨fun v hv => hv, fun hfin => makeBound_contains (hinc hk.1 hfin.2 hlt) hfin.2.le⟩
  | case3 x dt k hx =>
    have hle : x.eval ρ ≤ k := of_decide_eq_true (toInt_ne_zero htrue)
    intro info hmem
    rw [detectBoundInfo.eq_3 _ _ _ hx] at hmem
    obtain rfl := List.mem_singleton.mp hmem
    exact ⟨fun v hv => List.mem_append_left _ hv, fun hfin => makeBound_contains hfin.1.le hle⟩
  | case4 x dt k hx =>
    have hlt : x.eval ρ < k := of_decide_eq_true (toInt_ne_zero htrue)
    have hk := hc k (List.mem_append_right _ List.mem_cons_self)
    intro info hmem
    rw [detectBoundInfo.eq_4 _ _ _ hx] at hmem
    obtain rfl := List.mem_singleton.mp hmem
    exact ⟨fun v hv => List.mem_append_left _ hv, fun hfin =>
      makeBound_contains hfin.1.le (hdec hk.2 hfin.1 hlt)⟩
  | case5 x y ihx ihy =>
    have hboth := Bool.and_eq_true_iff.mp (toInt_ne_zero htrue)
    have hx := ihx (fun k hk => hc k (List.mem_append_left _ hk)) (of_decide_eq_true hboth.1)
    have hy := ihy (fun k hk => hc k (List.mem_append_right _ hk)) (of_decide_eq_true hboth.2)
    intro info hmem
    rcases List.mem_append.mp hmem with h | h
    · exact ⟨fun v hv => List.mem_append_left _ ((hx info h).1 v hv), (hx info h).2⟩
    · exact ⟨fun v hv => List.mem_append_right _ ((hy info h).1 v hv), (hy info h).2⟩
  | case6 x h₁ h₂ h₃ h₄ h₅ =>
    intro info hmem
    rw [detectBoundInfo.eq_6 _ h₁ h₂ h₃ h₄ h₅] at hmem
    exact absurd hmem List.not_mem_nil

/-- What holds of the analyzer during a run. -/
structure Impl.Knows (s : Impl) (taken : List VarRef) (ρ : Assignment) : Prop where
  sound : s.Sound ρ
  map : ∀ v, s.varMap v ≠ none → v ∈ taken
  info : ∀ info ∈ s.additionalInfo, ∀ v ∈ info.expr.freeVars, v ∈ taken

theorem Impl.Knows.free {taken : List VarRef} (hs : s.Knows taken ρ) (he : e.BoundOnce taken) :
    s.Free e where
  nodup := he.1
  own v hv := (he.2 v hv).1
  map v hv := by
    by_contra hne
    exact (he.2 v hv).2 (hs.map v hne)
  info v hv info hi hfree := (he.2 v hv).2 (hs.info info hi v hfree)

theorem updateEntry_knows {taken : List VarRef} {v : VarRef} {allowOverride : Bool} {s' : Impl}
    (hs : s.Knows taken ρ) (hv : v ∈ taken) (he : Finite (ρ v) → entry.Sound (ρ v))
    (hrun : updateEntry s v entry allowOverride = .ok s') : s'.Knows taken ρ := by
  unfold updateEntry at hrun
  split_ifs at hrun
  obtain rfl := Except.ok.inj hrun
  refine ⟨⟨fun w entry' hw hfin => ?_, hs.sound.info⟩, fun w hw => ?_, hs.info⟩
  · by_cases heq : w = v
    · simp only [heq, Function.update_self, Option.some.injEq] at hw
      rw [heq] at hfin ⊢
      rw [← hw]
      exact he hfin
    · simp only [Function.update_of_ne heq] at hw
      exact hs.sound.map w entry' hw hfin
  · by_cases heq : w = v
    · exact heq ▸ hv
    · simp only [Function.update_of_ne heq] at hw
      exact hs.map w hw

/-- The bound that `Bind` derives from a range. -/
theorem bind_knows {taken : List VarRef} {v : VarRef} {rangeMin rangeExtent : PrimExpr}
    {allowOverride : Bool} {s' : Impl} (hs : s.Knows taken ρ)
    (hwf : (Act.bind v rangeMin rangeExtent allowOverride).CastWellFormed taken)
    (hfit : (Act.bind v rangeMin rangeExtent allowOverride).CastsFit ρ)
    (hholds : (Act.bind v rangeMin rangeExtent allowOverride).Holds ρ) (hv : v ∈ taken)
    (hrun : bind s v rangeMin rangeExtent allowOverride = .ok s') : s'.Knows taken ρ := by
  have hinf : kNegInf = -9223372036854775807 ∧ kPosInf = 9223372036854775807 := ⟨rfl, rfl⟩
  obtain ⟨hmin, hextent, homin, hoextent⟩ := hwf
  obtain ⟨hdmin, hdextent, hlo, hhi⟩ := hholds
  have hamin := visitExpr_sound hmin hfit.1 hdmin hs.sound (hs.free homin)
  have haextent := visitExpr_sound hextent hfit.2 hdextent hs.sound (hs.free hoextent)
  unfold bind at hrun
  cases ha : visitExpr rangeMin s with
  | error c => rw [ha] at hrun; cases hrun
  | ok a =>
    cases hb : visitExpr rangeExtent s with
    | error c => rw [ha, hb] at hrun; cases hrun
    | ok b =>
      rw [ha] at hamin
      rw [hb] at haextent
      change a.Sound _ at hamin
      change b.Sound _ at haextent
      obtain ⟨hfmin, hfmin'⟩ := hdmin.representable.2
      obtain ⟨last, hlast, hlast₁, hlast₂⟩ := cap_upper haextent hdextent.representable.2
      rw [ha, hb] at hrun
      change (infAwareAdd b.maxValue (-1) >>= _) = _ at hrun
      rw [hlast] at hrun
      change (infAwareAdd a.maxValue last >>= _) = _ at hrun
      cases hmax : infAwareAdd a.maxValue last with
      | error c => rw [hmax] at hrun; cases hrun
      | ok maxValue =>
        rw [hmax] at hrun
        refine updateEntry_knows hs hv (fun hfin => ?_) hrun
        obtain ⟨hf₁, hf₂⟩ := hfin
        -- the distance of the value from the start of the range is below the extent
        obtain ⟨r, hr, hr₁, hr₂⟩ := infAwareAdd_upper (k := ρ v - rangeMin.eval ρ) hfmin (by omega)
          hamin.le_max (show ρ v - rangeMin.eval ρ ≤ last by omega) hamin.max_le hlast₂ (by omega)
          (by omega)
        obtain rfl := Except.ok.inj (hmax.symm.trans hr)
        exact ⟨hamin.min_ge, hamin.min_le.trans hlo, by simp only; omega, hr₂⟩

theorem perform_knows {taken : List VarRef} {act : Act} {s' : Impl} (hs : s.Knows taken ρ)
    (hwf : act.CastWellFormed taken) (hfit : act.CastsFit ρ) (hholds : act.Holds ρ)
    (htaken : ∀ v ∈ act.taken, v ∈ taken)
    (hrun : perform s act = .ok s') : s'.Knows taken ρ := by
  cases act with
  | bind v rangeMin rangeExtent allowOverride =>
    exact bind_knows hs hwf hfit hholds (htaken v List.mem_cons_self) hrun
  | update v info allowOverride =>
    exact updateEntry_knows hs (htaken v List.mem_cons_self)
      (makeBound_sound info.min_ge hholds.1 hholds.2 info.max_le) hrun
  | enterConstraint c =>
    have hnew := detectBoundInfo_sound hwf hholds
    obtain rfl := Except.ok.inj hrun
    unfold enterConstraint
    simp only
    split_ifs with hempty
    · exact ⟨⟨hs.sound.map, hs.sound.info⟩, hs.map, hs.info⟩
    · refine ⟨⟨hs.sound.map, fun info hi => ?_⟩, hs.map, fun info hi v hv => ?_⟩
      · rcases List.mem_append.mp hi with h | h
        · exact hs.sound.info info h
        · exact (hnew info h).2
      · rcases List.mem_append.mp hi with h | h
        · exact hs.info info h v hv
        · exact htaken v ((hnew info h).1 v hv)
  | exitConstraint =>
    change exitConstraint s = .ok s' at hrun
    unfold exitConstraint at hrun
    split at hrun
    · obtain rfl := Except.ok.inj hrun
      exact hs
    · obtain rfl := Except.ok.inj hrun
      exact ⟨⟨hs.sound.map, hs.sound.info⟩, hs.map, hs.info⟩
    · split_ifs at hrun
      obtain rfl := Except.ok.inj hrun
      exact ⟨⟨hs.sound.map, fun info hi => hs.sound.info info (List.mem_of_mem_take hi)⟩, hs.map,
        fun info hi => hs.info info (List.mem_of_mem_take hi)⟩

theorem foldlM_knows {taken : List VarRef} {acts : List Act} {s' : Impl} (hs : s.Knows taken ρ)
    (hacts : ∀ act ∈ acts, (act.CastWellFormed taken ∧ act.CastsFit ρ) ∧ act.Holds ρ ∧
      ∀ v ∈ act.taken, v ∈ taken)
    (hrun : acts.foldlM perform s = .ok s') : s'.Knows taken ρ := by
  induction acts generalizing s with
  | nil => exact Except.ok.inj hrun ▸ hs
  | cons act acts ih =>
    rw [List.foldlM_cons] at hrun
    cases hact : perform s act with
    | error c => rw [hact] at hrun; cases hrun
    | ok s₁ =>
      rw [hact] at hrun
      obtain ⟨⟨hwf, hfit⟩, hholds, htaken⟩ := hacts act List.mem_cons_self
      exact ih (perform_knows hs hwf hfit hholds htaken hact)
        (fun act' h => hacts act' (List.mem_cons_of_mem _ h)) hrun

/-- After a run the entry of an expression contains its value, if no cast changes a value. -/
theorem run_visitExpr_sound {acts : List Act} (hrun : run acts = .ok s)
    (hacts : ∀ act ∈ acts, (act.CastWellFormed (acts.flatMap Act.taken) ∧ act.CastsFit ρ) ∧
      act.Holds ρ)
    (he : e.CastSigned) (hc : e.CastsFit ρ) (honce : e.BoundOnce (acts.flatMap Act.taken))
    (hd : e.WellDefined ρ) :
    Ensures (fun _ => e.CastDividesNarrow) (visitExpr e s) (fun entry => entry.Sound (e.eval ρ)) := by
  have hstart : Impl.new.Knows (acts.flatMap Act.taken) ρ :=
    ⟨⟨fun v entry h => absurd h.symm (Option.some_ne_none entry), fun info h =>
      absurd h List.not_mem_nil⟩, fun v h => absurd rfl h, fun info h => absurd h List.not_mem_nil⟩
  have hs := foldlM_knows hstart (fun act h => ⟨(hacts act h).1, (hacts act h).2, fun v hv =>
    List.mem_flatMap.mpr ⟨act, h, hv⟩⟩) hrun
  exact visitExpr_sound he hc hd hs.sound (hs.free honce)

/-- Constant-bound analysis is sound: after any calls of `Bind`, `Update` and `EnterConstraint`, also
when scopes are left in between, the entry of an expression contains its value under every
assignment that satisfies what was given. There is an entry, unless one-bit integers are divided. -/
theorem const_int_bound_sound {acts : List Act} {s : Impl} {e : PrimExpr} {ρ : Assignment}
    (hrun : run acts = .ok s)
    (hacts : ∀ act ∈ acts, act.WellFormed (acts.flatMap Act.taken) ∧ act.Holds ρ)
    (he : e.Signed) (honce : e.BoundOnce (acts.flatMap Act.taken)) (hd : e.WellDefined ρ) :
    (∀ entry, visitExpr e s = .ok entry →
      entry.minValue ≤ e.eval ρ ∧ e.eval ρ ≤ entry.maxValue) ∧
    (¬ e.DividesNarrow → ∃ entry, visitExpr e s = .ok entry) := by
  obtain ⟨hcast, hfit, hdivides⟩ := he.castSigned
  have hsound := run_visitExpr_sound hrun
    (fun act h => ⟨(hacts act h).1.castWellFormed, (hacts act h).2⟩) hcast (hfit ρ) honce hd
  constructor
  · intro entry hentry
    rw [hentry] at hsound
    exact Entry.Sound.contains hsound
  · intro hnarrow
    cases hentry : visitExpr e s with
    | ok entry => exact ⟨entry, rfl⟩
    | error c =>
      rw [hentry] at hsound
      exact absurd (hdivides hsound) hnarrow

/-- A loop variable below 8 and a value between -3 and 5 that is known to exceed 1. -/
def sampleActs : List Act :=
  [.bind 0 (.intImm .int32 0) (.intImm .int32 8) false,
    .update 1 ⟨-3, 5, by decide, by decide⟩ false,
    .enterConstraint (.compare .lt (.intImm .int32 1) (.var 1 .int32))]

/-- `let z = x * 4 in floordiv(z + y, y)`. -/
def sampleExpr : PrimExpr :=
  .letIn 2 (.binary .mul (.var 0 .int32) (.intImm .int32 4))
    (.binary .floorDiv (.binary .add (.var 2 .int32) (.var 1 .int32)) (.var 1 .int32))

theorem const_int_bound_sound_sample : ∃ s entry, run sampleActs = .ok s ∧
    visitExpr sampleExpr s = .ok entry ∧ entry.minValue ≤ 10 ∧ 10 ≤ entry.maxValue := by
  obtain ⟨s, hs⟩ : ∃ s, run sampleActs = .ok s := ⟨_, rfl⟩
  let ρ : Assignment := fun v => if v = 0 then 7 else 3
  have hacts : ∀ act ∈ sampleActs, act.WellFormed (sampleActs.flatMap Act.taken) ∧ act.Holds ρ := by
    intro act hact
    simp only [sampleActs, List.mem_cons, List.not_mem_nil, or_false] at hact
    rcases hact with rfl | rfl | rfl
    · exact ⟨⟨⟨rfl, by decide⟩, ⟨rfl, by decide⟩, by decide, by decide⟩, by decide, by decide,
        by decide, by decide⟩
    · exact ⟨trivial, by decide, by decide⟩
    · have hholds : (PrimExpr.compare .lt (.intImm .int32 1) (.var 1 .int32)).eval ρ ≠ 0 := by
        decide
      exact ⟨fun c hc => by
        obtain rfl : c = 1 := List.mem_singleton.mp hc
        decide, hholds⟩
  obtain ⟨hbound, hentry⟩ := const_int_bound_sound (e := sampleExpr) (ρ := ρ) hs hacts
    ⟨⟨rfl, rfl, by decide⟩, ⟨rfl, rfl⟩, rfl⟩ (by decide) (by decide)
  obtain ⟨entry, h⟩ := hentry (by
    simp only [sampleExpr, DataType.int32, PrimExpr.DividesNarrow, PrimExpr.dtype, reduceCtorEq, or_true,
      OfNat.ofNat_ne_one, and_false, or_self, not_false_eq_true])
  exact ⟨s, entry, hs, h, hbound entry h⟩

end ConstIntBoundAnalyzer

end StencilGraph.Arith

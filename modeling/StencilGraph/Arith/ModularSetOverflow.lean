import StencilGraph.Arith.ConstIntBoundSound
import StencilGraph.Arith.ModularSetSound

namespace StencilGraph.Arith
open Framework

/-- The 64-bit integers. -/
def Fits64 (z : Int) : Prop := -2^63 ≤ z ∧ z < 2^63

/-- The 64-bit integers whose negation is one too. -/
def InRange (z : Int) : Prop := -2^63 < z ∧ z < 2^63

instance (z : Int) : Decidable (Fits64 z) := inferInstanceAs (Decidable (_ ∧ _))

instance (z : Int) : Decidable (InRange z) := inferInstanceAs (Decidable (_ ∧ _))

theorem InRange.fits {z : Int} (h : InRange z) : Fits64 z := ⟨h.1.le, h.2⟩

theorem Fits64.int64_eq {z : Int} (h : Fits64 z) : int64 z = z := int64_of_range z h.1 h.2

theorem InRange.int64_neg {z : Int} (h : InRange z) : int64 (-z) = -z :=
  int64_of_range _ (Int.neg_le_neg h.2.le) (by have := h.1; omega)

/-! ### The greatest common divisors do not wrap -/

theorem zeroAwareGCD_int64 {a b : Int} (ha : InRange a) (hb : InRange b) :
    zeroAwareGCD int64 a b = zeroAwareGCD id a b := by
  unfold zeroAwareGCD
  rw [ha.int64_neg, hb.int64_neg]
  rfl

theorem gcd_inRange {a b : Int} (ha : InRange a) (hb : InRange b) : InRange (Int.gcd a b) := by
  have hnonneg : (0 : Int) ≤ Int.gcd a b := Int.natCast_nonneg _
  by_cases hzero : a = 0
  · rw [hzero, Int.gcd_zero_left]
    have h₁ := hb.1
    have h₂ := hb.2
    constructor <;> omega
  · have hle : Int.gcd a b ≤ a.natAbs := Nat.le_of_dvd (Int.natAbs_pos.mpr hzero) (Int.gcd_dvd_natAbs_left a b)
    have h₁ := ha.1
    have h₂ := ha.2
    constructor <;> omega

/-- The coefficients of the two remainders have opposite signs `σ`, and `t * oldR + u * r` stays `b`:
none of them is larger than `b`. -/
theorem euclidLoop_int64 {b r oldR s oldS t u σ : Int} (hb : b < 2^63) (hr : 0 ≤ r) (hold : 0 ≤ oldR)
    (ht : 0 ≤ t) (hu : 0 ≤ u) (hσ : σ = 1 ∨ σ = -1) (hs : s = σ * t) (holdS : oldS = -σ * u)
    (hsum : t * oldR + u * r = b) : euclidLoop int64 r oldR s oldS = euclidLoop id r oldR s oldS := by
  induction r, oldR, s, oldS using euclidLoop.induct id generalizing t u σ with
  | case1 oldR s oldS =>
    rw [euclidLoop, dif_pos rfl, euclidLoop, dif_pos rfl]
  | case2 r oldR s oldS h q =>
    rename_i ih
    have hq : 0 ≤ q := Int.tdiv_nonneg hold hr
    have hmod := Int.tmod_add_mul_tdiv oldR r
    have hrem : 0 ≤ oldR - q * r := by
      have := Int.tmod_nonneg r hold
      rw [Int.mul_comm, show q = oldR.tdiv r from rfl]
      omega
    have hqt : 0 ≤ q * t := Int.mul_nonneg hq ht
    have hinv : (u + q * t) * r + t * (oldR - q * r) = b := by
      rw [← hsum]
      ring
    -- the next coefficient times the present remainder is at most `b`
    have hnext : u + q * t ≤ b := by
      have hpos := Int.mul_nonneg ht hrem
      calc u + q * t = (u + q * t) * 1 := (Int.mul_one _).symm
        _ ≤ (u + q * t) * r := Int.mul_le_mul_of_nonneg_left (by omega) (by omega)
        _ ≤ b := by omega
    have hqs : q * s = σ * (q * t) := by
      rw [hs]
      ring
    have hnew : oldS - q * s = -σ * (u + q * t) := by
      rw [holdS, hs]
      ring
    have hfits {z : Int} (h₀ : 0 ≤ z) (hz : z ≤ b) {τ : Int} (hτ : τ = 1 ∨ τ = -1) :
        int64 (τ * z) = τ * z := by
      apply Fits64.int64_eq
      cases hτ with
      | inl h =>
        rw [h]
        constructor <;> omega
      | inr h =>
        rw [h]
        constructor <;> omega
    have hprod : int64 (q * s) = q * s := by
      rw [hqs]
      exact hfits hqt (by omega) hσ
    have hdiff : int64 (oldS - q * s) = oldS - q * s := by
      rw [hnew]
      exact hfits (by omega) hnext (by omega)
    rw [euclidLoop, dif_neg h]
    conv_rhs => rw [euclidLoop, dif_neg h]
    simp only [show oldR.tdiv r = q from rfl, hprod, hdiff]
    exact @ih (u + q * t) t (-σ) hrem hr (by omega) ht (by omega) hnew (by rw [hs]; ring) hinv

theorem extendedEuclidean_int64 {a b : Int} (ha : 0 ≤ a) (hb : 0 ≤ b) (hlt : b < 2^63) :
    (extendedEuclidean int64 a b).1 = (extendedEuclidean id a b).1 ∧
      (extendedEuclidean int64 a b).2.1 = (extendedEuclidean id a b).2.1 := by
  have hloop : euclidLoop int64 b a 0 1 = euclidLoop id b a 0 1 :=
    @euclidLoop_int64 b b a 0 1 0 1 (-1) hlt hb ha (le_refl 0) (by decide) (Or.inr rfl) rfl rfl
      (by omega)
  unfold extendedEuclidean
  simp only [if_pos ha, hloop, and_self]

namespace ModularSetAnalyzer
open PrimExpr

/-! ### The numbers on the way, over the unbounded integers -/

/-- The sums and products of an arithmetic rule are 64-bit integers; those whose greatest common divisor
is taken are negated there. -/
def RuleFits (op : BinaryOp) (a b : Entry) : Prop :=
  match op with
  | .add => Fits64 (a.base + b.base)
  | .sub => Fits64 (a.base - b.base)
  | .mul => (InRange (a.coeff * b.coeff) ∧ InRange (a.coeff * b.base) ∧ InRange (a.base * b.coeff)) ∧
    Fits64 (a.base * b.base)
  | .floorMod => InRange b.base
  | _ => True

/-- The numbers of an intersection. -/
def IntersectFits (a b : Entry) : Prop :=
  let (gcd, x, _) := extendedEuclidean id a.coeff b.coeff
  let v := b.base - a.base
  Fits64 v ∧ (v.tmod gcd = 0 → Fits64 (v.tdiv gcd * x) ∧ Fits64 (a.coeff.tdiv gcd * b.coeff) ∧
    Fits64 (v.tdiv gcd * x * a.coeff) ∧ Fits64 (v.tdiv gcd * x * a.coeff + a.base))

/-- Where the visitor goes, the numbers of the unbounded analysis are 64-bit integers. -/
def ExprFits (prove : Impl → PrimExpr → Bool) : PrimExpr → Impl → Prop
  | .binary op a b, s =>
    if op = .mod then True
    else if op.divides then
      ExprFits prove b s ∧ ∀ eb, visitExpr id prove b s = .ok eb → eb.isConst = true →
        ExprFits prove a s ∧ ∀ ea, visitExpr id prove a s = .ok ea → RuleFits op ea eb
    else
      ExprFits prove a s ∧ ExprFits prove b s ∧ ∀ ea eb, visitExpr id prove a s = .ok ea →
        visitExpr id prove b s = .ok eb → RuleFits op ea eb
  | .select _ t f, s => ExprFits prove t s ∧ ExprFits prove f s
  | .letIn v value body, s =>
    match s.varMap v with
    | none => ExprFits prove value s ∧ ∀ entry, visitExpr id prove value s = .ok entry →
      ExprFits prove body { s with varMap := Function.update s.varMap v (some entry) }
    | some _ => ExprFits prove body s
  | _, _ => True

/-- A coefficient that is a 64-bit integer. -/
def Entry.Bounded (e : Entry) : Prop := 0 ≤ e.coeff ∧ e.coeff < 2^63

/-- The wrapping computation does what the unbounded one does. -/
def Agrees (f : (Int → Int) → Except Check Entry) : Prop :=
  f int64 = f id ∧ ∀ e, f id = .ok e → e.Bounded

variable {a b : Entry} {coeff base : Int}

theorem Entry.Bounded.inRange (h : a.Bounded) : InRange a.coeff :=
  ⟨by have := h.1; omega, h.2⟩

/-- The constructor refuses a negative coefficient. -/
theorem make_bounded (hc : Fits64 coeff) {e : Entry} (h : Entry.make coeff base = .ok e) :
    e.Bounded := by
  have hcoeff := make_coeff h
  unfold Entry.make at h
  split_ifs at h with hneg
  all_goals exact ⟨by omega, by rw [hcoeff]; exact hc.2⟩

theorem everything_bounded : everything.Bounded := ⟨by decide, by decide⟩

theorem agrees_ok {e : Entry} (he : e.Bounded) : Agrees fun _ => .ok e :=
  ⟨rfl, fun _ h => Except.ok.inj h ▸ he⟩

theorem agrees_make {c z : (Int → Int) → Int} (hc : c int64 = c id) (hin : InRange (c id))
    (hz : z int64 = z id) : Agrees fun num => Entry.make (c num) (z num) := by
  refine ⟨?_, fun e h => make_bounded hin.fits h⟩
  show Entry.make (c int64) (z int64) = Entry.make (c id) (z id)
  rw [hc, hz]

theorem agrees_bind {f : (Int → Int) → Except Check Entry} {g : (Int → Int) → Entry → Except Check Entry}
    (hf : Agrees f) (hg : ∀ e, f id = .ok e → e.Bounded → Agrees fun num => g num e) :
    Agrees fun num => f num >>= g num := by
  constructor
  · show f int64 >>= g int64 = f id >>= g id
    rw [hf.1]
    cases hrun : f id with
    | error c => rfl
    | ok e => exact (hg e hrun (hf.2 e hrun)).1
  · intro e' h
    simp only at h
    cases hrun : f id with
    | error c =>
      rw [hrun] at h
      cases h
    | ok e =>
      rw [hrun] at h
      exact (hg e hrun (hf.2 e hrun)).2 e' h

theorem agrees_gcd {x y : Int} (hx : InRange x) (hy : InRange y) :
    zeroAwareGCD int64 x y = zeroAwareGCD id x y ∧ InRange (zeroAwareGCD id x y) := by
  refine ⟨zeroAwareGCD_int64 hx hy, ?_⟩
  rw [zeroAwareGCD_eq]
  exact gcd_inRange hx hy

theorem visitAdd_agrees (ha : a.Bounded) (hb : b.Bounded) (h : RuleFits .add a b) :
    Agrees fun num => visitAdd num a b := by
  obtain ⟨hgcd, hin⟩ := agrees_gcd ha.inRange hb.inRange
  exact agrees_make hgcd hin h.int64_eq

theorem visitSub_agrees (ha : a.Bounded) (hb : b.Bounded) (h : RuleFits .sub a b) :
    Agrees fun num => visitSub num a b := by
  obtain ⟨hgcd, hin⟩ := agrees_gcd ha.inRange hb.inRange
  exact agrees_make hgcd hin h.int64_eq

theorem visitMul_agrees (h : RuleFits .mul a b) : Agrees fun num => visitMul num a b := by
  obtain ⟨⟨hpq, hpm, hqn⟩, hbase⟩ := h
  obtain ⟨hinner, hinner'⟩ := agrees_gcd hpm hqn
  obtain ⟨hgcd, hin⟩ := agrees_gcd hpq hinner'
  apply agrees_make (c := fun num => zeroAwareGCD num (num (a.coeff * b.coeff))
    (zeroAwareGCD num (num (a.coeff * b.base)) (num (a.base * b.coeff)))) _ hin hbase.int64_eq
  simp only [hpq.fits.int64_eq, hpm.fits.int64_eq, hqn.fits.int64_eq, id, hinner, hgcd]

theorem visitFloorMod_agrees (ha : a.Bounded) (h : RuleFits .floorMod a b) :
    Agrees fun num => visitFloorMod num a b.base := by
  obtain ⟨hgcd, hin⟩ := agrees_gcd ha.inRange h
  exact agrees_make hgcd hin rfl

theorem agrees_ite {p : Prop} [Decidable p] {f g : (Int → Int) → Except Check Entry}
    (hf : p → Agrees f) (hg : ¬ p → Agrees g) : Agrees fun num => if p then f num else g num := by
  by_cases h : p
  · simp only [if_pos h]
    exact hf h
  · simp only [if_neg h]
    exact hg h

theorem Agrees.congr {f g : (Int → Int) → Except Check Entry} (h : Agrees g)
    (hwrap : f int64 = g int64) (hid : f id = g id) : Agrees f := by
  unfold Agrees at h ⊢
  rw [hwrap, hid]
  exact h

/-- The remainders of the bases are smaller than the coefficient. -/
theorem union_agrees (ha : a.Bounded) (hb : b.Bounded) : Agrees fun num => union num a b := by
  obtain ⟨hgcd, hin⟩ := agrees_gcd ha.inRange hb.inRange
  have hunion {num : Int → Int} {g : Int} (h : zeroAwareGCD num a.coeff b.coeff = g) : union num a b =
      if g = 0 then .ok (if a.base = b.base then a else everything)
      else if a.base.tmod g = b.base.tmod g then Entry.make g (a.base.tmod g)
      else Entry.make (zeroAwareGCD num (zeroAwareGCD num (a.base.tmod g) (b.base.tmod g)) g)
        (a.base.tmod g) := by
    rw [← h]
    rfl
  obtain ⟨g, hg⟩ : ∃ g, zeroAwareGCD id a.coeff b.coeff = g := ⟨_, rfl⟩
  rw [hg] at hgcd hin
  have hrem (hne : ¬ g = 0) (z : Int) : InRange (z.tmod g) := by
    have hlt := natAbs_tmod_lt z hne
    have h₁ := hin.1
    have h₂ := hin.2
    constructor <;> omega
  have hbody : Agrees fun num => if g = 0 then .ok (if a.base = b.base then a else everything)
      else if a.base.tmod g = b.base.tmod g then Entry.make g (a.base.tmod g)
      else Entry.make (zeroAwareGCD num (zeroAwareGCD num (a.base.tmod g) (b.base.tmod g)) g)
        (a.base.tmod g) := by
    apply agrees_ite
    · intro _
      apply agrees_ok
      split_ifs
      · exact ha
      · exact everything_bounded
    · intro hne
      apply agrees_ite
      · intro _
        exact ⟨rfl, fun e h => make_bounded hin.fits h⟩
      · intro _
        obtain ⟨hinner, hinner'⟩ := agrees_gcd (hrem hne a.base) (hrem hne b.base)
        obtain ⟨houter, houter'⟩ := agrees_gcd hinner' hin
        apply agrees_make (c := fun num => zeroAwareGCD num (zeroAwareGCD num (a.base.tmod g)
          (b.base.tmod g)) g) _ houter' rfl
        simp only [hinner, houter]
  exact hbody.congr (hunion hgcd) (hunion hg)

theorem divByConst_agrees {nonneg roundDown : Bool} {val : Int} (ha : a.Bounded) :
    Agrees fun _ => divByConst a nonneg val roundDown := by
  refine ⟨rfl, fun e h => ?_⟩
  have hquot : InRange (a.coeff.tdiv val) := by
    have hle := Int.natAbs_tdiv_le_natAbs a.coeff val
    have h₁ := ha.1
    have h₂ := ha.2
    constructor <;> omega
  unfold divByConst at h
  split_ifs at h
  · apply make_bounded _ h
    have hnonneg := abs_nonneg (a.coeff.tdiv val)
    exact ⟨by omega, abs_lt.mpr hquot⟩
  · exact make_bounded hquot.fits h
  all_goals exact Except.ok.inj h ▸ everything_bounded

variable {s s' : Impl} {e : PrimExpr} {prove : Impl → PrimExpr → Bool} {entry : Entry}

def MapBounded (varMap : VarRef → Option Entry) : Prop :=
  ∀ v entry, varMap v = some entry → entry.Bounded

theorem MapBounded.update {varMap : VarRef → Option Entry} (h : MapBounded varMap) (v : VarRef)
    (he : entry.Bounded) : MapBounded (Function.update varMap v (some entry)) := by
  intro w entry' hw
  by_cases heq : w = v
  · rw [heq, Function.update_self, Option.some.injEq] at hw
    exact hw ▸ he
  · rw [Function.update_of_ne heq] at hw
    exact h w entry' hw

theorem MapBounded.getD {v : VarRef} (h : MapBounded s.varMap) :
    ((s.varMap v).getD everything).Bounded := by
  cases hv : s.varMap v with
  | none => exact everything_bounded
  | some entry => exact h v entry hv

/-- Where the numbers fit, the visitor does what it does over the unbounded integers. -/
theorem visitExpr_agrees (he : e.Modular) (hs : MapBounded s.varMap) (hfit : ExprFits prove e s) :
    Agrees fun num => visitExpr num prove e s := by
  induction e generalizing s with
  | intImm dt value =>
    exact ⟨rfl, fun e h => make_bounded (show Fits64 0 by decide) h⟩
  | var v dt => exact agrees_ok hs.getD
  | sizeVar v dt => exact agrees_ok hs.getD
  | compare | and | or | not | bitwiseAnd => exact agrees_ok everything_bounded
  | cast | shiftRight => exact he.elim
  | select c t f ihc iht ihf =>
    apply agrees_bind (iht he.1 hs hfit.1)
    intro et _ het
    apply agrees_bind (ihf he.2 hs hfit.2)
    intro ef _ hef
    exact union_agrees het hef
  | letIn v value body ihv ihb =>
    simp only [ExprFits] at hfit
    simp only [visitExpr]
    cases hmap : s.varMap v with
    | none =>
      rw [hmap] at hfit
      apply agrees_bind (ihv he.1 hs hfit.1)
      intro entry hentry hbounded
      exact ihb he.2 (hs.update v hbounded) (hfit.2 entry hentry)
    | some entry =>
      rw [hmap] at hfit
      exact ihb he.2 hs hfit
  | binary op a b iha ihb =>
    cases op with
    | add =>
      obtain ⟨ha, hb, hrule⟩ := hfit
      apply agrees_bind (iha he.1 hs ha)
      intro ea hea hea'
      apply agrees_bind (ihb he.2 hs hb)
      intro eb heb heb'
      exact visitAdd_agrees hea' heb' (hrule ea eb hea heb)
    | sub =>
      obtain ⟨ha, hb, hrule⟩ := hfit
      apply agrees_bind (iha he.1 hs ha)
      intro ea hea hea'
      apply agrees_bind (ihb he.2 hs hb)
      intro eb heb heb'
      exact visitSub_agrees hea' heb' (hrule ea eb hea heb)
    | mul =>
      obtain ⟨ha, hb, hrule⟩ := hfit
      apply agrees_bind (iha he.1 hs ha)
      intro ea hea _
      apply agrees_bind (ihb he.2 hs hb)
      intro eb heb _
      exact visitMul_agrees (hrule ea eb hea heb)
    | mod => exact agrees_ok everything_bounded
    | min | max =>
      obtain ⟨ha, hb, -⟩ := hfit
      apply agrees_bind (iha he.1 hs ha)
      intro ea _ hea
      apply agrees_bind (ihb he.2 hs hb)
      intro eb _ heb
      exact union_agrees hea heb
    | div | floorDiv =>
      obtain ⟨hb, hdividend⟩ := hfit
      apply agrees_bind (ihb he.2 hs hb)
      intro eb heb _
      apply agrees_ite
      · intro hconst
        apply agrees_bind (iha he.1 hs (hdividend eb heb hconst).1)
        intro ea _ hea
        exact divByConst_agrees hea
      · intro _
        exact agrees_ok everything_bounded
    | floorMod =>
      obtain ⟨hb, hdividend⟩ := hfit
      apply agrees_bind (ihb he.2 hs hb)
      intro eb heb _
      apply agrees_ite
      · intro hconst
        apply agrees_ite
        · intro _
          exact ⟨rfl, fun e h => by cases h⟩
        · intro _
          apply agrees_bind (iha he.1 hs (hdividend eb heb hconst).1)
          intro ea hea hea'
          exact visitFloorMod_agrees hea' ((hdividend eb heb hconst).2 ea hea)
      · intro _
        exact agrees_ok everything_bounded

theorem nothing_bounded : nothing.Bounded := ⟨by decide, by decide⟩

theorem intersect_agrees (ha : a.Bounded) (hb : b.Bounded) (h : IntersectFits a b) :
    Agrees fun num => intersect num a b := by
  obtain ⟨hgcd, hx⟩ := extendedEuclidean_int64 ha.1 hb.1 hb.2
  obtain ⟨hspec, -⟩ := extendedEuclidean_spec ha.1 hb.1
  unfold IntersectFits at h
  simp only [Agrees, intersect]
  generalize extendedEuclidean int64 a.coeff b.coeff = wrapped at hgcd hx
  generalize extendedEuclidean id a.coeff b.coeff = exact at h hgcd hx hspec
  obtain ⟨g, x, y⟩ := exact
  obtain ⟨g', x', y'⟩ := wrapped
  simp only at h hgcd hx hspec
  subst hgcd hx
  obtain ⟨hv, hrest⟩ := h
  simp only [id, hv.int64_eq]
  split_ifs with hzero hmod
  · exact ⟨rfl, fun e h => by cases h⟩
  · obtain ⟨hshift, hcoeff, hproduct, hsum⟩ := hrest hmod
    rw [hshift.int64_eq, hcoeff.int64_eq, hproduct.int64_eq, hsum.int64_eq]
    refine ⟨rfl, fun e h => make_bounded ?_ h⟩
    have hnonneg : 0 ≤ a.coeff.tdiv g' * b.coeff := by
      have hg0 : 0 ≤ g' := hspec ▸ Int.natCast_nonneg _
      exact Int.mul_nonneg (Int.tdiv_nonneg ha.1 hg0) hb.1
    exact ⟨by omega, hcoeff.2⟩
  · exact ⟨rfl, fun e h => Except.ok.inj h ▸ nothing_bounded⟩

/-- The facts given are 64-bit integers. -/
def Act.Is64 : Act → Prop
  | .update _ coeff base _ => Fits64 coeff ∧ Fits64 base
  | .enterConstraint constraint => ∀ v coeff base, matchConstraint constraint = some (v, coeff, base) →
    Fits64 coeff ∧ Fits64 base
  | .exitConstraint => True

/-- The intersection that a constraint causes has numbers that fit. -/
def ActFits (s : Impl) : Act → Prop
  | .enterConstraint constraint => ∀ v coeff base entry,
    matchConstraint constraint = some (v, coeff, base) → Entry.make coeff base = .ok entry →
      IntersectFits (s.fact v) entry
  | _ => True

def RunFits : Impl → List Act → Prop
  | _, [] => True
  | s, act :: acts => ActFits s act ∧ ∀ s', perform id s act = .ok s' → RunFits s' acts

/-- The coefficients in the analyzer, also of the facts that will be restored. -/
structure Impl.Bounded (s : Impl) : Prop where
  map : MapBounded s.varMap
  scopes : ∀ v old, some (v, old) ∈ s.scopes → old.Bounded

theorem update_bounded {v : VarRef} {allowOverride : Bool} (hs : s.Bounded) (hc : Fits64 coeff)
    (hrun : update s v coeff base allowOverride = .ok s') : s'.Bounded := by
  obtain ⟨entry, hmake, rfl⟩ := update_cases hrun
  exact ⟨hs.map.update v (make_bounded hc hmake), hs.scopes⟩

theorem exitConstraint_bounded (hs : s.Bounded) : (exitConstraint s).Bounded := by
  obtain ⟨varMap, scopes⟩ := s
  obtain ⟨hmap, hscopes⟩ := hs
  cases scopes with
  | nil => exact ⟨hmap, hscopes⟩
  | cons scope rest =>
    have hrest : ∀ v old, some (v, old) ∈ rest → old.Bounded := fun v old h =>
      hscopes v old (List.mem_cons_of_mem _ h)
    cases scope with
    | none => exact ⟨hmap, hrest⟩
    | some saved =>
      exact ⟨hmap.update saved.1 (hscopes saved.1 saved.2 List.mem_cons_self), hrest⟩

theorem enterConstraint_agrees {constraint : PrimExpr} (hs : s.Bounded)
    (hact : (Act.enterConstraint constraint).Is64) (hfit : ActFits s (.enterConstraint constraint)) :
    enterConstraint int64 s constraint = enterConstraint id s constraint ∧
      ∀ s', enterConstraint id s constraint = .ok s' → s'.Bounded := by
  unfold enterConstraint
  cases hmatch : matchConstraint constraint with
  | none =>
    refine ⟨rfl, fun s' h => ?_⟩
    cases h
    refine ⟨hs.map, fun v old hmem => ?_⟩
    simp only [List.mem_cons, reduceCtorEq, false_or] at hmem
    exact hs.scopes v old hmem
  | some found =>
    obtain ⟨v, coeff, base⟩ := found
    simp only [bind, Except.bind]
    cases hmake : Entry.make coeff base with
    | error c =>
      refine ⟨rfl, fun s' h => ?_⟩
      cases h
    | ok entry =>
      have hentry := make_bounded (hact v coeff base hmatch).1 hmake
      obtain ⟨hwrap, hnew⟩ := intersect_agrees hs.map.getD hentry (hfit v coeff base entry hmatch hmake)
      simp only at hwrap hnew
      simp only [updateByIntersect, bind, Except.bind, hwrap, true_and]
      intro s' h
      cases hrun : intersect id ((s.varMap v).getD everything) entry with
      | error c =>
        rw [hrun] at h
        cases h
      | ok new =>
        rw [hrun] at h
        cases h
        refine ⟨hs.map.update v (hnew new hrun), fun w old hmem => ?_⟩
        cases List.mem_cons.mp hmem with
        | inl heq =>
          cases heq
          exact hs.map.getD
        | inr hmem => exact hs.scopes w old hmem

theorem perform_agrees {act : Act} (hs : s.Bounded) (hact : act.Is64) (hfit : ActFits s act) :
    perform int64 s act = perform id s act ∧ ∀ s', perform id s act = .ok s' → s'.Bounded := by
  cases act with
  | update v coeff base allowOverride => exact ⟨rfl, fun s' h => update_bounded hs hact.1 h⟩
  | enterConstraint constraint => exact enterConstraint_agrees hs hact hfit
  | exitConstraint => exact ⟨rfl, fun s' h => Except.ok.inj h ▸ exitConstraint_bounded hs⟩

theorem foldlM_agrees {acts : List Act} (hs : s.Bounded) (hacts : ∀ act ∈ acts, act.Is64)
    (hfit : RunFits s acts) (hrun : acts.foldlM (perform int64) s = .ok s') :
    acts.foldlM (perform id) s = .ok s' ∧ s'.Bounded := by
  induction acts generalizing s with
  | nil =>
    cases hrun
    exact ⟨rfl, hs⟩
  | cons act acts ih =>
    obtain ⟨hstep, hbounded⟩ := perform_agrees hs (hacts act List.mem_cons_self) hfit.1
    rw [List.foldlM_cons, hstep] at hrun
    rw [List.foldlM_cons]
    cases hact : perform id s act with
    | error c =>
      rw [hact] at hrun
      cases hrun
    | ok s₁ =>
      rw [hact] at hrun
      exact ih (hbounded s₁ hact) (fun act' h => hacts act' (List.mem_cons_of_mem _ h))
        (hfit.2 s₁ hact) hrun

/-- The analysis with its wrapping 64-bit arithmetic is sound where the numbers it would have over the
unbounded integers are 64-bit integers. -/
theorem wrapping_sound {acts : List Act} {ρ : Assignment} (hrun : run int64 acts = .ok s)
    (hacts : ∀ act ∈ acts, act.Is64 ∧ act.Holds ρ) (hopen : ∀ c ∈ openConstraints acts, c.eval ρ ≠ 0)
    (hfits : RunFits .new acts) (he : e.Modular) (honce : e.BoundOnce (acts.flatMap Act.taken))
    (hd : e.DividesByNonzero ρ) (hp : SoundProver prove e ρ) (hefits : ExprFits prove e s) :
    ∃ entry, visitExpr int64 prove e s = .ok entry ∧ 0 ≤ entry.coeff ∧
      entry.coeff ∣ e.eval ρ - entry.base ∧ (entry.coeff = 0 → e.eval ρ = entry.base) := by
  have hnew : Impl.new.Bounded :=
    ⟨fun v entry h => absurd h.symm (Option.some_ne_none entry), fun v old h => absurd h List.not_mem_nil⟩
  obtain ⟨hexact, hs⟩ := foldlM_agrees hnew (fun act h => (hacts act h).1) hfits hrun
  obtain ⟨hcast, hdivides⟩ := he.castModular
  obtain ⟨entry, hentry, hsound⟩ := run_visitExpr_sound hexact (fun act h => (hacts act h).2) hopen hcast
    honce (hdivides ρ hd) hp
  exact ⟨entry, (visitExpr_agrees he hs.map hefits).1.trans hentry, hsound⟩

/-- `x * 2`. -/
def doubled : PrimExpr := .binary .mul (.var 0 .int64) (.intImm .int64 2)

/-- A variable that is two modulo four. -/
theorem wrapping_sound_doubled : ∃ s entry, run int64 [.update 0 4 2 false] = .ok s ∧
    visitExpr int64 (fun _ _ => false) doubled s = .ok entry ∧ entry.coeff ∣ 12 - entry.base := by
  let s : Impl := ⟨Function.update (fun _ => none) 0 (some ⟨4, 2⟩), []⟩
  obtain ⟨entry, hentry, -, hdvd, -⟩ := @wrapping_sound s doubled (fun _ _ => false)
    [.update 0 4 2 false] (fun _ => 6) rfl
    (by
      intro act h
      cases List.mem_singleton.mp h
      exact ⟨⟨by decide, by decide⟩, ⟨1, rfl⟩⟩)
    (by decide) ⟨trivial, fun _ _ => trivial⟩ ⟨trivial, trivial⟩ (by decide)
    ⟨trivial, trivial, by decide⟩ (fun _ _ _ _ _ h => by cases h)
    (by
      refine ⟨trivial, trivial, fun ea eb ha hb => ?_⟩
      cases ha
      cases hb
      exact ⟨⟨by decide, by decide, by decide⟩, by decide⟩)
  exact ⟨s, entry, rfl, hentry, hdvd⟩

/-- A variable that is `2^62 - 1` modulo `2^62 + 1`, such as -2. -/
def wideActs : List Act := [.update 0 (2^62 + 1) (2^62 - 1) false]

/-- The product `(2^62 + 1) * 2` wraps to `-(2^63 - 2)`, and the value -4 is no multiple of that. -/
theorem product_wraps : ∃ s entry, run int64 wideActs = .ok s ∧
    (∀ act ∈ wideActs, act.Is64 ∧ act.Holds fun _ => -2) ∧ doubled.Modular ∧
    doubled.DividesByNonzero (fun _ => -2) ∧ doubled.WellDefined (fun _ => -2) ∧
    visitExpr int64 (fun _ _ => false) doubled s = .ok entry ∧
    ¬ entry.coeff ∣ (doubled.eval fun _ => -2) - entry.base := by
  refine ⟨⟨Function.update (fun _ => none) 0 (some ⟨2^62 + 1, 2^62 - 1⟩), []⟩, ⟨2^63 - 2, 0⟩, rfl, ?_,
    ⟨trivial, trivial⟩, ⟨trivial, trivial, ?_⟩, by decide, rfl, by decide⟩
  · intro act h
    cases List.mem_singleton.mp h
    exact ⟨⟨by decide, by decide⟩, ⟨-1, rfl⟩⟩
  · intro h
    cases h

end ModularSetAnalyzer

end StencilGraph.Arith

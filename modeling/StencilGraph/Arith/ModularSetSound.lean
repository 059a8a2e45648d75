import StencilGraph.Arith.ModularSetRules

namespace StencilGraph.Arith
open Framework

namespace PrimExpr

/-- Expressions without casts and shifts where the analysis goes. -/
def Modular : PrimExpr → Prop
  | cast _ _ => False
  | shiftRight _ _ => False
  | binary _ a b => a.Modular ∧ b.Modular
  | select _ t f => t.Modular ∧ f.Modular
  | letIn _ value body => value.Modular ∧ body.Modular
  | _ => True

/-- Every division is by a number other than zero. -/
def DividesByNonzero : PrimExpr → Assignment → Prop
  | binary op a b, ρ => a.DividesByNonzero ρ ∧ b.DividesByNonzero ρ ∧
    (op.divides = true → b.eval ρ ≠ 0)
  | select _ t f, ρ => t.DividesByNonzero ρ ∧ f.DividesByNonzero ρ
  | letIn v value body, ρ => value.DividesByNonzero ρ ∧
    body.DividesByNonzero (Function.update ρ v (value.eval ρ))
  | _, _ => True

/-- Expressions without shifts where the analysis goes, with casts to signed types. -/
def CastModular : PrimExpr → Prop
  | cast dt e => dt.isInt = true ∧ e.CastModular
  | shiftRight _ _ => False
  | binary _ a b => a.CastModular ∧ b.CastModular
  | select _ t f => t.CastModular ∧ f.CastModular
  | letIn _ value body => value.CastModular ∧ body.CastModular
  | _ => True

/-- Every division is by a number other than zero, and every cast is of a value that its type
represents. -/
def DividesAndFits : PrimExpr → Assignment → Prop
  | cast dt e, ρ => e.DividesAndFits ρ ∧ dt.Fits (e.eval ρ)
  | binary op a b, ρ => a.DividesAndFits ρ ∧ b.DividesAndFits ρ ∧
    (op.divides = true → b.eval ρ ≠ 0)
  | select _ t f, ρ => t.DividesAndFits ρ ∧ f.DividesAndFits ρ
  | letIn v value body, ρ => value.DividesAndFits ρ ∧
    body.DividesAndFits (Function.update ρ v (value.eval ρ))
  | _, _ => True

/-- Without casts nothing has to fit. -/
theorem Modular.castModular {e : PrimExpr} (h : e.Modular) :
    e.CastModular ∧ ∀ ρ, e.DividesByNonzero ρ → e.DividesAndFits ρ := by
  induction e with
  | binary op a b iha ihb =>
    obtain ⟨ha, hda⟩ := iha h.1
    obtain ⟨hb, hdb⟩ := ihb h.2
    exact ⟨⟨ha, hb⟩, fun ρ hd => ⟨hda ρ hd.1, hdb ρ hd.2.1, hd.2.2⟩⟩
  | select c a b ihc iha ihb =>
    obtain ⟨ha, hda⟩ := iha h.1
    obtain ⟨hb, hdb⟩ := ihb h.2
    exact ⟨⟨ha, hb⟩, fun ρ hd => ⟨hda ρ hd.1, hdb ρ hd.2⟩⟩
  | letIn v a b iha ihb =>
    obtain ⟨ha, hda⟩ := iha h.1
    obtain ⟨hb, hdb⟩ := ihb h.2
    exact ⟨⟨ha, hb⟩, fun ρ hd => ⟨hda ρ hd.1, hdb _ hd.2⟩⟩
  | cast | shiftRight => exact h.elim
  | intImm | var | sizeVar | compare | and | or | not | bitwiseAnd =>
    exact ⟨trivial, fun _ _ => trivial⟩

end PrimExpr

namespace ModularSetAnalyzer
open PrimExpr

/-- The facts of the analyzer hold of an assignment. -/
def MapSound (varMap : VarRef → Option Entry) (ρ : Assignment) : Prop :=
  ∀ v entry, varMap v = some entry → entry.Sound (ρ v)

/-- What the parent proves non-negative is so, if the facts it may use hold. It knows nothing else of
the variables bound inside the expression. -/
def SoundProver (prove : Impl → PrimExpr → Bool) (e : PrimExpr) (ρ : Assignment) : Prop :=
  ∀ s lhs ρ', (∀ v, v ∉ e.binders → ρ' v = ρ v) → MapSound s.varMap ρ' → prove s lhs = true →
    0 ≤ lhs.eval ρ'

variable {s : Impl} {ρ : Assignment} {e sub : PrimExpr} {entry : Entry}
  {prove : Impl → PrimExpr → Bool}

theorem SoundProver.part (h : SoundProver prove e ρ) (hb : sub.binders ⊆ e.binders) :
    SoundProver prove sub ρ := by
  intro s lhs ρ' hρ' hs hp
  apply h s lhs ρ' (fun v hv => hρ' v fun hmem => hv (hb hmem)) hs hp

theorem SoundProver.letIn {v : VarRef} {value body : PrimExpr}
    (h : SoundProver prove (.letIn v value body) ρ) :
    SoundProver prove body (Function.update ρ v (value.eval ρ)) := by
  intro s lhs ρ' hρ' hs hp
  apply h s lhs ρ' (fun w hw => ?_) hs hp
  simp only [binders, List.cons_append, List.mem_cons, List.mem_append, not_or] at hw
  rw [hρ' w hw.2.2, Function.update_of_ne hw.1]

theorem SoundProver.self (h : SoundProver prove e ρ) (hs : MapSound s.varMap ρ) {lhs : PrimExpr}
    (hp : prove s lhs = true) : 0 ≤ lhs.eval ρ := h s lhs ρ (fun _ _ => rfl) hs hp

/-- The lets of an expression bind variables that the analyzer does not know. -/
structure Impl.Free (s : Impl) (e : PrimExpr) : Prop where
  nodup : e.binders.Nodup
  map : ∀ v ∈ e.binders, s.varMap v = none

theorem Impl.Free.part (hf : s.Free e) (hb : sub.binders.Sublist e.binders) : s.Free sub where
  nodup := hf.nodup.sublist hb
  map v hmem := hf.map v (hb.subset hmem)

theorem Impl.Free.letIn {v : VarRef} {value body : PrimExpr} (hf : s.Free (.letIn v value body)) :
    Impl.Free { s with varMap := Function.update s.varMap v (some entry) } body := by
  have hnodup := hf.nodup
  simp only [binders, List.nodup_cons, List.cons_append, List.mem_append, not_or] at hnodup
  refine ⟨hnodup.2.sublist (List.sublist_append_right _ _), fun w hw => ?_⟩
  have hne : w ≠ v := fun heq => hnodup.1.2 (heq ▸ hw)
  simp only [Function.update_of_ne hne]
  exact hf.map w (List.mem_append_right _ hw)

theorem MapSound.update {varMap : VarRef → Option Entry} {v : VarRef} {value : Int}
    (h : MapSound varMap ρ) (he : entry.Sound value) :
    MapSound (Function.update varMap v (some entry)) (Function.update ρ v value) := by
  intro w entry' hw
  by_cases heq : w = v
  · rw [heq, Function.update_self]
    simp only [heq, Function.update_self, Option.some.injEq] at hw
    rw [← hw]
    exact he
  · simp only [Function.update_of_ne heq] at hw ⊢
    exact h w entry' hw

theorem MapSound.getD {v : VarRef} (h : MapSound s.varMap ρ) :
    ((s.varMap v).getD everything).Sound (ρ v) := by
  cases hv : s.varMap v with
  | none => exact everything_sound _
  | some entry => exact h v entry hv

theorem tdiv_of_nonneg {n val k m : Int} (hval : 0 < val) (hn : 0 ≤ n) (h : n = val * k + m) :
    n.tdiv val = k + m / val := by
  rw [Int.tdiv_eq_ediv_of_nonneg hn, h, Int.mul_add_ediv_left _ _ hval.ne']

theorem fdiv_of_pos {n val k m : Int} (hval : 0 < val) (h : n = val * k + m) :
    n.fdiv val = k + m / val := by
  rw [Int.fdiv_eq_ediv_of_nonneg n hval.le, h, Int.mul_add_ediv_left _ _ hval.ne']

/-- A constant entry gives the value away. -/
theorem isConst_eq {n : Int} (h : entry.Sound n) (hc : entry.isConst = true) : entry.base = n := by
  have hzero : entry.coeff = 0 := of_decide_eq_true hc
  have := h.contains
  unfold Entry.Contains at this
  rw [hzero, Int.zero_dvd] at this
  omega

/-- The analysis returns an entry that contains the value. -/
theorem visitExpr_sound (he : e.CastModular) (hd : e.DividesAndFits ρ) (hp : SoundProver prove e ρ)
    (hs : MapSound s.varMap ρ) (hf : s.Free e) :
    ∃ entry, visitExpr id prove e s = .ok entry ∧ entry.Sound (e.eval ρ) := by
  induction e generalizing s ρ with
  | intImm dt value =>
    apply make_sound (le_refl 0)
    change 0 ∣ value - value
    rw [Int.sub_self]
  | var v dt => exact ⟨_, rfl, hs.getD⟩
  | sizeVar v dt => exact ⟨_, rfl, hs.getD⟩
  | compare | and | or | not | bitwiseAnd => exact ⟨_, rfl, everything_sound _⟩
  | cast dt e ih =>
    have hkept : (cast dt e).eval ρ = e.eval ρ := DataType.convert_of_fits hd.2
    rw [hkept]
    exact ih he.2 hd.1 (hp.part (List.Subset.refl _)) hs (hf.part (List.Sublist.refl _))
  | shiftRight => exact he.elim
  | select c t f ihc iht ihf =>
    have hleft : t.binders.Sublist (select c t f).binders :=
      (List.sublist_append_right _ _).trans (List.sublist_append_left _ _)
    have hright : f.binders.Sublist (select c t f).binders := List.sublist_append_right _ _
    obtain ⟨et, het, hts⟩ := iht he.1 hd.1 (hp.part hleft.subset) hs (hf.part hleft)
    obtain ⟨ef, hef, hfs⟩ := ihf he.2 hd.2 (hp.part hright.subset) hs (hf.part hright)
    simp only [visitExpr, het, hef, eval]
    change ∃ entry, union id et ef = .ok entry ∧ _
    apply union_sound hts.coeff_nonneg
    by_cases hc : c.eval ρ ≠ 0
    · rw [if_pos hc]
      exact Or.inl hts.contains
    · rw [if_neg hc]
      exact Or.inr hfs.contains
  | letIn v value body ihv ihb =>
    have hsub : value.binders.Sublist (PrimExpr.letIn v value body).binders :=
      (List.sublist_append_left _ _).trans (List.sublist_cons_self _ _)
    obtain ⟨ev, hev, hvs⟩ := ihv he.1 hd.1 (hp.part hsub.subset) hs (hf.part hsub)
    obtain ⟨eb, heb, hbs⟩ := ihb he.2 hd.2 hp.letIn (hs.update hvs) hf.letIn
    refine ⟨eb, ?_, hbs⟩
    simp only [visitExpr, hf.map v List.mem_cons_self, hev]
    exact heb
  | binary op a b iha ihb =>
    have hleft : a.binders.Sublist (binary op a b).binders := List.sublist_append_left _ _
    have hright : b.binders.Sublist (binary op a b).binders := List.sublist_append_right _ _
    obtain ⟨hda, hdb, hne⟩ := hd
    obtain ⟨ea, hea, has⟩ := iha he.1 hda (hp.part hleft.subset) hs (hf.part hleft)
    obtain ⟨eb, heb, hbs⟩ := ihb he.2 hdb (hp.part hright.subset) hs (hf.part hright)
    cases op with
    | add =>
      simp only [visitExpr, hea, heb]
      exact visitAdd_sound has hbs
    | sub =>
      simp only [visitExpr, hea, heb]
      exact visitSub_sound has hbs
    | mul =>
      simp only [visitExpr, hea, heb]
      exact visitMul_sound has hbs
    | mod => exact ⟨_, rfl, everything_sound _⟩
    | div =>
      simp only [visitExpr, hea, heb, bind, Except.bind]
      split_ifs with hc
      · have hbase := isConst_eq hbs hc
        rw [hbase]
        apply divByConst_sound (q := Int.tdiv) has (hne rfl)
        · intro k
          exact Int.mul_tdiv_cancel_left k (hne rfl)
        · intro hval hround k m hk
          have hnonneg : prove s a = true := hround.resolve_left Bool.false_ne_true
          exact tdiv_of_nonneg hval ((hp.part hleft.subset).self hs hnonneg) hk
      · exact ⟨_, rfl, everything_sound _⟩
    | floorDiv =>
      simp only [visitExpr, hea, heb, bind, Except.bind]
      split_ifs with hc
      · have hbase := isConst_eq hbs hc
        rw [hbase]
        apply divByConst_sound (q := Int.fdiv) has (hne rfl)
        · intro k
          exact Int.mul_fdiv_cancel_left k (hne rfl)
        · intro hval _ k m hk
          exact fdiv_of_pos hval hk
      · exact ⟨_, rfl, everything_sound _⟩
    | floorMod =>
      simp only [visitExpr, hea, heb, bind, Except.bind]
      split_ifs with hc hzero
      · rw [isConst_eq hbs hc] at hzero
        exact absurd hzero (hne rfl)
      · rw [isConst_eq hbs hc]
        exact visitFloorMod_sound has
      · exact ⟨_, rfl, everything_sound _⟩
    | min =>
      simp only [visitExpr, hea, heb]
      apply union_sound has.coeff_nonneg
      rcases Int.le_total (a.eval ρ) (b.eval ρ) with hle | hle
      · simp only [eval, BinaryOp.eval, Int.min_eq_left hle]
        exact Or.inl has.contains
      · simp only [eval, BinaryOp.eval, Int.min_eq_right hle]
        exact Or.inr hbs.contains
    | max =>
      simp only [visitExpr, hea, heb]
      apply union_sound has.coeff_nonneg
      rcases Int.le_total (a.eval ρ) (b.eval ρ) with hle | hle
      · simp only [eval, BinaryOp.eval, Int.max_eq_right hle]
        exact Or.inr hbs.contains
      · simp only [eval, BinaryOp.eval, Int.max_eq_left hle]
        exact Or.inl has.contains

/-- An act that gives a fact about a variable gives one that is true. -/
def Act.Holds (ρ : Assignment) : Act → Prop
  | .update v coeff base _ => coeff ∣ ρ v - base
  | .enterConstraint _ => True
  | .exitConstraint => True

/-- The variables a call may give facts about. -/
def Act.taken : Act → List VarRef
  | .update v _ _ _ => [v]
  | .enterConstraint constraint => constraint.freeVars
  | .exitConstraint => []

/-- The constraints whose scopes are open after one more call, the innermost first. -/
def openStep (constraints : List PrimExpr) : Act → List PrimExpr
  | .update _ _ _ _ => constraints
  | .enterConstraint constraint => constraint :: constraints
  | .exitConstraint => constraints.tail

def openConstraints (acts : List Act) : List PrimExpr := acts.foldl openStep []

/-- Leaving the scopes one by one gives sound facts in the end, and each scope's fact follows from the
one it narrowed and its constraint. -/
inductive Nested (ρ : Assignment) : (VarRef → Option Entry) → List (Option (VarRef × Entry)) →
    List PrimExpr → Prop
  | outside {varMap} (h : MapSound varMap ρ) : Nested ρ varMap [] []
  | unmatched {varMap scopes constraint constraints} (h : Nested ρ varMap scopes constraints) :
    Nested ρ varMap (none :: scopes) (constraint :: constraints)
  | narrowed {varMap v old scopes} {constraint : PrimExpr} {constraints}
    (h : Nested ρ (Function.update varMap v (some old)) scopes constraints)
    (hnew : constraint.eval ρ ≠ 0 → old.Sound (ρ v) →
      ∀ entry, varMap v = some entry → entry.Sound (ρ v)) :
    Nested ρ varMap (some (v, old) :: scopes) (constraint :: constraints)

variable {varMap : VarRef → Option Entry} {scopes : List (Option (VarRef × Entry))}
  {constraints : List PrimExpr} {constraint : PrimExpr} {v : VarRef}

theorem MapSound.update_self (h : MapSound varMap ρ) (he : entry.Sound (ρ v)) :
    MapSound (Function.update varMap v (some entry)) ρ := by
  have hupdate := h.update (v := v) he
  rwa [Function.update_eq_self] at hupdate

/-- A sound fact may replace another one in any scope. -/
theorem Nested.update (h : Nested ρ varMap scopes constraints) (he : entry.Sound (ρ v)) :
    Nested ρ (Function.update varMap v (some entry)) scopes constraints := by
  induction h with
  | outside h => exact .outside (h.update_self he)
  | unmatched h ih => exact .unmatched ih
  | @narrowed varMap w old scopes constraint constraints h hnew ih =>
    apply Nested.narrowed
    · by_cases heq : v = w
      · rwa [heq, Function.update_idem]
      · rwa [Function.update_comm heq]
    · intro hc hold entry' h'
      by_cases heq : w = v
      · rw [heq, Function.update_self, Option.some.injEq] at h'
        rw [heq, ← h']
        exact he
      · rw [Function.update_of_ne heq] at h'
        exact hnew hc hold entry' h'

/-- Where all open constraints hold, all facts are sound. -/
theorem Nested.mapSound (h : Nested ρ varMap scopes constraints)
    (hc : ∀ c ∈ constraints, c.eval ρ ≠ 0) : MapSound varMap ρ := by
  induction h with
  | outside h => exact h
  | unmatched h ih => exact ih fun c hmem => hc c (List.mem_cons_of_mem _ hmem)
  | @narrowed varMap w old scopes constraint constraints h hnew ih =>
    have hmap := ih fun c hmem => hc c (List.mem_cons_of_mem _ hmem)
    have hold := hmap w old (Function.update_self ..)
    intro u entry' hu
    by_cases heq : u = w
    · rw [heq] at hu ⊢
      exact hnew (hc constraint List.mem_cons_self) hold entry' hu
    · exact hmap u entry' (by rwa [Function.update_of_ne heq])

/-- A matched constraint says that its variable leaves the remainder. -/
theorem matchConstraint_spec {coeff base : Int} (h : matchConstraint constraint = some (v, coeff, base))
    (hc : constraint.eval ρ ≠ 0) : coeff ∣ ρ v - base := by
  have hmod {r : Int} (heq : (decide (r = base)).toInt ≠ 0) : r = base := by
    by_contra hne
    rw [decide_eq_false hne] at heq
    exact heq rfl
  unfold matchConstraint at h
  split at h <;> simp only [Option.some.injEq, Prod.mk.injEq, reduceCtorEq] at h
  all_goals
    obtain ⟨rfl, rfl, rfl⟩ := h
    rw [← hmod hc]
  · exact Int.dvd_self_sub_tmod
  · exact Int.dvd_self_sub_tmod
  · exact Int.dvd_self_sub_fmod
  · exact Int.dvd_self_sub_fmod

theorem matchConstraint_freeVars {coeff base : Int}
    (h : matchConstraint constraint = some (v, coeff, base)) : v ∈ constraint.freeVars := by
  unfold matchConstraint at h
  split at h <;> simp only [Option.some.injEq, Prod.mk.injEq, reduceCtorEq] at h
  all_goals
    rw [← h.1]
    exact List.mem_append_left _ List.mem_cons_self

/-- What the analyzer knows when the constraints of the open scopes are given. -/
structure Impl.Knows (s : Impl) (taken : List VarRef) (ρ : Assignment)
    (constraints : List PrimExpr) : Prop where
  nested : Nested ρ s.varMap s.scopes constraints
  map : ∀ v, s.varMap v ≠ none → v ∈ taken
  scopes : ∀ v old, some (v, old) ∈ s.scopes → v ∈ taken

variable {taken : List VarRef} {s' : Impl}

theorem mem_of_update {v w : VarRef} (hmap : ∀ v, varMap v ≠ none → v ∈ taken) (hv : v ∈ taken)
    (hw : Function.update varMap v (some entry) w ≠ none) : w ∈ taken := by
  by_cases heq : w = v
  · rw [heq]
    exact hv
  · rw [Function.update_of_ne heq] at hw
    exact hmap w hw

theorem make_ok {coeff base n : Int} (h : coeff ∣ n - base) (hrun : Entry.make coeff base = .ok entry) :
    entry.Sound n := by
  by_cases hneg : coeff < 0
  · rw [Entry.make, if_pos hneg] at hrun
    exact absurd hrun (fun h => by cases h)
  · obtain ⟨entry', hmake, hsound⟩ := make_sound (Int.not_lt.mp hneg) h
    rw [hmake, Except.ok.injEq] at hrun
    exact hrun ▸ hsound

/-- What the analyzer knows of a variable; one it does not know may be anything. -/
def Impl.fact (s : Impl) (v : VarRef) : Entry := (s.varMap v).getD everything

theorem update_cases {coeff base : Int} {allowOverride : Bool}
    (hrun : update s v coeff base allowOverride = .ok s') :
    ∃ entry, Entry.make coeff base = .ok entry ∧
      s' = { s with varMap := Function.update s.varMap v (some entry) } := by
  unfold update at hrun
  split_ifs at hrun
  cases hmake : Entry.make coeff base with
  | error c =>
    rw [hmake] at hrun
    cases hrun
  | ok entry =>
    rw [hmake] at hrun
    cases hrun
    exact ⟨entry, rfl, rfl⟩

theorem enterConstraint_cases (hrun : enterConstraint id s constraint = .ok s') :
    (matchConstraint constraint = none ∧ s' = { s with scopes := none :: s.scopes }) ∨
    (∃ v coeff base entry new, matchConstraint constraint = some (v, coeff, base) ∧
      Entry.make coeff base = .ok entry ∧ intersect id (s.fact v) entry = .ok new ∧
      s' = ⟨Function.update s.varMap v (some new), some (v, s.fact v) :: s.scopes⟩) := by
  unfold enterConstraint at hrun
  cases hmatch : matchConstraint constraint with
  | none =>
    rw [hmatch] at hrun
    cases hrun
    exact Or.inl ⟨rfl, rfl⟩
  | some found =>
    obtain ⟨v, coeff, base⟩ := found
    rw [hmatch] at hrun
    cases hmake : Entry.make coeff base with
    | error c => simp only [hmake, bind, Except.bind, reduceCtorEq] at hrun
    | ok entry =>
      simp only [hmake, bind, Except.bind, updateByIntersect] at hrun
      cases hnew : intersect id (s.fact v) entry with
      | error c =>
        rw [Impl.fact] at hnew
        simp only [hnew, reduceCtorEq] at hrun
      | ok new =>
        rw [Impl.fact] at hnew
        simp only [hnew, Except.ok.injEq] at hrun
        exact Or.inr ⟨v, coeff, base, entry, new, rfl, hmake, hnew, hrun.symm⟩

theorem make_coeff {coeff base : Int} (hrun : Entry.make coeff base = .ok entry) :
    entry.coeff = coeff := by
  unfold Entry.make at hrun
  split_ifs at hrun <;> cases hrun <;> rfl

theorem update_knows {coeff base : Int} {allowOverride : Bool} (hs : s.Knows taken ρ constraints)
    (hv : v ∈ taken) (h : coeff ∣ ρ v - base)
    (hrun : update s v coeff base allowOverride = .ok s') : s'.Knows taken ρ constraints := by
  obtain ⟨entry, hmake, rfl⟩ := update_cases hrun
  exact ⟨hs.nested.update (make_ok h hmake), fun w hw => mem_of_update hs.map hv hw, hs.scopes⟩

/-- Restoring the fact that a scope narrows changes nothing but that an unknown variable becomes one
that may be anything. -/
theorem Nested.update_fact (h : Nested ρ s.varMap scopes constraints) :
    Nested ρ (Function.update s.varMap v (some (s.fact v))) scopes constraints := by
  unfold Impl.fact
  cases hold : s.varMap v with
  | none => exact h.update (everything_sound _)
  | some old =>
    rw [Option.getD_some, ← hold, Function.update_eq_self]
    exact h

theorem enterConstraint_knows (hs : s.Knows taken ρ constraints)
    (hv : ∀ v ∈ constraint.freeVars, v ∈ taken)
    (hrun : enterConstraint id s constraint = .ok s') :
    s'.Knows taken ρ (constraint :: constraints) := by
  obtain ⟨-, rfl⟩ | ⟨v, coeff, base, entry, new, hmatch, hmake, hnew, rfl⟩ :=
    enterConstraint_cases hrun
  · refine ⟨.unmatched hs.nested, hs.map, fun w old hw => ?_⟩
    simp only [List.mem_cons, reduceCtorEq, false_or] at hw
    exact hs.scopes w old hw
  · have htaken := hv v (matchConstraint_freeVars hmatch)
    refine ⟨.narrowed ?_ ?_, fun w hw => mem_of_update hs.map htaken hw, fun w old hw => ?_⟩
    · rw [Function.update_idem]
      exact hs.nested.update_fact
    · intro hc hsound entry' h'
      simp only [Function.update_self, Option.some.injEq] at h'
      rw [← h']
      exact intersect_sound hsound (make_ok (matchConstraint_spec hmatch hc) hmake) hnew
    · simp only [List.mem_cons, Option.some.injEq, Prod.mk.injEq] at hw
      cases hw with
      | inl heq => exact heq.1 ▸ htaken
      | inr hmem => exact hs.scopes w old hmem

theorem exitConstraint_knows (hs : s.Knows taken ρ constraints) :
    (exitConstraint s).Knows taken ρ constraints.tail := by
  obtain ⟨varMap, scopes⟩ := s
  obtain ⟨hnested, hmap, hscopes⟩ := hs
  cases hnested with
  | outside h => exact ⟨.outside h, hmap, hscopes⟩
  | unmatched h =>
    exact ⟨h, hmap, fun w old hw => hscopes w old (List.mem_cons_of_mem _ hw)⟩
  | narrowed h hnew =>
    exact ⟨h, fun w hw => mem_of_update hmap (hscopes _ _ List.mem_cons_self) hw,
      fun w old hw => hscopes w old (List.mem_cons_of_mem _ hw)⟩

theorem perform_knows {act : Act} (hs : s.Knows taken ρ constraints) (hholds : act.Holds ρ)
    (htaken : ∀ v ∈ act.taken, v ∈ taken) (hrun : perform id s act = .ok s') :
    s'.Knows taken ρ (openStep constraints act) := by
  cases act with
  | update v coeff base allowOverride =>
    exact update_knows hs (htaken v List.mem_cons_self) hholds hrun
  | enterConstraint constraint => exact enterConstraint_knows hs htaken hrun
  | exitConstraint =>
    cases hrun
    exact exitConstraint_knows hs

theorem foldlM_knows {acts : List Act} (hs : s.Knows taken ρ constraints)
    (hacts : ∀ act ∈ acts, act.Holds ρ ∧ ∀ v ∈ act.taken, v ∈ taken)
    (hrun : acts.foldlM (perform id) s = .ok s') :
    s'.Knows taken ρ (acts.foldl openStep constraints) := by
  induction acts generalizing s constraints with
  | nil =>
    cases hrun
    exact hs
  | cons act acts ih =>
    rw [List.foldlM_cons] at hrun
    cases hact : perform id s act with
    | error c =>
      rw [hact] at hrun
      cases hrun
    | ok s₁ =>
      rw [hact] at hrun
      obtain ⟨hholds, htaken⟩ := hacts act List.mem_cons_self
      exact ih (perform_knows hs hholds htaken hact)
        (fun act' h => hacts act' (List.mem_cons_of_mem _ h)) hrun

theorem run_knows {acts : List Act} (hholds : ∀ act ∈ acts, act.Holds ρ)
    (hrun : run id acts = .ok s) : s.Knows (acts.flatMap Act.taken) ρ (openConstraints acts) := by
  have hstart : Impl.new.Knows (acts.flatMap Act.taken) ρ [] :=
    ⟨.outside fun v entry h => absurd h.symm (Option.some_ne_none entry), fun v h => absurd rfl h,
      fun v old h => absurd h List.not_mem_nil⟩
  exact foldlM_knows hstart
    (fun act h => ⟨hholds act h, fun v hv => List.mem_flatMap.mpr ⟨act, h, hv⟩⟩) hrun

def Act.updated : Act → List VarRef
  | .update v _ _ _ => [v]
  | _ => []

/-- Every scope that is entered is left. -/
inductive Balanced : List Act → Prop
  | nil : Balanced []
  | update {v coeff base allowOverride acts} (h : Balanced acts) :
    Balanced (.update v coeff base allowOverride :: acts)
  | scope {constraint inner acts} (hinner : Balanced inner) (h : Balanced acts) :
    Balanced (.enterConstraint constraint :: inner ++ .exitConstraint :: acts)

def ConstrainsVar (constraint : PrimExpr) (v : VarRef) : Prop :=
  ∃ coeff base, matchConstraint constraint = some (v, coeff, base)

/-- Leaving a scope takes back what entering it did, if the calls in between leave the scopes and
the facts about other variables as they were. -/
theorem exitConstraint_restores {s₁ s₂ : Impl} (henter : enterConstraint id s constraint = .ok s₁)
    (hscopes : s₂.scopes = s₁.scopes) :
    (exitConstraint s₂).scopes = s.scopes ∧
      ∀ v, ConstrainsVar constraint v ∨ s₂.fact v = s₁.fact v →
        (exitConstraint s₂).fact v = s.fact v := by
  obtain ⟨hmatch, rfl⟩ | ⟨w, coeff, base, entry, new, hmatch, hmake, hnew, rfl⟩ :=
    enterConstraint_cases henter
  · simp only [exitConstraint, hscopes, ConstrainsVar, hmatch, reduceCtorEq, exists_const, false_or,
      true_and]
    exact fun v h => h
  · simp only [exitConstraint, hscopes, true_and]
    intro v hv
    by_cases heq : v = w
    · rw [heq]
      simp only [Impl.fact, Function.update_self, Option.getD_some]
    · have hne : ¬ ConstrainsVar constraint v := by
        intro hc
        obtain ⟨coeff', base', hc⟩ := hc
        rw [hmatch] at hc
        cases hc
        exact heq rfl
      simp only [Impl.fact, Function.update_of_ne heq] at hv ⊢
      exact hv.resolve_left hne

theorem foldlM_append_ok {acts acts' : List Act}
    (hrun : (acts ++ acts').foldlM (perform id) s = .ok s') :
    ∃ s₁, acts.foldlM (perform id) s = .ok s₁ ∧ acts'.foldlM (perform id) s₁ = .ok s' := by
  rw [List.foldlM_append] at hrun
  cases hfirst : acts.foldlM (perform id) s with
  | error c =>
    rw [hfirst] at hrun
    cases hrun
  | ok s₁ =>
    rw [hfirst] at hrun
    exact ⟨s₁, rfl, hrun⟩

theorem foldlM_cons_ok {act : Act} {acts : List Act}
    (hrun : (act :: acts).foldlM (perform id) s = .ok s') :
    ∃ s₁, perform id s act = .ok s₁ ∧ acts.foldlM (perform id) s₁ = .ok s' := by
  rw [List.foldlM_cons] at hrun
  cases hact : perform id s act with
  | error c =>
    rw [hact] at hrun
    cases hrun
  | ok s₁ =>
    rw [hact] at hrun
    exact ⟨s₁, rfl, hrun⟩

/-- Calls that leave every scope they enter change no facts but by `Update`. -/
theorem Balanced.restores {acts : List Act} (h : Balanced acts)
    (hrun : acts.foldlM (perform id) s = .ok s') :
    s'.scopes = s.scopes ∧ ∀ v, v ∉ acts.flatMap Act.updated → s'.fact v = s.fact v := by
  induction h generalizing s s' with
  | nil =>
    cases hrun
    exact ⟨rfl, fun v _ => rfl⟩
  | @update v coeff base allowOverride acts h ih =>
    obtain ⟨s₁, hfirst, hrest⟩ := foldlM_cons_ok hrun
    obtain ⟨hscopes, hfacts⟩ := ih hrest
    obtain ⟨entry, -, rfl⟩ := update_cases hfirst
    refine ⟨hscopes, fun w hw => ?_⟩
    simp only [List.flatMap_cons, Act.updated, List.mem_append, List.mem_singleton, not_or] at hw
    rw [hfacts w hw.2]
    simp only [Impl.fact, Function.update_of_ne hw.1]
  | @scope constraint inner acts hinner h ihinner ih =>
    obtain ⟨s₁, hentered, hrest⟩ := foldlM_cons_ok hrun
    obtain ⟨s₂, hinside, hafter⟩ := foldlM_append_ok hrest
    obtain ⟨s₃, hleft, hrest⟩ := foldlM_cons_ok hafter
    cases hleft
    obtain ⟨hscopes₂, hfacts₂⟩ := ihinner hinside
    obtain ⟨hscopes₃, hfacts₃⟩ := exitConstraint_restores hentered hscopes₂
    obtain ⟨hscopes, hfacts⟩ := ih hrest
    refine ⟨hscopes.trans hscopes₃, fun w hw => ?_⟩
    simp only [List.cons_append, List.flatMap_cons, List.flatMap_append, Act.updated, List.mem_append,
      List.nil_append, not_or] at hw
    rw [hfacts w hw.2, hfacts₃ w (Or.inr (hfacts₂ w hw.1))]

/-- A constraint with a positive divisor can always be entered. -/
theorem enterConstraint_ok (hs : MapSound s.varMap ρ)
    (hpos : ∀ v coeff base, matchConstraint constraint = some (v, coeff, base) → 0 < coeff) :
    ∃ s', enterConstraint id s constraint = .ok s' := by
  unfold enterConstraint
  cases hmatch : matchConstraint constraint with
  | none => exact ⟨_, rfl⟩
  | some found =>
    obtain ⟨v, coeff, base⟩ := found
    have hcoeff := hpos v coeff base hmatch
    obtain ⟨entry, hmake, -⟩ := make_sound (n := base) hcoeff.le (by
      rw [Int.sub_self]
      exact Int.dvd_zero coeff)
    have hpositive : 0 < entry.coeff := by
      rw [make_coeff hmake]
      exact hcoeff
    obtain ⟨new, hnew⟩ := intersect_ok (hs.getD (v := v)).coeff_nonneg hpositive
    simp only [hmake, bind, Except.bind, updateByIntersect, hnew]
    exact ⟨_, rfl⟩

/-- After a run the value of an expression is congruent to the base of its entry, if no cast changes a
value. -/
theorem run_visitExpr_sound {acts : List Act} (hrun : run id acts = .ok s)
    (hholds : ∀ act ∈ acts, act.Holds ρ) (hopen : ∀ c ∈ openConstraints acts, c.eval ρ ≠ 0)
    (he : e.CastModular) (honce : e.BoundOnce (acts.flatMap Act.taken)) (hd : e.DividesAndFits ρ)
    (hp : SoundProver prove e ρ) :
    ∃ entry, visitExpr id prove e s = .ok entry ∧ 0 ≤ entry.coeff ∧
      entry.coeff ∣ e.eval ρ - entry.base ∧ (entry.coeff = 0 → e.eval ρ = entry.base) := by
  have hknows := run_knows hholds hrun
  have hfree : s.Free e := by
    refine ⟨honce.1, fun v hv => ?_⟩
    by_contra hne
    exact (honce.2 v hv).2 (hknows.map v hne)
  obtain ⟨entry, hentry, hvalue⟩ := visitExpr_sound he hd hp (hknows.nested.mapSound hopen) hfree
  refine ⟨entry, hentry, hvalue.coeff_nonneg, hvalue.contains, fun hzero => ?_⟩
  have hcontains : entry.coeff ∣ e.eval ρ - entry.base := hvalue.contains
  rw [hzero, Int.zero_dvd] at hcontains
  omega

/-- Modular-set analysis is sound: after any calls of `Update` and `EnterConstraint`, with scopes left
in between, the value of an expression is congruent to the base of its entry under every assignment
that satisfies what was given and the constraints of the open scopes. A further constraint can be
entered, and leaving its scope restores the facts of all variables that were not updated inside, and
of the constrained one. -/
theorem modular_set_sound {acts : List Act} (hrun : run id acts = .ok s)
    (hholds : ∀ act ∈ acts, act.Holds ρ) (hopen : ∀ c ∈ openConstraints acts, c.eval ρ ≠ 0) :
    (∀ e, e.Modular → e.BoundOnce (acts.flatMap Act.taken) → e.DividesByNonzero ρ →
      SoundProver prove e ρ → ∃ entry, visitExpr id prove e s = .ok entry ∧ 0 ≤ entry.coeff ∧
        entry.coeff ∣ e.eval ρ - entry.base ∧ (entry.coeff = 0 → e.eval ρ = entry.base)) ∧
    (∀ constraint, (∀ v coeff base, matchConstraint constraint = some (v, coeff, base) → 0 < coeff) →
      ∃ s₁, enterConstraint id s constraint = .ok s₁ ∧
        ∀ inner s₂, Balanced inner → inner.foldlM (perform id) s₁ = .ok s₂ →
          (exitConstraint s₂).scopes = s.scopes ∧
          ∀ v, ConstrainsVar constraint v ∨ v ∉ inner.flatMap Act.updated →
            (exitConstraint s₂).fact v = s.fact v) := by
  have hknows := run_knows hholds hrun
  have hsound := hknows.nested.mapSound hopen
  constructor
  · intro e he honce hd hp
    obtain ⟨hcast, hfits⟩ := he.castModular
    exact run_visitExpr_sound hrun hholds hopen hcast honce (hfits ρ hd) hp
  · intro constraint hpos
    obtain ⟨s₁, hentered⟩ := enterConstraint_ok hsound hpos
    refine ⟨s₁, hentered, fun inner s₂ hbalanced hinner => ?_⟩
    obtain ⟨hscopes, hfacts⟩ := hbalanced.restores hinner
    obtain ⟨hleft, hrestored⟩ := exitConstraint_restores hentered hscopes
    exact ⟨hleft, fun v hv => hrestored v (hv.imp_right (hfacts v))⟩

/-- A multiple of four plus two that leaves a remainder of one when divided by three. -/
def sampleActs : List Act :=
  [.update 0 4 2 false, .enterConstraint (.compare .eq (.binary .floorMod (.var 0 .int32)
    (.intImm .int32 3)) (.intImm .int32 1))]

/-- `x * 5 + 2`. -/
def sampleSum : PrimExpr :=
  .binary .add (.binary .mul (.var 0 .int32) (.intImm .int32 5)) (.intImm .int32 2)

/-- `let y = x * 4 in (x * 5 + 2) / 4 + y`. -/
def sampleExpr : PrimExpr :=
  .letIn 1 (.binary .mul (.var 0 .int32) (.intImm .int32 4))
    (.binary .add (.binary .div sampleSum (.intImm .int32 4)) (.var 1 .int32))

def sampleConstraint : PrimExpr :=
  .compare .eq (.binary .mod (.var 0 .int32) (.intImm .int32 5)) (.intImm .int32 2)

/-- With `x` known to be non-negative. -/
theorem modular_set_sound_sample : ∃ s entry, run id sampleActs = .ok s ∧
    visitExpr id (fun _ lhs => lhs = sampleSum) sampleExpr s = .ok entry ∧
    entry.coeff ∣ 116 - entry.base ∧
    ∃ s₁, enterConstraint id s sampleConstraint = .ok s₁ ∧
      (exitConstraint s₁).fact 0 = s.fact 0 := by
  obtain ⟨s, hs⟩ : ∃ s, run id sampleActs = .ok s := by
    let first : Impl := ⟨Function.update (fun _ => none) 0 (some ⟨4, 2⟩), []⟩
    have hfirst : MapSound first.varMap fun _ => 22 :=
      MapSound.update_self (fun v entry h => absurd h.symm (Option.some_ne_none entry))
        ⟨by decide, 5, rfl⟩
    obtain ⟨s, hs⟩ : ∃ s, enterConstraint id first (.compare .eq (.binary .floorMod (.var 0 .int32)
        (.intImm .int32 3)) (.intImm .int32 1)) = .ok s :=
      enterConstraint_ok hfirst fun v coeff base h => by
        cases h
        decide
    have hupdate : perform id .new (.update 0 4 2 false) = .ok first := rfl
    refine ⟨s, ?_⟩
    simp only [run, sampleActs, List.foldlM_cons, List.foldlM_nil, hupdate]
    simp only [perform, bind, Except.bind, hs]
    rfl
  have hholds : ∀ act ∈ sampleActs, act.Holds fun _ => 22 := by
    intro act hact
    simp only [sampleActs, List.mem_cons, List.not_mem_nil, or_false] at hact
    rcases hact with rfl | rfl
    · exact ⟨5, rfl⟩
    · trivial
  have hprover : SoundProver (fun _ lhs => lhs = sampleSum) sampleExpr fun _ => 22 := by
    intro s lhs ρ' hρ' _ hlhs
    rw [of_decide_eq_true hlhs]
    simp only [sampleSum, eval, BinaryOp.eval, hρ' 0 (by decide)]
    decide
  obtain ⟨hvalue, hscope⟩ := modular_set_sound hs hholds (by decide)
  obtain ⟨entry, hentry, -, hmod, -⟩ := hvalue sampleExpr
    ⟨⟨trivial, trivial⟩, ⟨⟨⟨trivial, trivial⟩, trivial⟩, trivial⟩, trivial⟩ (by decide)
    (by simp [sampleExpr, sampleSum, DividesByNonzero, BinaryOp.divides, eval]) hprover
  obtain ⟨s₁, hentered, hrestored⟩ := hscope sampleConstraint (fun v coeff base h => by
    cases h
    decide)
  exact ⟨s, entry, hs, hentry, hmod, s₁, hentered,
    (hrestored [] s₁ .nil rfl).2 0 (Or.inr List.not_mem_nil)⟩

end ModularSetAnalyzer

end StencilGraph.Arith

import Mathlib
import StencilGraph.Framework.Ancestor

namespace StencilGraph.Framework

section Walks

variable {α ε : Type*} {out : α → List ε} {target : ε → α} {x y z p : α} {es es' : List ε}

/-- A walk from `x`, as the list of its edges; `out x` are the edges that leave `x`. -/
inductive Walk (out : α → List ε) (target : ε → α) : α → List ε → α → Prop where
  | nil (x : α) : Walk out target x [] x
  | cons {x y : α} {e : ε} {es : List ε} (he : e ∈ out x) (hw : Walk out target (target e) es y) :
      Walk out target x (e :: es) y

/-- The nodes of a walk from `x`. -/
def walkNodes (target : ε → α) (x : α) (es : List ε) : List α := x :: es.map target

/-- `p` lies on every walk from `x` to an exit. -/
def PostDominates (out : α → List ε) (target : ε → α) (exit : α → Prop) (p x : α) : Prop :=
  ∀ es y, Walk out target x es y → exit y → p ∈ walkNodes target x es

theorem Walk.append (hxy : Walk out target x es y) (hyz : Walk out target y es' z) :
    Walk out target x (es ++ es') z := by
  induction hxy with
  | nil x => exact hyz
  | cons he _ ih => exact .cons he (ih hyz)

/-- A walk is cut at any of its nodes. -/
theorem Walk.split (hw : Walk out target x es y) (hp : p ∈ walkNodes target x es) :
    ∃ es₁ es₂, es = es₁ ++ es₂ ∧ Walk out target x es₁ p ∧ Walk out target p es₂ y := by
  induction hw with
  | nil x =>
    obtain rfl : p = x := by simpa [walkNodes] using hp
    exact ⟨[], [], rfl, .nil p, .nil p⟩
  | @cons x y e es he hw ih =>
    by_cases hpx : p = x
    · subst hpx
      exact ⟨[], e :: es, rfl, .nil p, .cons he hw⟩
    · have hp' : p ∈ walkNodes target (target e) es := (List.mem_cons.mp hp).resolve_left hpx
      obtain ⟨es₁, es₂, heq, h₁, h₂⟩ := ih hp'
      exact ⟨e :: es₁, es₂, by rw [heq]; rfl, .cons he h₁, h₂⟩

end Walks

/-- Induction from `n` downwards. -/
theorem downward_induction (n : Nat) {motive : Nat → Prop}
    (step : ∀ x, (∀ y, x < y → y < n → motive y) → motive x) (x : Nat) : motive x := by
  have key : ∀ k x, n ≤ x + k → motive x := by
    intro k
    induction k with
    | zero =>
      intro x hx
      apply step
      intro y hxy hy
      omega
    | succ k ih =>
      intro x hx
      apply step
      intro y hxy hy
      exact ih y (by omega)
  exact key n x (by omega)

section Tree

variable {ε : Type*} {out : Nat → List ε} {target : ε → Nat} {exit : Nat → Prop} {n : Nat}
  {par : Parents} {x y p q : Nat} {es : List ε}

/-- Every node that is no exit has as parent the least common ancestor of its successors. -/
structure LcaForest (out : Nat → List ε) (target : ε → Nat) (exit : Nat → Prop) (n : Nat)
    (par : Parents) : Prop where
  forest : Forest n par
  forward : ∀ x, ∀ e ∈ out x, x < target e ∧ target e < n
  leaves : ∀ x, out x = [] → exit x
  dom : ∀ x p, par x = some p → ¬ exit x ∧ ∀ e ∈ out x, Ancestor par p (target e)
  least : ∀ x, x < n → ¬ exit x → ∀ b, (∀ e ∈ out x, Ancestor par b (target e)) →
    ∃ p, par x = some p ∧ Ancestor par b p

variable (ht : LcaForest out target exit n par)

include ht

/-- What lies above a node lies above its successors. -/
theorem LcaForest.above_succ (hp : Ancestor par p x) (hne : p ≠ x) :
    ¬ exit x ∧ ∀ e ∈ out x, Ancestor par p (target e) := by
  cases hx : par x with
  | none => exact absurd (ancestor_root hx hp) hne
  | some q =>
    obtain ⟨hexit, hall⟩ := ht.dom x q hx
    exact ⟨hexit, fun e he => (ancestor_step hx hp hne).trans (hall e he)⟩

theorem LcaForest.walk_le (hw : Walk out target x es y) : x ≤ y := by
  induction hw with
  | nil x => exact le_rfl
  | @cons x y e es he _ ih => exact (ht.forward x e he).1.le.trans ih

/-- The ancestors of a node are its post-dominators. -/
theorem LcaForest.postDominates_iff (hx : x < n) :
    PostDominates out target exit p x ↔ Ancestor par p x := by
  constructor
  · induction x using downward_induction n with
    | step x ih =>
      intro hpd
      by_cases hpx : p = x
      · rw [hpx]
        exact Ancestor.refl x
      · have hexit : ¬ exit x := by
          intro hexit
          have hmem := hpd [] x (.nil x) hexit
          exact hpx (by simpa [walkNodes] using hmem)
        have hsucc : ∀ e ∈ out x, Ancestor par p (target e) := by
          intro e he
          obtain ⟨hlt, hn⟩ := ht.forward x e he
          apply ih (target e) hlt hn hn
          intro es y hw hy
          have hmem := hpd (e :: es) y (.cons he hw) hy
          exact (List.mem_cons.mp hmem).resolve_left hpx
        obtain ⟨q, hq, hpq⟩ := ht.least x hx hexit p hsucc
        exact hpq.trans (Ancestor.parent hq)
  · intro hp es y hw hy
    clear hx
    induction hw with
    | nil x =>
      by_cases hpx : p = x
      · simp [walkNodes, hpx]
      · exact absurd hy (ht.above_succ hp hpx).1
    | @cons x y e es he hw ih =>
      by_cases hpx : p = x
      · simp [walkNodes, hpx]
      · have hmem := ih ((ht.above_succ hp hpx).2 e he) hy
        exact List.mem_cons_of_mem _ hmem

/-- The parent is the immediate post-dominator. -/
theorem LcaForest.parent_immediate (hx : x < n) (hp : par x = some p) :
    p ≠ x ∧ PostDominates out target exit p x ∧
      ∀ q, q ≠ x → PostDominates out target exit q x → PostDominates out target exit q p := by
  obtain ⟨hlt, hpn⟩ := ht.forest x p hp
  refine ⟨hlt.ne', (ht.postDominates_iff hx).mpr (Ancestor.parent hp), fun q hqx hq => ?_⟩
  apply (ht.postDominates_iff hpn).mpr
  exact ancestor_step hp ((ht.postDominates_iff hx).mp hq) hqx

theorem LcaForest.parent_none (hx : x < n) :
    par x = none ↔ ∀ q, q ≠ x → ¬ PostDominates out target exit q x := by
  constructor
  · intro hp q hqx hq
    exact hqx (ancestor_root hp ((ht.postDominates_iff hx).mp hq))
  · intro hno
    cases hp : par x with
    | none => rfl
    | some p =>
      obtain ⟨hne, hpd, -⟩ := ht.parent_immediate hx hp
      exact absurd hpd (hno p hne)

/-- An ancestor is reached by a walk. -/
theorem LcaForest.exists_walk (hp : Ancestor par p x) : ∃ es, Walk out target x es p := by
  induction x using downward_induction n with
  | step x ih =>
    by_cases hpx : p = x
    · rw [hpx]
      exact ⟨[], .nil x⟩
    · obtain ⟨hexit, hsucc⟩ := ht.above_succ hp hpx
      cases hout : out x with
      | nil => exact absurd (ht.leaves x hout) hexit
      | cons e rest =>
        have he : e ∈ out x := by
          rw [hout]
          exact List.mem_cons_self
        obtain ⟨hlt, hn⟩ := ht.forward x e he
        obtain ⟨es, hw⟩ := ih (target e) hlt hn (hsucc e he)
        exact ⟨e :: es, .cons he hw⟩

/-- A walk to an ancestor meets every ancestor in between. -/
theorem LcaForest.mem_walk (hq : Ancestor par q x) (hpq : Ancestor par p q)
    (hw : Walk out target x es p) : q ∈ walkNodes target x es := by
  induction hw with
  | nil x =>
    have hle := hq.le ht.forest
    have hle' := hpq.le ht.forest
    obtain rfl : q = x := by omega
    exact List.mem_cons_self
  | @cons x y e es he hw ih =>
    by_cases hqx : q = x
    · rw [hqx]
      exact List.mem_cons_self
    · exact List.mem_cons_of_mem _ (ih ((ht.above_succ hq hqx).2 e he) hpq)

omit ht in
/-- `z` lies above `x` and strictly below `p`. -/
def Inside (par : Parents) (p x z : Nat) : Prop := Ancestor par z x ∧ Ancestor par p z ∧ z ≠ p

omit ht in
/-- The weight of a node is the greatest among the labels of its edges and the weights of the nodes
between its successors and its parent. -/
structure LcaWeights {L : Type*} [LinearOrder L] (out : Nat → List ε) (target : ε → Nat)
    (par : Parents) (label : ε → L) (weight : Nat → L) : Prop where
  edge : ∀ x p, par x = some p → ∀ e ∈ out x, label e ≤ weight x
  inside : ∀ x p, par x = some p → ∀ e ∈ out x, ∀ z, Inside par p (target e) z →
    weight z ≤ weight x
  attained : ∀ x p, par x = some p → ∃ e ∈ out x, label e = weight x ∨
    ∃ z, Inside par p (target e) z ∧ weight z = weight x

variable {L : Type*} [LinearOrder L] {label : ε → L} {weight : Nat → L}
  (hl : LcaWeights out target par label weight)

include hl

theorem LcaForest.label_le (x : Nat) :
    (∀ p, par x = some p → ∀ es, Walk out target x es p → ∀ e ∈ es, label e ≤ weight x) ∧
    ∀ p, Ancestor par p x → ∀ es, Walk out target x es p → ∀ e ∈ es,
      ∃ z, Inside par p x z ∧ label e ≤ weight z := by
  induction x using downward_induction n with
  | step x ih =>
    have hmain : ∀ p, par x = some p → ∀ es, Walk out target x es p → ∀ e ∈ es,
        label e ≤ weight x := by
      intro p hp es hw e he
      cases hw with
      | nil => cases he
      | @cons _ _ e₀ es he₀ hw =>
        cases List.mem_cons.mp he with
        | inl heq =>
          rw [heq]
          exact hl.edge x p hp e₀ he₀
        | inr he =>
          obtain ⟨hlt, hn⟩ := ht.forward x e₀ he₀
          have habove := (ht.dom x p hp).2 e₀ he₀
          obtain ⟨z, hz, hle⟩ := (ih (target e₀) hlt hn).2 p habove es hw e he
          exact hle.trans (hl.inside x p hp e₀ he₀ z hz)
    refine ⟨hmain, fun p hpx es hw e he => ?_⟩
    cases hx : par x with
    | none =>
      have hpx' := ancestor_root hx hpx
      subst hpx'
      cases hw with
      | nil => cases he
      | @cons _ _ e₀ es he₀ hw =>
        have hlt := (ht.forward p e₀ he₀).1
        have hle := ht.walk_le hw
        omega
    | some q =>
      by_cases hne : p = x
      · subst hne
        cases hw with
        | nil => cases he
        | @cons _ _ e₀ es he₀ hw =>
          have hlt := (ht.forward p e₀ he₀).1
          have hle := ht.walk_le hw
          omega
      · -- the walk is cut at the parent
        have hpq := ancestor_step hx hpx hne
        obtain ⟨hlt, hqn⟩ := ht.forest x q hx
        obtain ⟨es₁, es₂, rfl, hw₁, hw₂⟩ := hw.split (ht.mem_walk (Ancestor.parent hx) hpq hw)
        cases List.mem_append.mp he with
        | inl he =>
          exact ⟨x, ⟨Ancestor.refl x, hpx, Ne.symm hne⟩, hmain q hx es₁ hw₁ e he⟩
        | inr he =>
          obtain ⟨z, hz, hle⟩ := (ih q hlt hqn).2 p hpq es₂ hw₂ e he
          exact ⟨z, ⟨hz.1.trans (Ancestor.parent hx), hz.2⟩, hle⟩

theorem LcaForest.label_attained (x : Nat) (hp : par x = some p) :
    ∃ es, Walk out target x es p ∧ ∃ e ∈ es, label e = weight x := by
  induction x using downward_induction n generalizing p with
  | step x ih =>
    obtain ⟨e, he, hcase⟩ := hl.attained x p hp
    obtain ⟨hlt, hn⟩ := ht.forward x e he
    cases hcase with
    | inl heq =>
      obtain ⟨es, hw⟩ := ht.exists_walk ((ht.dom x p hp).2 e he)
      exact ⟨e :: es, .cons he hw, e, List.mem_cons_self, heq⟩
    | inr hinner =>
      obtain ⟨z, ⟨hz, hpz, hne⟩, hweight⟩ := hinner
      cases hzq : par z with
      | none => exact absurd (ancestor_root hzq hpz) (Ne.symm hne)
      | some q =>
        have hxz : x < z := hlt.trans_le (hz.le ht.forest)
        obtain ⟨es₂, hw₂, e', he', hlabel⟩ := ih z hxz (hz.lt_size ht.forest hn) hzq
        obtain ⟨es₁, hw₁⟩ := ht.exists_walk hz
        obtain ⟨es₃, hw₃⟩ := ht.exists_walk (ancestor_step hzq hpz (Ne.symm hne))
        refine ⟨e :: (es₁ ++ (es₂ ++ es₃)), .cons he (hw₁.append (hw₂.append hw₃)), e', ?_, ?_⟩
        · exact List.mem_cons_of_mem _ (List.mem_append_right _ (List.mem_append_left _ he'))
        · rw [hlabel, hweight]

end Tree

end StencilGraph.Framework

import Mathlib.Logic.Function.Basic
import Mathlib.Logic.Relation
import Mathlib.Order.Nat
import Mathlib.Tactic.Common

namespace StencilGraph.Framework

/-- A union-find forest as parent pointers; a root has none. -/
abbrev Parents := Nat → Option Nat

/-- Parents have larger indices, all below `n`. -/
def Forest (n : Nat) (par : Parents) : Prop := ∀ i p, par i = some p → i < p ∧ p < n

/-- The loop `while root.parent is not None: root = root.parent`. -/
def rootFrom (par : Parents) : Nat → Nat → Nat
  | 0, r => r
  | fuel + 1, r =>
    match par r with
    | none => r
    | some p => rootFrom par fuel p

def rootOf (n : Nat) (par : Parents) (i : Nat) : Nat := rootFrom par n i

/-- The second loop of `FindRoot`: every node from `p` up to `root` gets `root` as parent. -/
def compress (root : Nat) : Nat → Nat → Parents → Parents
  | 0, _, par => par
  | fuel + 1, p, par =>
    if p = root then par
    else
      match par p with
      | none => par
      | some q => compress root fuel q (Function.update par p (some root))

/-- `FindRoot` with path compression. -/
def findRoot (n i : Nat) (par : Parents) : Nat × Parents :=
  match par i with
  | none => (i, par)
  | some _ => (rootOf n par i, compress (rootOf n par i) n i par)

variable {n : Nat} {par : Parents}

theorem rootFrom_fuel (hf : Forest n par) (k l i : Nat) (hk : n ≤ i + k) (hl : n ≤ i + l) :
    rootFrom par k i = rootFrom par l i := by
  induction k generalizing l i with
  | zero =>
    cases l with
    | zero => rfl
    | succ l =>
      cases hp : par i with
      | none => simp [rootFrom, hp]
      | some p => have := hf i p hp; omega
  | succ k ih =>
    cases hp : par i with
    | none => cases l <;> simp [rootFrom, hp]
    | some p =>
      have hip := hf i p hp
      cases l with
      | zero => omega
      | succ l =>
        simp only [rootFrom, hp]
        exact ih l p (by omega) (by omega)

theorem rootOf_none {i : Nat} (h : par i = none) : rootOf n par i = i := by
  unfold rootOf
  cases n <;> simp [rootFrom, h]

theorem rootOf_some (hf : Forest n par) {i p : Nat} (h : par i = some p) :
    rootOf n par i = rootOf n par p := by
  have hip := hf i p h
  obtain ⟨k, rfl⟩ : ∃ k, n = k + 1 := ⟨n - 1, by omega⟩
  unfold rootOf
  rw [show rootFrom par (k + 1) i = rootFrom par k p by simp [rootFrom, h]]
  exact rootFrom_fuel hf _ _ _ (by omega) (by omega)

/-- Climbing to the parent, from the largest index downwards. -/
theorem forest_induction (hf : Forest n par) {motive : Nat → Prop}
    (root : ∀ i, par i = none → motive i)
    (step : ∀ i p, par i = some p → motive p → motive i) (i : Nat) : motive i := by
  have key : ∀ k i, n ≤ i + k → motive i := by
    intro k
    induction k with
    | zero =>
      intro i hi
      cases hp : par i with
      | none => exact root i hp
      | some p => have := hf i p hp; omega
    | succ k ih =>
      intro i hi
      cases hp : par i with
      | none => exact root i hp
      | some p =>
        have := hf i p hp
        exact step i p hp (ih p (by omega))
  exact key n i (by omega)

theorem par_rootOf (hf : Forest n par) (i : Nat) : par (rootOf n par i) = none := by
  induction i using forest_induction hf with
  | root i hi => rw [rootOf_none hi]; exact hi
  | step i p hp ih => rw [rootOf_some hf hp]; exact ih

theorem le_rootOf (hf : Forest n par) (i : Nat) : i ≤ rootOf n par i := by
  induction i using forest_induction hf with
  | root i hi => exact (rootOf_none hi).ge
  | step i p hp ih =>
    rw [rootOf_some hf hp]
    have := hf i p hp
    omega

theorem rootOf_lt (hf : Forest n par) (i : Nat) (hi : i < n) : rootOf n par i < n := by
  induction i using forest_induction hf with
  | root i h => rw [rootOf_none h]; exact hi
  | step i p hp ih =>
    rw [rootOf_some hf hp]
    exact ih (hf i p hp).2

theorem lt_rootOf (hf : Forest n par) {i : Nat} (hi : par i ≠ none) : i < rootOf n par i := by
  obtain ⟨p, hp⟩ := Option.ne_none_iff_exists'.mp hi
  rw [rootOf_some hf hp]
  exact (hf i p hp).1.trans_le (le_rootOf hf p)

theorem rootOf_idem (hf : Forest n par) (i : Nat) :
    rootOf n par (rootOf n par i) = rootOf n par i :=
  rootOf_none (par_rootOf hf i)

theorem par_eq_none_iff (hf : Forest n par) (i : Nat) : par i = none ↔ rootOf n par i = i := by
  constructor
  · exact rootOf_none
  · intro h
    rw [← h]
    exact par_rootOf hf i

/-- Two forests in which every node has the same root. -/
def SameRoots (n : Nat) (par par' : Parents) : Prop :=
  Forest n par' ∧ ∀ i, rootOf n par' i = rootOf n par i

theorem SameRoots.refl (hf : Forest n par) : SameRoots n par par := ⟨hf, fun _ => rfl⟩

theorem SameRoots.trans {par₁ par₂ : Parents} (h₁ : SameRoots n par par₁)
    (h₂ : SameRoots n par₁ par₂) : SameRoots n par par₂ :=
  ⟨h₂.1, fun i => (h₂.2 i).trans (h₁.2 i)⟩

theorem SameRoots.none_iff (hf : Forest n par) {par' : Parents} (h : SameRoots n par par') (i : Nat) :
    par' i = none ↔ par i = none := by
  rw [par_eq_none_iff hf, par_eq_none_iff h.1, h.2]

/-- Pointing a non-root at its own root changes no root. -/
theorem sameRoots_shortcut (hf : Forest n par) {i : Nat} (hi : par i ≠ none) :
    SameRoots n par (Function.update par i (some (rootOf n par i))) := by
  obtain ⟨p, hp⟩ := Option.ne_none_iff_exists'.mp hi
  have hlt := hf i p hp
  have hroot : rootOf n par i < n := by
    rw [rootOf_some hf hp]
    exact rootOf_lt hf p hlt.2
  have hf' : Forest n (Function.update par i (some (rootOf n par i))) := by
    intro j q hq
    by_cases hj : j = i
    · subst hj
      rw [Function.update_self, Option.some.injEq] at hq
      subst hq
      exact ⟨lt_rootOf hf hi, hroot⟩
    · rw [Function.update_of_ne hj] at hq
      exact hf j q hq
  have hself : rootOf n (Function.update par i (some (rootOf n par i))) (rootOf n par i) =
      rootOf n par i := by
    apply rootOf_none
    rw [Function.update_of_ne (lt_rootOf hf hi).ne']
    exact par_rootOf hf i
  refine ⟨hf', ?_⟩
  intro j
  induction j using forest_induction hf with
  | root j hj =>
    have hji : j ≠ i := by rintro rfl; exact hi hj
    rw [rootOf_none hj, rootOf_none (by rw [Function.update_of_ne hji]; exact hj)]
  | step j q hq ih =>
    by_cases hj : j = i
    · subst hj
      rw [rootOf_some hf' (Function.update_self ..)]
      exact hself
    · rw [rootOf_some hf' (i := j) (p := q) (by rw [Function.update_of_ne hj]; exact hq), ih,
        rootOf_some hf hq]

theorem compress_sameRoots (hf : Forest n par) (fuel i : Nat) :
    SameRoots n par (compress (rootOf n par i) fuel i par) := by
  have key : ∀ fuel (r i : Nat) (par : Parents), Forest n par → r = rootOf n par i →
      SameRoots n par (compress r fuel i par) := by
    intro fuel
    induction fuel with
    | zero => intro r i par hf _; exact SameRoots.refl hf
    | succ fuel ih =>
      intro r i par hf hr
      unfold compress
      split
      · exact SameRoots.refl hf
      · cases hp : par i with
        | none => exact SameRoots.refl hf
        | some p =>
          have hs := sameRoots_shortcut hf (i := i) (by simp [hp])
          rw [← hr] at hs
          refine hs.trans (ih r p _ hs.1 ?_)
          rw [hs.2 p, hr]
          exact rootOf_some hf hp
  exact key fuel _ i par hf rfl

/-- `FindRoot` returns the root and changes no root. -/
theorem findRoot_spec (hf : Forest n par) (i : Nat) :
    (findRoot n i par).1 = rootOf n par i ∧ SameRoots n par (findRoot n i par).2 := by
  unfold findRoot
  cases hp : par i with
  | none => exact ⟨(rootOf_none hp).symm, SameRoots.refl hf⟩
  | some p => exact ⟨rfl, compress_sameRoots hf n i⟩

/-- Attaching the root `c` below the larger root `t`. -/
theorem rootOf_link (hf : Forest n par) {c t : Nat} (hc : par c = none) (ht : par t = none)
    (hlt : c < t) (htn : t < n) :
    Forest n (Function.update par c (some t)) ∧
      ∀ i, rootOf n (Function.update par c (some t)) i =
        if rootOf n par i = c then t else rootOf n par i := by
  have hf' : Forest n (Function.update par c (some t)) := by
    intro j q hq
    by_cases hj : j = c
    · subst hj
      rw [Function.update_self, Option.some.injEq] at hq
      subst hq
      exact ⟨hlt, htn⟩
    · rw [Function.update_of_ne hj] at hq
      exact hf j q hq
  have htr : rootOf n (Function.update par c (some t)) t = t :=
    rootOf_none (by rw [Function.update_of_ne hlt.ne']; exact ht)
  refine ⟨hf', ?_⟩
  intro i
  induction i using forest_induction hf with
  | root i hi =>
    by_cases hic : i = c
    · subst hic
      rw [rootOf_none hi, if_pos rfl, rootOf_some hf' (Function.update_self ..)]
      exact htr
    · rw [rootOf_none hi, if_neg hic, rootOf_none (by rw [Function.update_of_ne hic]; exact hi)]
  | step i q hq ih =>
    have hic : i ≠ c := by rintro rfl; simp [hc] at hq
    rw [rootOf_some hf' (i := i) (p := q) (by rw [Function.update_of_ne hic]; exact hq), ih,
      rootOf_some hf hq]

end StencilGraph.Framework

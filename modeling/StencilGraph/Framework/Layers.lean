import Mathlib.Logic.Relation

namespace StencilGraph.Framework
open Relation

variable {α : Type*} {R : α → α → Prop} {x y : α} {m n : Nat}

/-- A path of `n` edges that ends in `x`. -/
inductive PathTo (R : α → α → Prop) : Nat → α → Prop where
  | single (x : α) : PathTo R 0 x
  | extend {y x : α} {n : Nat} (hyx : R y x) (hy : PathTo R n y) : PathTo R (n + 1) x

/-- A path without its first edge. -/
theorem PathTo.pred (h : PathTo R (n + 1) x) : PathTo R n x := by
  induction n generalizing x with
  | zero => exact .single x
  | succ n ih =>
    cases h with
    | extend hyx hy => exact .extend hyx (ih hy)

theorem PathTo.of_le (h : PathTo R n x) (hmn : m ≤ n) : PathTo R m x := by
  induction n with
  | zero =>
    rw [Nat.le_zero.mp hmn]
    exact .single x
  | succ n ih =>
    rcases Nat.lt_or_eq_of_le hmn with hlt | heq
    · exact ih h.pred (Nat.le_of_lt_succ hlt)
    · rw [heq]
      exact h

theorem PathTo.of_transGen (h : PathTo R n y) (hyx : TransGen R y x) : PathTo R (n + 1) x := by
  induction hyx with
  | single hyx => exact .extend hyx h
  | tail _ hzx ih => exact .extend hzx ih.pred

theorem pathTo_succ_iff : PathTo R (n + 1) x ↔ ∃ y, TransGen R y x ∧ PathTo R n y := by
  constructor
  · intro h
    cases h with
    | extend hyx hy => exact ⟨_, .single hyx, hy⟩
  · intro ⟨y, hyx, hy⟩
    exact hy.of_transGen hyx

/-- The longest path that ends in `x` has `n` edges. -/
structure Longest (R : α → α → Prop) (x : α) (n : Nat) : Prop where
  path : PathTo R n x
  max : ∀ m, PathTo R m x → m ≤ n

theorem longest_iff : Longest R x n ↔ PathTo R n x ∧ ¬ PathTo R (n + 1) x := by
  constructor
  · intro h
    refine ⟨h.path, fun hlong => ?_⟩
    exact absurd (h.max _ hlong) (Nat.not_succ_le_self n)
  · intro h
    refine ⟨h.1, fun m hm => ?_⟩
    apply Nat.le_of_not_lt
    intro hlt
    exact h.2 (hm.of_le hlt)

theorem Longest.unique (hm : Longest R x m) (hn : Longest R x n) : m = n :=
  Nat.le_antisymm (hn.max m hm.path) (hm.max n hn.path)

/-- What a node depends on lies on an earlier level. -/
theorem Longest.lt (hyx : TransGen R y x) (hy : Longest R y m) (hx : Longest R x n) : m < n :=
  hx.max _ (hy.path.of_transGen hyx)

/-- A node above the first level depends on a node of the level before. -/
theorem Longest.pred (h : Longest R x (n + 1)) : ∃ y, R y x ∧ Longest R y n := by
  obtain ⟨hpath, hmax⟩ := h
  cases hpath with
  | extend hyx hy =>
    refine ⟨_, hyx, hy, fun m hm => ?_⟩
    exact Nat.le_of_succ_le_succ (hmax _ (.extend hyx hm))

end StencilGraph.Framework

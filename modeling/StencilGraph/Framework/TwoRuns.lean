import Mathlib.Data.List.Forall2
import Mathlib.Data.List.TakeDrop

namespace StencilGraph.Framework

variable {α β γ δ : Type*} {R : α → β → Prop} {S : γ → δ → Prop}

/-- Two computations that go on alike after alike results. -/
theorem rel_bind {x : Option α} {y : Option β} {f : α → Option γ} {g : β → Option δ}
    (h : Option.Rel R x y) (hfg : ∀ a b, R a b → Option.Rel S (f a) (g b)) :
    Option.Rel S (x.bind f) (y.bind g) := by
  cases h with
  | none => exact .none
  | some hab => exact hfg _ _ hab

theorem forall₂_span {f : α → Bool} {g : β → Bool} (hfg : ∀ a b, R a b → f a = g b) {l : List α}
    {l' : List β} (h : List.Forall₂ R l l') :
    List.Forall₂ R (l.span f).1 (l'.span g).1 ∧ List.Forall₂ R (l.span f).2 (l'.span g).2 := by
  rw [List.span_eq_takeWhile_dropWhile, List.span_eq_takeWhile_dropWhile]
  induction h with
  | nil => exact ⟨.nil, .nil⟩
  | @cons a b l l' hab hrest ih =>
    have heq := hfg a b hab
    cases hg : g b with
    | true =>
      rw [hg] at heq
      rw [List.takeWhile_cons_of_pos heq, List.takeWhile_cons_of_pos hg,
        List.dropWhile_cons_of_pos heq, List.dropWhile_cons_of_pos hg]
      exact ⟨.cons hab ih.1, ih.2⟩
    | false =>
      rw [hg] at heq
      have hf : ¬ f a = true := by simp [heq]
      have hg' : ¬ g b = true := by simp [hg]
      rw [List.takeWhile_cons_of_neg hf, List.takeWhile_cons_of_neg hg',
        List.dropWhile_cons_of_neg hf, List.dropWhile_cons_of_neg hg']
      exact ⟨.nil, .cons hab hrest⟩

theorem forall₂_find {f : α → Bool} {g : β → Bool} (hfg : ∀ a b, R a b → f a = g b) {l : List α}
    {l' : List β} (h : List.Forall₂ R l l') : Option.Rel R (l.find? f) (l'.find? g) := by
  induction h with
  | nil => exact .none
  | @cons a b l l' hab _ ih =>
    rw [List.find?_cons, List.find?_cons, hfg a b hab]
    cases g b with
    | true => exact .some hab
    | false => exact ih

end StencilGraph.Framework

import Mathlib.Order.Interval.Set.Basic
import Mathlib.Order.Monotone.Basic

namespace StencilGraph.Framework
open Set

variable {α β γ : Type*} [Preorder α] [Preorder β] [LinearOrder γ]

/-- A function that keeps to one direction on a set. -/
def OneWay (f : α → γ) (s : Set α) : Prop := MonotoneOn f s ∨ AntitoneOn f s

theorem OneWay.le_max {f : α → γ} {a b x : α} (hf : OneWay f (Icc a b)) (hx : x ∈ Icc a b) :
    f x ≤ max (f a) (f b) := by
  have ha : a ∈ Icc a b := ⟨le_refl a, hx.1.trans hx.2⟩
  have hb : b ∈ Icc a b := ⟨hx.1.trans hx.2, le_refl b⟩
  cases hf with
  | inl hf => exact (hf hx hb hx.2).trans (le_max_right _ _)
  | inr hf => exact (hf ha hx hx.1).trans (le_max_left _ _)

theorem OneWay.min_le {f : α → γ} {a b x : α} (hf : OneWay f (Icc a b)) (hx : x ∈ Icc a b) :
    min (f a) (f b) ≤ f x := by
  have ha : a ∈ Icc a b := ⟨le_refl a, hx.1.trans hx.2⟩
  have hb : b ∈ Icc a b := ⟨hx.1.trans hx.2, le_refl b⟩
  cases hf with
  | inl hf => exact (min_le_left _ _).trans (hf ha hx hx.1)
  | inr hf => exact (min_le_right _ _).trans (hf hx hb hx.2)

theorem OneWay.mono {f : α → γ} {s t : Set α} (h : OneWay f t) (hst : s ⊆ t) : OneWay f s := by
  cases h with
  | inl h => exact Or.inl fun x hx y hy hle => h (hst hx) (hst hy) hle
  | inr h => exact Or.inr fun x hx y hy hle => h (hst hx) (hst hy) hle

theorem OneWay.congr {f g : α → γ} {s : Set α} (h : OneWay f s) (heq : ∀ x ∈ s, g x = f x) :
    OneWay g s := by
  cases h with
  | inl h =>
    refine Or.inl fun x hx y hy hle => ?_
    rw [heq x hx, heq y hy]
    exact h hx hy hle
  | inr h =>
    refine Or.inr fun x hx y hy hle => ?_
    rw [heq x hx, heq y hy]
    exact h hx hy hle

theorem OneWay.monotone_comp {f : α → γ} {g : γ → γ} {s : Set α} (h : OneWay f s)
    (hg : Monotone g) : OneWay (fun x => g (f x)) s := by
  cases h with
  | inl h => exact Or.inl fun x hx y hy hle => hg (h hx hy hle)
  | inr h => exact Or.inr fun x hx y hy hle => hg (h hx hy hle)

theorem OneWay.antitone_comp {f : α → γ} {g : γ → γ} {s : Set α} (h : OneWay f s)
    (hg : Antitone g) : OneWay (fun x => g (f x)) s := by
  cases h with
  | inl h => exact Or.inr fun x hx y hy hle => hg (h hx hy hle)
  | inr h => exact Or.inl fun x hx y hy hle => hg (h hx hy hle)

/-- A function that keeps to one direction in each argument takes its extreme values over a box at
the corners. -/
theorem corners {f : α → β → γ} {a₁ a₂ x : α} {b₁ b₂ y : β} (hx : x ∈ Icc a₁ a₂)
    (hy : y ∈ Icc b₁ b₂) (hleft : ∀ y ∈ Icc b₁ b₂, OneWay (fun x => f x y) (Icc a₁ a₂))
    (hright : ∀ x ∈ Icc a₁ a₂, OneWay (f x) (Icc b₁ b₂)) :
    min (min (min (f a₁ b₁) (f a₂ b₂)) (f a₁ b₂)) (f a₂ b₁) ≤ f x y ∧
      f x y ≤ max (max (max (f a₁ b₁) (f a₂ b₂)) (f a₁ b₂)) (f a₂ b₁) := by
  have ha₁ : a₁ ∈ Icc a₁ a₂ := ⟨le_refl a₁, hx.1.trans hx.2⟩
  have ha₂ : a₂ ∈ Icc a₁ a₂ := ⟨hx.1.trans hx.2, le_refl a₂⟩
  constructor
  · apply le_trans _ ((hleft y hy).min_le hx)
    apply le_min
    · apply le_trans (le_min _ _) ((hright a₁ ha₁).min_le hy)
      · exact (min_le_left _ _).trans ((min_le_left _ _).trans (min_le_left _ _))
      · exact (min_le_left _ _).trans (min_le_right _ _)
    · apply le_trans (le_min _ _) ((hright a₂ ha₂).min_le hy)
      · exact min_le_right _ _
      · exact (min_le_left _ _).trans ((min_le_left _ _).trans (min_le_right _ _))
  · apply ((hleft y hy).le_max hx).trans
    apply max_le
    · apply ((hright a₁ ha₁).le_max hy).trans (max_le _ _)
      · exact (le_max_left _ _).trans ((le_max_left _ _).trans (le_max_left _ _))
      · exact (le_max_right _ _).trans (le_max_left _ _)
    · apply ((hright a₂ ha₂).le_max hy).trans (max_le _ _)
      · exact le_max_right _ _
      · exact (le_max_right _ _).trans ((le_max_left _ _).trans (le_max_left _ _))

end StencilGraph.Framework

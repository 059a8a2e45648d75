import Mathlib.Data.List.Basic
import Mathlib.Tactic.Common

namespace StencilGraph.Framework

variable {ε α β σ : Type} {allowed : ε → Prop} {post post' : α → Prop}

/-- The computation stops only in an allowed way, and what it returns meets `post`. -/
def Ensures (allowed : ε → Prop) (x : Except ε α) (post : α → Prop) : Prop :=
  match x with
  | .ok a => post a
  | .error e => allowed e

theorem Ensures.mono {x : Except ε α} (h : Ensures allowed x post) (hpost : ∀ a, post a → post' a) :
    Ensures allowed x post' := by
  cases x with
  | ok a => exact hpost a h
  | error e => exact h

theorem Ensures.weaken {allowed' : ε → Prop} {x : Except ε α} (h : Ensures allowed x post)
    (hallowed : ∀ e, allowed e → allowed' e) : Ensures allowed' x post := by
  cases x with
  | ok a => exact h
  | error e => exact hallowed e h

theorem Ensures.bind {x : Except ε α} {f : α → Except ε β} {post'' : β → Prop}
    (h : Ensures allowed x post) (hf : ∀ a, x = .ok a → post a → Ensures allowed (f a) post'') :
    Ensures allowed (x >>= f) post'' := by
  cases x with
  | ok a => exact hf a rfl h
  | error e => exact h

theorem Ensures.iff_and {x : Except ε α} :
    Ensures allowed x post ↔ Ensures allowed x (fun _ => True) ∧ ∀ a, x = .ok a → post a := by
  cases x with
  | ok a =>
    constructor
    · intro h
      exact ⟨trivial, fun b hb => Except.ok.inj hb ▸ h⟩
    · intro h
      exact h.2 a rfl
  | error e =>
    constructor
    · intro h
      refine ⟨h, fun b hb => ?_⟩
      cases hb
    · intro h
      exact h.1

theorem Ensures.bind_iff {x : Except ε α} {f : α → Except ε β} {post'' : β → Prop} :
    Ensures allowed (x >>= f) post'' ↔
      Ensures allowed x (fun _ => True) ∧ ∀ a, x = .ok a → Ensures allowed (f a) post'' := by
  rw [← @Ensures.iff_and ε α allowed (fun a => Ensures allowed (f a) post'') x]
  cases x with
  | ok a => exact Iff.rfl
  | error e => exact Iff.rfl

/-- The invariant may speak of the elements already visited. -/
theorem Ensures.foldlM {f : σ → α → Except ε σ} {l : List α} {s : σ} (inv : List α → σ → Prop)
    (hstart : inv [] s)
    (hstep : ∀ seen a rest s, l = seen ++ a :: rest → inv seen s →
      Ensures allowed (f s a) (inv (seen ++ [a]))) :
    Ensures allowed (l.foldlM f s) (inv l) := by
  have hfrom (seen rest : List α) (s : σ) (hl : l = seen ++ rest) (hs : inv seen s) :
      Ensures allowed (rest.foldlM f s) (inv l) := by
    induction rest generalizing seen s with
    | nil =>
      rw [List.append_nil] at hl
      rw [hl]
      exact hs
    | cons a rest ih =>
      rw [List.foldlM_cons]
      apply (hstep seen a rest s hl hs).bind
      intro s' _ hs'
      apply ih (seen ++ [a]) s' _ hs'
      rw [hl, List.append_assoc]
      rfl
  exact hfrom [] l s rfl hstart

end StencilGraph.Framework

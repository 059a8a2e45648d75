import Mathlib.Data.List.Basic
import Mathlib.Tactic.Common

namespace StencilGraph.Framework

/-- How a computation with a bounded depth ends. -/
inductive Ending (ε α : Type) where
  | timeout
  | raised (error : ε)
  | value (a : α)
  deriving DecidableEq

structure Ran (σ ι ε α : Type) where
  ending : Ending ε α
  log : List ι
  state : σ

/-- A computation with a state, exceptions and a log. The state and the log survive an exception. -/
def Traced (σ ι ε α : Type) : Type := σ → Ran σ ι ε α

namespace Traced

variable {σ ι ε α β : Type}

def bind (x : Traced σ ι ε α) (f : α → Traced σ ι ε β) : Traced σ ι ε β := fun s =>
  match x s with
  | ⟨.timeout, log, s'⟩ => ⟨.timeout, log, s'⟩
  | ⟨.raised e, log, s'⟩ => ⟨.raised e, log, s'⟩
  | ⟨.value a, log, s'⟩ => ⟨(f a s').ending, log ++ (f a s').log, (f a s').state⟩

instance : Monad (Traced σ ι ε) where
  pure a := fun s => ⟨.value a, [], s⟩
  bind := bind

def timeout : Traced σ ι ε α := fun s => ⟨.timeout, [], s⟩

def raise (e : ε) : Traced σ ι ε α := fun s => ⟨.raised e, [], s⟩

def tell (i : ι) : Traced σ ι ε Unit := fun s => ⟨.value (), [i], s⟩

def get : Traced σ ι ε σ := fun s => ⟨.value s, [], s⟩

def set (s : σ) : Traced σ ι ε Unit := fun _ => ⟨.value (), [], s⟩

/-- A value, or the exception when there is none. -/
def require (o : Option α) (e : ε) : Traced σ ι ε α :=
  match o with
  | some a => pure a
  | none => raise e

/-- The results for the elements of a list, in order. -/
def traverse (f : α → Traced σ ι ε β) : List α → Traced σ ι ε (List β)
  | [] => pure []
  | x :: xs => do
    let b ← f x
    let bs ← traverse f xs
    pure (b :: bs)

theorem bind_value {x : Traced σ ι ε α} {f : α → Traced σ ι ε β} {s s' : σ} {a : α} {log : List ι}
    (h : x s = ⟨.value a, log, s'⟩) :
    (x >>= f) s = ⟨(f a s').ending, log ++ (f a s').log, (f a s').state⟩ := by
  show bind x f s = _
  unfold bind
  rw [h]

theorem bind_timeout {x : Traced σ ι ε α} {f : α → Traced σ ι ε β} {s s' : σ} {log : List ι}
    (h : x s = ⟨.timeout, log, s'⟩) : (x >>= f) s = ⟨.timeout, log, s'⟩ := by
  show bind x f s = _
  unfold bind
  rw [h]

theorem bind_raised {x : Traced σ ι ε α} {f : α → Traced σ ι ε β} {s s' : σ} {e : ε} {log : List ι}
    (h : x s = ⟨.raised e, log, s'⟩) : (x >>= f) s = ⟨.raised e, log, s'⟩ := by
  show bind x f s = _
  unfold bind
  rw [h]

/-- `y` does what `x` does, or goes on where `x` runs out of depth. -/
def Approx (x y : Traced σ ι ε α) : Prop :=
  ∀ s, x s = y s ∨ ((x s).ending = .timeout ∧ (x s).log <+: (y s).log)

theorem Approx.refl (x : Traced σ ι ε α) : Approx x x := fun _ => Or.inl rfl

theorem Approx.timeout (y : Traced σ ι ε α) : Approx timeout y :=
  fun _ => Or.inr ⟨rfl, List.nil_prefix⟩

theorem Approx.trans {x y z : Traced σ ι ε α} (h : Approx x y) (h' : Approx y z) : Approx x z := by
  intro s
  cases h s with
  | inl heq =>
    rw [heq]
    exact h' s
  | inr hout =>
    obtain ⟨hend, hlog⟩ := hout
    cases h' s with
    | inl heq => exact Or.inr ⟨hend, heq ▸ hlog⟩
    | inr hout' => exact Or.inr ⟨hend, hlog.trans hout'.2⟩

theorem log_prefix_bind (x : Traced σ ι ε α) (f : α → Traced σ ι ε β) (s : σ) :
    (x s).log <+: ((x >>= f) s).log := by
  cases hx : x s with
  | mk ending log s' =>
    cases ending with
    | timeout => simp [bind_timeout hx]
    | raised e => simp [bind_raised hx]
    | value a => simp [bind_value hx]

theorem Approx.bind {x y : Traced σ ι ε α} {f g : α → Traced σ ι ε β} (h : Approx x y)
    (hf : ∀ a, Approx (f a) (g a)) : Approx (x >>= f) (y >>= g) := by
  intro s
  cases h s with
  | inl heq =>
    cases hx : x s with
    | mk ending log s' =>
      have hy := heq.symm.trans hx
      cases ending with
      | timeout =>
        rw [bind_timeout hx, bind_timeout hy]
        exact Or.inl rfl
      | raised e =>
        rw [bind_raised hx, bind_raised hy]
        exact Or.inl rfl
      | value a =>
        rw [bind_value hx, bind_value hy]
        cases hf a s' with
        | inl heq' =>
          rw [heq']
          exact Or.inl rfl
        | inr hout => exact Or.inr ⟨hout.1, (List.prefix_append_right_inj log).mpr hout.2⟩
  | inr hout =>
    obtain ⟨hend, hlog⟩ := hout
    right
    cases hx : x s with
    | mk ending log s' =>
      rw [hx] at hend hlog
      cases hend
      rw [bind_timeout hx]
      exact ⟨rfl, hlog.trans (log_prefix_bind y g s)⟩

theorem Approx.traverse {f g : α → Traced σ ι ε β} (xs : List α) (h : ∀ a, Approx (f a) (g a)) :
    Approx (traverse f xs) (traverse g xs) := by
  induction xs with
  | nil => exact .refl _
  | cons x xs ih => exact (h x).bind fun b => ih.bind fun bs => .refl _

/-- A fact about a log, given whether the depth ran out, that can be composed. -/
structure Composable (R : Prop → List ι → Prop) : Prop where
  nil : R False []
  append : ∀ b l l', R False l → R b l' → R b (l ++ l')

/-- The computation keeps the invariant, and the fact holds of its log. -/
def Respects (inv : σ → Prop) (R : Prop → List ι → Prop) (x : Traced σ ι ε α) : Prop :=
  ∀ s, inv s → inv (x s).state ∧ R ((x s).ending = .timeout) (x s).log

variable {inv : σ → Prop} {R : Prop → List ι → Prop}

theorem Respects.pure (hR : Composable R) (a : α) :
    Respects inv R (Pure.pure a : Traced σ ι ε α) := by
  intro s hs
  refine ⟨hs, ?_⟩
  have hend : ((Pure.pure a : Traced σ ι ε α) s).ending ≠ Ending.timeout := by
    intro h
    cases h
  rw [eq_false hend]
  exact hR.nil

theorem Respects.raise (hR : Composable R) (e : ε) :
    Respects inv R (Traced.raise e : Traced σ ι ε α) := by
  intro s hs
  refine ⟨hs, ?_⟩
  have hend : ((Traced.raise e : Traced σ ι ε α) s).ending ≠ Ending.timeout := by
    intro h
    cases h
  rw [eq_false hend]
  exact hR.nil

theorem Respects.require (hR : Composable R) (o : Option α) (e : ε) :
    Respects inv R (Traced.require o e : Traced σ ι ε α) := by
  cases o with
  | none => exact .raise hR e
  | some a => exact .pure hR a

theorem Respects.bind (hR : Composable R) {x : Traced σ ι ε α} {f : α → Traced σ ι ε β}
    (h : Respects inv R x) (hf : ∀ a, Respects inv R (f a)) : Respects inv R (x >>= f) := by
  intro s hs
  obtain ⟨hinv, hlog⟩ := h s hs
  cases hx : x s with
  | mk ending log s' =>
    rw [hx] at hinv hlog
    cases ending with
    | timeout =>
      rw [bind_timeout hx]
      refine ⟨hinv, ?_⟩
      simpa using hlog
    | raised e =>
      rw [bind_raised hx]
      refine ⟨hinv, ?_⟩
      simpa using hlog
    | value a =>
      rw [bind_value hx]
      obtain ⟨hinv', hlog'⟩ := hf a s' hinv
      refine ⟨hinv', hR.append _ _ _ ?_ hlog'⟩
      simpa using hlog

theorem Respects.traverse (hR : Composable R) {f : α → Traced σ ι ε β} (xs : List α)
    (h : ∀ a ∈ xs, Respects inv R (f a)) : Respects inv R (traverse f xs) := by
  induction xs with
  | nil => exact .pure hR []
  | cons x xs ih =>
    apply Respects.bind hR (h x List.mem_cons_self)
    intro b
    apply Respects.bind hR (ih fun a ha => h a (List.mem_cons_of_mem _ ha))
    exact fun bs => .pure hR _

/-- A state change of its own, without a log. -/
theorem Respects.step (hR : Composable R) {x : Traced σ ι ε α}
    (h : ∀ s, inv s → inv (x s).state ∧ (x s).ending ≠ .timeout ∧ (x s).log = []) :
    Respects inv R x := by
  intro s hs
  obtain ⟨hinv, hend, hlog⟩ := h s hs
  rw [hlog, eq_false hend]
  exact ⟨hinv, hR.nil⟩

end Traced

end StencilGraph.Framework

import Mathlib.Data.List.Nodup
import Mathlib.Logic.Function.Basic
import Mathlib.Order.Nat
import Mathlib.Tactic.Common

namespace StencilGraph.Framework

/-- What holds of the result of a computation that may fail. -/
def Outcome {α : Type} (mayFail : Prop) (r : Option α) (post : α → Prop) : Prop :=
  match r with
  | none => mayFail
  | some x => post x

theorem Outcome.bind {α β : Type} {mayFail : Prop} {r : Option α} {f : α → Option β}
    {mid : α → Prop} {post : β → Prop} (h : Outcome mayFail r mid)
    (hf : ∀ x, mid x → Outcome mayFail (f x) post) : Outcome mayFail (r.bind f) post := by
  cases r with
  | none => exact h
  | some x => exact hf x h

theorem Outcome.mono {α : Type} {mayFail : Prop} {r : Option α} {post post' : α → Prop}
    (h : Outcome mayFail r post) (hp : ∀ x, post x → post' x) : Outcome mayFail r post' := by
  cases r with
  | none => exact h
  | some x => exact hp x h

theorem Outcome.exists {α : Type} {r : Option α} {post : α → Prop} (h : Outcome False r post) :
    ∃ x, r = some x ∧ post x := by
  cases r with
  | none => exact h.elim
  | some x => exact ⟨x, rfl, h⟩

/-- A visitor with a memo table over objects that refer to earlier objects. -/
structure Visitor (σ : Type) where
  children : Nat → List Nat
  enter : Nat → σ → Option σ
  leave : Nat → σ → Option σ

namespace Visitor

variable {σ : Type} (v : Visitor σ)

/-- Objects in the memo table are skipped; an object is recorded after its visit. -/
def visit : Nat → Nat → List Nat × σ → Option (List Nat × σ)
  | 0, _, _ => none
  | fuel + 1, i, (memo, s) =>
    if i ∈ memo then some (memo, s)
    else
      (v.enter i s).bind fun s =>
      ((v.children i).foldlM (fun st c => visit fuel c st) (memo, s)).bind fun st =>
      (v.leave i st.2).bind fun s => some (i :: st.1, s)

def visitAll (fuel : Nat) (roots : List Nat) (st : List Nat × σ) : Option (List Nat × σ) :=
  roots.foldlM (fun st r => v.visit fuel r st) st

/-- An invariant of the open objects, the finished ones and the state. -/
structure Invariant (roots : List Nat) (mayFail : Prop) (inv : List Nat → List Nat → σ → Prop) :
    Prop where
  enter : ∀ i opened memo s, inv opened memo s → i ∉ memo → (∀ o ∈ opened, i < o) →
    (i ∈ roots ∨ ∃ o ∈ opened, i ∈ v.children o) →
    Outcome mayFail (v.enter i s) (inv (i :: opened) memo)
  leave : ∀ i opened memo s, inv (i :: opened) memo s → i ∉ memo → (∀ c ∈ v.children i, c ∈ memo) →
    Outcome mayFail (v.leave i s) (inv opened (i :: memo))

variable {v} {roots : List Nat} {mayFail : Prop} {inv : List Nat → List Nat → σ → Prop}

/-- The state after a visit below the open objects. -/
def Finished (inv : List Nat → List Nat → σ → Prop) (opened memo done : List Nat) (bound : Nat)
    (st : List Nat × σ) : Prop :=
  inv opened st.1 st.2 ∧ (∀ i ∈ done, i ∈ st.1) ∧ (∀ x ∈ memo, x ∈ st.1) ∧
    ∀ x ∈ st.1, x ∈ memo ∨ x < bound

theorem Finished.trans {opened memo done done' : List Nat} {bound : Nat} {st st' : List Nat × σ}
    (h : Finished inv opened memo done bound st) (h' : Finished inv opened st.1 done' bound st') :
    Finished inv opened memo (done ++ done') bound st' := by
  obtain ⟨-, hdone, hmemo, hnew⟩ := h
  obtain ⟨hinv', hdone', hmemo', hnew'⟩ := h'
  refine ⟨hinv', ?_, fun x hx => hmemo' x (hmemo x hx), ?_⟩
  · intro i hi
    rcases List.mem_append.mp hi with hi | hi
    · exact hmemo' i (hdone i hi)
    · exact hdone' i hi
  · intro x hx
    rcases hnew' x hx with h | h
    · exact hnew x h
    · exact Or.inr h

theorem foldlM_finished {f : List Nat × σ → Nat → Option (List Nat × σ)} {opened : List Nat}
    {bound : Nat} {is : List Nat}
    (hf : ∀ i ∈ is, ∀ memo s, inv opened memo s →
      Outcome mayFail (f (memo, s) i) (Finished inv opened memo [i] bound))
    (memo : List Nat) (s : σ) (h : inv opened memo s) :
    Outcome mayFail (is.foldlM f (memo, s)) (Finished inv opened memo is bound) := by
  induction is generalizing memo s with
  | nil => exact ⟨h, by simp, fun _ hx => hx, fun _ hx => Or.inl hx⟩
  | cons i is ih =>
    rw [List.foldlM_cons]
    refine (hf i (by simp) memo s h).bind ?_
    rintro ⟨memo₁, s₁⟩ h₁
    refine (ih (fun j hj => hf j (by simp [hj])) memo₁ s₁ h₁.1).mono ?_
    intro st₂ h₂
    exact h₁.trans h₂

/-- The rule for a whole visit. -/
theorem visit_finished (hlt : ∀ i, ∀ c ∈ v.children i, c < i)
    (hinv : v.Invariant roots mayFail inv) (fuel i : Nat) (opened memo : List Nat) (s : σ)
    (hfuel : i < fuel) (hopen : ∀ o ∈ opened, i < o)
    (hi : i ∈ roots ∨ ∃ o ∈ opened, i ∈ v.children o) (h : inv opened memo s) :
    Outcome mayFail (v.visit fuel i (memo, s)) (Finished inv opened memo [i] (i + 1)) := by
  induction fuel generalizing i opened memo s with
  | zero => omega
  | succ fuel ih =>
    unfold visit
    by_cases hm : i ∈ memo
    · rw [if_pos hm]
      exact ⟨h, by simpa using hm, fun _ hx => hx, fun _ hx => Or.inl hx⟩
    · rw [if_neg hm]
      refine (hinv.enter i opened memo s h hm hopen hi).bind ?_
      intro s₁ h₁
      have hchild : ∀ c ∈ v.children i, ∀ memo s, inv (i :: opened) memo s →
          Outcome mayFail (v.visit fuel c (memo, s))
            (Finished inv (i :: opened) memo [c] i) := by
        intro c hc memo s h
        have hci := hlt i c hc
        refine (ih c (i :: opened) memo s (by omega) ?_ (Or.inr ⟨i, by simp, hc⟩) h).mono ?_
        · intro o ho
          rcases List.mem_cons.mp ho with rfl | ho
          · exact hci
          · exact hci.trans (hopen o ho)
        · rintro st ⟨h1, h2, h3, h4⟩
          refine ⟨h1, h2, h3, fun x hx => ?_⟩
          rcases h4 x hx with hx | hx
          · exact Or.inl hx
          · exact Or.inr (by omega)
      refine (foldlM_finished hchild memo s₁ h₁).bind ?_
      rintro ⟨memo₂, s₂⟩ ⟨h₂, hdone₂, hmemo₂, hnew₂⟩
      have him : i ∉ memo₂ := by
        intro hmem
        rcases hnew₂ i hmem with hmem | hlt
        · exact hm hmem
        · omega
      refine (hinv.leave i opened memo₂ s₂ h₂ him hdone₂).bind ?_
      intro s₃ h₃
      refine ⟨h₃, by simp, fun x hx => by simp [hmemo₂ x hx], ?_⟩
      intro x hx
      rcases List.mem_cons.mp hx with rfl | hx
      · exact Or.inr (by omega)
      · rcases hnew₂ x hx with hx | hx
        · exact Or.inl hx
        · exact Or.inr (by omega)

/-- The rule for a list of roots. -/
theorem visitAll_finished (hlt : ∀ i, ∀ c ∈ v.children i, c < i)
    (hinv : v.Invariant roots mayFail inv) (fuel : Nat) (s : σ) (hfuel : ∀ r ∈ roots, r < fuel)
    (h : inv [] [] s) :
    Outcome mayFail (v.visitAll fuel roots ([], s)) (Finished inv [] [] roots fuel) := by
  refine foldlM_finished ?_ [] s h
  intro i hi memo s h
  refine (visit_finished hlt hinv fuel i [] memo s (hfuel i hi) (by simp) (Or.inl hi) h).mono ?_
  rintro st ⟨h1, h2, h3, h4⟩
  refine ⟨h1, h2, h3, fun x hx => ?_⟩
  have := hfuel i hi
  rcases h4 x hx with hx | hx
  · exact Or.inl hx
  · exact Or.inr (by omega)

/-- A list of the objects with a property, in the order in which they were entered. -/
structure Collected (children : Nat → List Nat) (p : Nat → Bool) (opened memo l : List Nat) :
    Prop where
  nodup : l.Nodup
  mem : ∀ x, x ∈ l ↔ p x ∧ (x ∈ opened ∨ x ∈ memo)
  closed : ∀ x ∈ memo, ∀ c ∈ children x, c ∈ memo

section Collected

variable {children : Nat → List Nat} {p : Nat → Bool} {opened memo l : List Nat} {i : Nat}

theorem Collected.enter (h : Collected children p opened memo l) (ho : i ∉ opened) (hm : i ∉ memo) :
    Collected children p (i :: opened) memo (if p i then l ++ [i] else l) := by
  have hnew : i ∉ l := by
    intro hl
    cases ((h.mem i).mp hl).2 with
    | inl hin => exact ho hin
    | inr hin => exact hm hin
  refine ⟨?_, fun x => ?_, h.closed⟩
  · split
    · exact List.Nodup.append h.nodup (List.nodup_singleton i) (by simpa using hnew)
    · exact h.nodup
  · have hold := h.mem x
    by_cases hx : x = i
    · subst hx
      split
      · rename_i hp
        simp [hp]
      · rename_i hp
        simp [hp, hnew]
    · split <;> simp [hx, hold]

theorem Collected.leave (h : Collected children p (i :: opened) memo l)
    (hc : ∀ c ∈ children i, c ∈ memo) : Collected children p opened (i :: memo) l := by
  refine ⟨h.nodup, fun x => ?_, fun x hx c hcx => ?_⟩
  · rw [h.mem x]
    simp only [List.mem_cons]
    tauto
  · apply List.mem_cons_of_mem
    cases List.mem_cons.mp hx with
    | inl heq => exact hc c (heq ▸ hcx)
    | inr hx => exact h.closed x hx c hcx

end Collected

theorem foldlM_congr {α β : Type} {f g : β → α → Option β} {xs : List α}
    (h : ∀ x ∈ xs, ∀ b, f b x = g b x) (b : β) : xs.foldlM f b = xs.foldlM g b := by
  induction xs generalizing b with
  | nil => rfl
  | cons x xs ih =>
    rw [List.foldlM_cons, List.foldlM_cons, h x (by simp)]
    congr 1
    funext b'
    exact ih (fun y hy => h y (by simp [hy])) b'

/-- Visitors that agree on all objects below the roots give the same result. -/
theorem visitAll_congr {w : Visitor σ} (reached : Nat → Prop) (hchildren : w.children = v.children)
    (hleave : w.leave = v.leave) (henter : ∀ i, reached i → ∀ s, w.enter i s = v.enter i s)
    (hclosed : ∀ i, reached i → ∀ c ∈ v.children i, reached c) (fuel : Nat)
    (hroots : ∀ r ∈ roots, reached r) (st : List Nat × σ) :
    w.visitAll fuel roots st = v.visitAll fuel roots st := by
  have key : ∀ fuel i st, reached i → w.visit fuel i st = v.visit fuel i st := by
    intro fuel
    induction fuel with
    | zero => intros; rfl
    | succ fuel ih =>
      rintro i ⟨memo, s⟩ hi
      unfold visit
      rw [henter i hi, hchildren, hleave]
      split
      · rfl
      · congr 1
        funext s
        rw [foldlM_congr fun c hc st => ih c st (hclosed i hi c hc)]
  exact foldlM_congr (fun r hr st => key fuel r st (hroots r hr)) st

end Visitor

end StencilGraph.Framework

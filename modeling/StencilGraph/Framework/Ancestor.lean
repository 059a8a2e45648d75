import StencilGraph.Framework.UnionFind

namespace StencilGraph.Framework

/-- `a` is `i` or lies above it in the forest. -/
def Ancestor (par : Parents) (a i : Nat) : Prop :=
  Relation.ReflTransGen (fun x y => par x = some y) i a

variable {n : Nat} {par : Parents}

theorem Ancestor.refl (i : Nat) : Ancestor par i i := Relation.ReflTransGen.refl

theorem Ancestor.trans {a b c : Nat} (hab : Ancestor par a b) (hbc : Ancestor par b c) :
    Ancestor par a c := Relation.ReflTransGen.trans hbc hab

theorem Ancestor.parent {i p : Nat} (h : par i = some p) : Ancestor par p i :=
  Relation.ReflTransGen.single h

theorem ancestor_step {a i p : Nat} (h : par i = some p) (ha : Ancestor par a i) (hne : a ≠ i) :
    Ancestor par a p := by
  rcases Relation.ReflTransGen.cases_head ha with heq | ⟨q, hq, hqa⟩
  · exact absurd heq.symm hne
  · have hqp : q = p := by rw [h, Option.some.injEq] at hq; exact hq.symm
    rw [← hqp]
    exact hqa

theorem ancestor_root {a i : Nat} (h : par i = none) (ha : Ancestor par a i) : a = i := by
  rcases Relation.ReflTransGen.cases_head ha with heq | ⟨q, hq, -⟩
  · exact heq.symm
  · simp [h] at hq

theorem Ancestor.le (hf : Forest n par) {a i : Nat} (h : Ancestor par a i) : i ≤ a := by
  induction h with
  | refl => exact le_rfl
  | tail _ hp ih => exact ih.trans (hf _ _ hp).1.le

theorem Ancestor.lt_size (hf : Forest n par) {a i : Nat} (h : Ancestor par a i) (hi : i < n) :
    a < n := by
  induction h with
  | refl => exact hi
  | tail _ hp _ => exact (hf _ _ hp).2

/-- Two nodes above one node are comparable. -/
theorem ancestor_total {a b i : Nat} (ha : Ancestor par a i) (hb : Ancestor par b i) :
    Ancestor par a b ∨ Ancestor par b a := by
  induction ha with
  | refl => exact Or.inr hb
  | @tail x y _ hp ih =>
    rcases ih with h | h
    · exact Or.inl ((Ancestor.parent hp).trans h)
    · by_cases hbx : b = x
      · subst hbx
        exact Or.inl (Ancestor.parent hp)
      · exact Or.inr (ancestor_step hp h hbx)

/-- Chains from `i` upwards only read the parents of nodes from `i` on. -/
theorem ancestor_congr {par' : Parents} (hf : Forest n par) {lo i a : Nat} (hlo : lo ≤ i)
    (h : ∀ x, lo ≤ x → par' x = par x) : Ancestor par' a i ↔ Ancestor par a i := by
  constructor
  · intro ha
    have key : Ancestor par a i ∧ lo ≤ a := by
      induction ha with
      | refl => exact ⟨Ancestor.refl _, hlo⟩
      | tail _ hp ih =>
        rw [h _ ih.2] at hp
        exact ⟨(Ancestor.parent hp).trans ih.1, ih.2.trans (hf _ _ hp).1.le⟩
    exact key.1
  · intro ha
    have key : Ancestor par' a i ∧ lo ≤ a := by
      induction ha with
      | refl => exact ⟨Ancestor.refl _, hlo⟩
      | tail _ hp ih =>
        have hp' := hp
        rw [← h _ ih.2] at hp'
        exact ⟨(Ancestor.parent hp').trans ih.1, ih.2.trans (hf _ _ hp).1.le⟩
    exact key.1

end StencilGraph.Framework

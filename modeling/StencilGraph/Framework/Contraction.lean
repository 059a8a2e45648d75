import Mathlib.Data.Finset.Card
import Mathlib.Logic.Relation

namespace StencilGraph.Framework
open Relation

/-- No path of `r` returns to where it began. -/
def Acyclic {α : Type} (r : α → α → Prop) : Prop := ∀ x, ¬ TransGen r x x

/-- Something lies on a path from `a` to `b`, between the two. -/
def Between {α : Type} (r : α → α → Prop) (a b : α) : Prop := ∃ k, TransGen r a k ∧ TransGen r k b

/-- The number of nodes before a node grows along the edges of a finite acyclic relation. -/
theorem Acyclic.exists_rank {α : Type} {r : α → α → Prop} (hacyclic : Acyclic r) (s : Finset α)
    (hs : ∀ x y, r x y → x ∈ s) : ∃ rank : α → Nat, ∀ x y, r x y → rank x < rank y := by
  classical
  refine ⟨fun y => (s.filter fun x => TransGen r x y).card, fun x y hxy => ?_⟩
  apply Finset.card_lt_card
  apply Finset.ssubset_iff_of_subset _ |>.mpr
  · refine ⟨x, Finset.mem_filter.mpr ⟨hs x y hxy, .single hxy⟩, fun hx => ?_⟩
    exact hacyclic x (Finset.mem_filter.mp hx).2
  · intro z hz
    obtain ⟨hzs, hzx⟩ := Finset.mem_filter.mp hz
    exact Finset.mem_filter.mpr ⟨hzs, hzx.tail hxy⟩

variable {α : Type} [DecidableEq α] {r : α → α → Prop} {a b u v w : α}

/-- The node that `x` becomes when `b` is merged into `a`. -/
def merge (a b x : α) : α := if x = b then a else x

/-- The edges of `r` after merging; edges inside the merged node disappear. -/
def contract (r : α → α → Prop) (a b u v : α) : Prop :=
  u ≠ v ∧ ∃ x y, r x y ∧ merge a b x = u ∧ merge a b y = v

theorem merge_eq_iff (hu : u ≠ a) (x : α) : merge a b x = u ↔ x = u ∧ u ≠ b := by
  unfold merge
  split
  · rename_i hx
    subst hx
    exact ⟨fun h => absurd h.symm hu, fun h => absurd h.1.symm h.2⟩
  · rename_i hx
    refine ⟨fun h => ⟨h, ?_⟩, And.left⟩
    rintro rfl
    exact hx h

theorem merge_eq_self (x : α) : merge a b x = a ↔ x = a ∨ x = b := by
  unfold merge
  split
  · rename_i hx
    simp [hx]
  · rename_i hx
    simp [hx]

/-- A path of `r` between the members of two merged nodes. -/
def Lifted (r : α → α → Prop) (a b u v : α) : Prop :=
  ∃ x y, TransGen r x y ∧ merge a b x = u ∧ merge a b y = v

/-- A path after merging is a path before it, or it goes through the merged node. -/
theorem lifted_of_path (h : TransGen (contract r a b) u v) :
    Lifted r a b u v ∨ Lifted r a b u a ∧ Lifted r a b a v := by
  have hedge {v w : α} (he : contract r a b v w) : Lifted r a b v w := by
    obtain ⟨-, x, y, hxy, hx, hy⟩ := he
    exact ⟨x, y, .single hxy, hx, hy⟩
  have hstep {u v w : α} (hv : v ≠ a) (hu : Lifted r a b u v) (he : contract r a b v w) :
      Lifted r a b u w := by
    obtain ⟨x, y, hxy, hx, hy⟩ := hu
    obtain ⟨-, y', z, hyz, hy', hz⟩ := he
    obtain ⟨rfl, -⟩ := (merge_eq_iff hv y).mp hy
    obtain ⟨rfl, -⟩ := (merge_eq_iff hv y').mp hy'
    exact ⟨x, z, hxy.tail hyz, hx, hz⟩
  induction h with
  | single he => exact Or.inl (hedge he)
  | @tail v w _ he ih =>
    by_cases hv : v = a
    · subst hv
      exact Or.inr ⟨ih.elim id And.left, hedge he⟩
    · exact ih.imp (hstep hv · he) fun ⟨h1, h2⟩ => ⟨h1, hstep hv h2 he⟩

/-- A path of `r` survives merging unless it stays inside the merged node. -/
theorem path_of_lifted {x y : α} (h : TransGen r x y) :
    ReflTransGen (contract r a b) (merge a b x) (merge a b y) := by
  have hedge {x y : α} (he : r x y) :
      ReflTransGen (contract r a b) (merge a b x) (merge a b y) := by
    by_cases heq : merge a b x = merge a b y
    · rw [heq]
    · exact .single ⟨heq, x, y, he, rfl, rfl⟩
  induction h with
  | single he => exact hedge he
  | tail _ he ih => exact ih.trans (hedge he)

/-- A cycle after merging passes through a node that was not merged. -/
theorem cycle_off_merged (h : TransGen (contract r a b) u u) :
    ∃ v, v ≠ a ∧ TransGen (contract r a b) v v := by
  by_cases hu : u = a
  · subst hu
    obtain ⟨v, hv, hrest⟩ := TransGen.head'_iff.mp h
    exact ⟨v, hv.1.symm, TransGen.tail' hrest hv⟩
  · exact ⟨u, hu, h⟩

/-- Merging two nodes of an acyclic relation keeps it acyclic exactly when nothing lies between
them. -/
theorem contract_acyclic_iff (hr : Acyclic r) (hab : a ≠ b) :
    Acyclic (contract r a b) ↔ ¬ Between r a b ∧ ¬ Between r b a := by
  constructor
  · intro hac
    have hno {x y : α} (hx : merge a b x = a) (hy : merge a b y = a) : ¬ Between r x y := by
      rintro ⟨k, hxk, hky⟩
      by_cases hk : merge a b k = a
      · -- `k` is one of the two: three members of the merged node on one path
        have hx' := (merge_eq_self x).mp hx
        have hy' := (merge_eq_self y).mp hy
        have hk' := (merge_eq_self k).mp hk
        rcases hx' with rfl | rfl <;> rcases hk' with rfl | rfl <;> rcases hy' with rfl | rfl <;>
          first
            | exact hr _ hxk
            | exact hr _ hky
            | exact hr _ (hxk.trans hky)
      · have h1 := path_of_lifted (a := a) (b := b) hxk
        have h2 := path_of_lifted (a := a) (b := b) hky
        rw [hx] at h1
        rw [hy] at h2
        rcases reflTransGen_iff_eq_or_transGen.mp h1 with heq | h1
        · exact hk heq
        · exact hac a (h1.trans_left h2)
    have ha : merge a b a = a := (merge_eq_self a).mpr (Or.inl rfl)
    have hb : merge a b b = a := (merge_eq_self b).mpr (Or.inr rfl)
    exact ⟨hno ha hb, hno hb ha⟩
  · rintro ⟨hnab, hnba⟩ u hcycle
    obtain ⟨v, hv, hcycle⟩ := cycle_off_merged hcycle
    have hself {x y : α} (hx : merge a b x = v) (hy : merge a b y = v) : x = y :=
      ((merge_eq_iff hv x).mp hx).1.trans ((merge_eq_iff hv y).mp hy).1.symm
    rcases lifted_of_path hcycle with ⟨x, y, hxy, hx, hy⟩ | ⟨⟨x, y, hxy, hx, hy⟩, z, w, hzw, hz, hw⟩
    · exact hr x (hself hx hy ▸ hxy)
    · obtain rfl := hself hx hw
      rcases (merge_eq_self y).mp hy with rfl | rfl <;>
        rcases (merge_eq_self z).mp hz with rfl | rfl
      · exact hr _ (hxy.trans hzw)
      · exact hnba ⟨_, hzw, hxy⟩
      · exact hnab ⟨_, hzw, hxy⟩
      · exact hr _ (hxy.trans hzw)

end StencilGraph.Framework

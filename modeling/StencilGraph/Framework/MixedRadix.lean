import Mathlib.Algebra.BigOperators.Group.List.Basic
import Mathlib.Algebra.Order.Ring.Int
import Mathlib.Tactic.Linarith
import Mathlib.Tactic.Ring

namespace StencilGraph.Framework

/-- The cell of a point in a box of the given sides; the first coordinate runs fastest. -/
def position : List Int → List Int → Int
  | side :: sides, i :: point => i + side * position sides point
  | _, _ => 0

def InBox (sides point : List Int) : Prop := List.Forall₂ (fun side i => 0 ≤ i ∧ i < side) sides point

variable {sides point point' : List Int} {p : Int}

theorem InBox.position_range (h : InBox sides point) :
    0 ≤ position sides point ∧ position sides point < sides.prod := by
  induction h with
  | nil => exact ⟨Int.le_refl 0, Int.one_pos⟩
  | @cons side i sides point hi _ ih =>
    rw [position, List.prod_cons]
    have hlow := mul_nonneg (hi.1.trans hi.2.le) ih.1
    have hhigh := mul_le_mul_of_nonneg_left (Int.add_one_le_of_lt ih.2) (hi.1.trans hi.2.le)
    rw [mul_add, mul_one] at hhigh
    omega

/-- The first coordinate is the remainder by the first side. -/
theorem position_mod {side i : Int} (h : 0 ≤ i ∧ i < side) (rest : Int) :
    (i + side * rest) % side = i ∧ (i + side * rest) / side = rest := by
  have hpos : side ≠ 0 := by omega
  rw [Int.add_mul_emod_self_left, Int.add_mul_ediv_left _ _ hpos, Int.emod_eq_of_lt h.1 h.2,
    Int.ediv_eq_zero_of_lt h.1 h.2, Int.zero_add]
  exact ⟨rfl, rfl⟩

theorem position_injective (h : InBox sides point) (h' : InBox sides point')
    (heq : position sides point = position sides point') : point = point' := by
  induction h generalizing point' with
  | nil =>
    cases h'
    rfl
  | @cons side i sides point hi _ ih =>
    cases h' with
    | @cons _ i' _ rest' hi' hrest' =>
      rw [position, position] at heq
      obtain ⟨hmod, hdiv⟩ := position_mod hi (position sides point)
      obtain ⟨hmod', hdiv'⟩ := position_mod hi' (position sides rest')
      rw [heq] at hmod hdiv
      rw [ih hrest' (hdiv.symm.trans hdiv'), ← hmod, hmod']

theorem exists_position (hsides : ∀ side ∈ sides, 0 ≤ side) (hp : 0 ≤ p) (hlt : p < sides.prod) :
    ∃ point, InBox sides point ∧ position sides point = p := by
  induction sides generalizing p with
  | nil =>
    rw [List.prod_nil] at hlt
    refine ⟨[], .nil, ?_⟩
    show 0 = p
    omega
  | cons side sides ih =>
    rw [List.prod_cons] at hlt
    have hside : 0 < side := by
      apply lt_of_le_of_ne (hsides side List.mem_cons_self)
      intro hzero
      rw [← hzero, zero_mul] at hlt
      omega
    obtain ⟨point, hbox, hpoint⟩ := ih (fun s hs => hsides s (List.mem_cons_of_mem _ hs))
      (Int.ediv_nonneg hp hside.le) (Int.ediv_lt_of_lt_mul hside (by rw [mul_comm]; exact hlt))
    refine ⟨p % side :: point, .cons ⟨Int.emod_nonneg p hside.ne', Int.emod_lt_of_pos p hside⟩ hbox, ?_⟩
    rw [position, hpoint]
    exact Int.emod_add_mul_ediv p side

end StencilGraph.Framework

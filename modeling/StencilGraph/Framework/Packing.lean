import Mathlib.Algebra.BigOperators.Group.Finset.Basic
import Mathlib.Algebra.BigOperators.Ring.Finset
import Mathlib.Algebra.Order.BigOperators.Group.Finset
import Mathlib.Data.Int.Interval
import Mathlib.Tactic.Common

namespace StencilGraph.Framework

variable {ι : Type*} {s : Finset ι} {start size : ι → Int} {bound : Int}

/-- Ranges of numbers within a bound that do not overlap. -/
structure Packed (s : Finset ι) (start size : ι → Int) (bound : Int) : Prop where
  nonneg : ∀ i ∈ s, 0 ≤ start i
  le : ∀ i ∈ s, start i + size i ≤ bound
  apart : ∀ i ∈ s, ∀ j ∈ s, i ≠ j → start i + size i ≤ start j ∨ start j + size j ≤ start i

/-- Ranges that do not overlap are together no longer than what holds them. -/
theorem Packed.sum_le (h : Packed s start size bound) (hbound : 0 ≤ bound)
    (hsize : ∀ i ∈ s, 0 ≤ size i) : ∑ i ∈ s, size i ≤ bound := by
  classical
  have hdisjoint : ∀ i ∈ s, ∀ j ∈ s, i ≠ j → Disjoint (Finset.Ico (start i) (start i + size i))
      (Finset.Ico (start j) (start j + size j)) := by
    intro i hi j hj hij
    rw [Finset.disjoint_left]
    intro k hk hk'
    rw [Finset.mem_Ico] at hk hk'
    have hapart := h.apart i hi j hj hij
    omega
  have hinside : s.biUnion (fun i => Finset.Ico (start i) (start i + size i)) ⊆
      Finset.Ico 0 bound := by
    apply Finset.biUnion_subset.mpr
    intro i hi
    exact Finset.Ico_subset_Ico (h.nonneg i hi) (h.le i hi)
  have hcard := Finset.card_le_card hinside
  rw [Finset.card_biUnion hdisjoint, Int.card_Ico] at hcard
  calc ∑ i ∈ s, size i
      = ∑ i ∈ s, ((Finset.Ico (start i) (start i + size i)).card : Int) := by
        apply Finset.sum_congr rfl
        intro i hi
        have hi := hsize i hi
        rw [Int.card_Ico]
        omega
    _ = ((∑ i ∈ s, (Finset.Ico (start i) (start i + size i)).card : Nat) : Int) := by
        rw [Nat.cast_sum]
    _ ≤ bound := by omega

end StencilGraph.Framework

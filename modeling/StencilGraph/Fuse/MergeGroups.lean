import Mathlib.Data.Finset.Card
import Mathlib.Data.Finset.Range
import StencilGraph.Fuse.PathSearch

namespace StencilGraph.Fuse.GraphPartitioner
open Framework

/-- `anchor_ref` is set only in groups of pattern `kOutEWiseFusable`. -/
def Anchored (gs : Groups) : Prop :=
  ∀ i, gs.anchorRef i ≠ none → gs.pattern i = .outEWiseFusable

/-- The nodes below `n` whose group has the root `r`. -/
def groupNodes (n : Nat) (par : Parents) (r : Nat) : Finset Nat :=
  (Finset.range n).filter fun j => rootOf n par j = r

/-- `num_nodes` counts the group of a root. -/
structure Counted (n : Nat) (gs : Groups) : Prop where
  root : ∀ r, r < n → gs.parent r = none → gs.numNodes r = (groupNodes n gs.parent r).card
  le : ∀ i, i < n → gs.numNodes i ≤ n

/-- No count of at most `n * n` overflows. -/
def Fits (d : Dialect) (n : Nat) : Prop := ∀ x, x ≤ n * n → d.wrap x = x

variable {n : Nat} {gs gs' : Groups} {d : Dialect}

theorem Compressed.anchored (h : Compressed n gs gs') (ha : Anchored gs) : Anchored gs' := by
  intro i hi
  rw [h.anchorRef] at hi
  rw [h.pattern]
  exact ha i hi

theorem Compressed.counted (h : Compressed n gs gs') (hf : Forest n gs.parent)
    (hc : Counted n gs) : Counted n gs' := by
  constructor
  · intro r hr hroot
    rw [h.numNodes, hc.root r hr ((h.roots.none_iff hf r).mp hroot)]
    unfold groupNodes
    simp only [h.root]
  · intro i hi
    rw [h.numNodes]
    exact hc.le i hi

/-- The group of the root `c` has moved below the root `t`. -/
structure Linked (n c t : Nat) (gs gs' : Groups) : Prop where
  forest : Forest n gs'.parent
  roots : ∀ j, rootOf n gs'.parent j = if rootOf n gs.parent j = c then t else rootOf n gs.parent j
  pattern : ∀ j, j ≠ t → gs'.pattern j = gs.pattern j
  anchorRef : ∀ j, j ≠ t → gs'.anchorRef j = gs.anchorRef j
  rootRef : gs'.rootRef = gs.rootRef
  anchored : Anchored gs'

theorem groupNodes_link {c t : Nat} (hct : c ≠ t) {par par' : Parents}
    (hroots : ∀ j, rootOf n par' j = if rootOf n par j = c then t else rootOf n par j) (r : Nat) :
    (groupNodes n par' r).card =
      if r = t then (groupNodes n par t).card + (groupNodes n par c).card
      else if r = c then 0 else (groupNodes n par r).card := by
  by_cases hr : r = t
  · have hunion : groupNodes n par' r = groupNodes n par t ∪ groupNodes n par c := by
      ext j
      simp only [groupNodes, hroots, Finset.mem_filter, Finset.mem_union, Finset.mem_range]
      grind
    have hdisj : Disjoint (groupNodes n par t) (groupNodes n par c) := by
      rw [Finset.disjoint_left]
      intro j hj hj'
      simp only [groupNodes, Finset.mem_filter] at hj hj'
      exact hct (hj'.2.symm.trans hj.2)
    rw [if_pos hr, hunion, Finset.card_union_of_disjoint hdisj]
  · rw [if_neg hr]
    by_cases hc : r = c
    · rw [if_pos hc, Finset.card_eq_zero]
      ext j
      simp only [groupNodes, hroots, Finset.mem_filter, Finset.notMem_empty]
      grind
    · rw [if_neg hc]
      congr 1
      ext j
      simp only [groupNodes, hroots, Finset.mem_filter]
      grind

theorem card_groupNodes_add_le {c t : Nat} (hct : c ≠ t) (par : Parents) :
    (groupNodes n par t).card + (groupNodes n par c).card ≤ n := by
  have hdisj : Disjoint (groupNodes n par t) (groupNodes n par c) := by
    rw [Finset.disjoint_left]
    intro j hj hj'
    simp only [groupNodes, Finset.mem_filter] at hj hj'
    exact hct (hj'.2.symm.trans hj.2)
  rw [← Finset.card_union_of_disjoint hdisj]
  calc _ ≤ (Finset.range n).card := Finset.card_le_card (by
        intro j hj
        simp only [groupNodes, Finset.mem_union, Finset.mem_filter] at hj
        rcases hj with hj | hj <;> exact hj.1)
    _ = n := Finset.card_range n

theorem combinePattern_anchor (d : Dialect) {p : OpPattern} (hp : p ≤ .broadcast) :
    combinePattern d .outEWiseFusable p = some .outEWiseFusable := by
  cases p
  case elemWise => cases hd : d.fatal <;> simp [combinePattern, hd] <;> decide
  case broadcast => cases hd : d.fatal <;> simp [combinePattern, hd] <;> decide
  all_goals exact absurd hp (by decide)

/-- `MergeFromTo` moves the group of `child` below the root of `parent`; when no count overflows both
implementations do the same. -/
theorem mergeFromTo_spec (hf : Forest n gs.parent) (ha : Anchored gs) (d : Dialect)
    (child parent : Nat)
    (hlt : rootOf n gs.parent child ≠ rootOf n gs.parent parent →
      rootOf n gs.parent child < rootOf n gs.parent parent ∧ rootOf n gs.parent parent < n)
    (hanchor : rootOf n gs.parent child ≠ rootOf n gs.parent parent →
      gs.anchorRef (rootOf n gs.parent child) ≠ none →
      gs.anchorRef (rootOf n gs.parent parent) = none ∧
        gs.pattern (rootOf n gs.parent parent) ≤ .broadcast) :
    ∃ gs', mergeFromTo d n child parent gs = some gs' ∧
      Linked n (rootOf n gs.parent child) (rootOf n gs.parent parent) gs gs' ∧
      (Fits d n → Counted n gs →
        Counted n gs' ∧ mergeFromTo .python n child parent gs = some gs') := by
  obtain ⟨hc, hcomp⟩ := groupRoot_spec hf child
  obtain ⟨⟨c, gs₁⟩, hr₁⟩ : ∃ x, x = groupRoot n child gs := ⟨_, rfl⟩
  rw [← hr₁] at hc hcomp
  simp only at hc hcomp
  obtain ⟨ht, hcomp'⟩ := groupRoot_spec hcomp.forest parent
  obtain ⟨⟨t, gs₂⟩, hr₂⟩ : ∃ x, x = groupRoot n parent gs₁ := ⟨_, rfl⟩
  rw [← hr₂] at ht hcomp'
  simp only at ht hcomp'
  rw [hcomp.root] at ht
  have hcs := hcomp.trans hcomp'
  rw [← hc, ← ht] at hlt hanchor ⊢
  unfold mergeFromTo
  simp only [← hr₁, ← hr₂]
  by_cases hct : c = t
  · refine ⟨gs₂, by simp [hct], ⟨hcs.forest, ?_, ?_, ?_, hcs.rootRef, hcs.anchored ha⟩, ?_⟩
    · intro j
      rw [hcs.root, hct]
      split <;> simp_all
    · intro j _
      rw [hcs.pattern]
    · intro j _
      rw [hcs.anchorRef]
    · intro _ hcount
      exact ⟨hcs.counted hf hcount, by simp [hct]⟩
  · obtain ⟨hlt, htn⟩ := hlt hct
    have hpc : gs₂.parent c = none := by
      rw [par_eq_none_iff hcs.forest, hcs.root, hc]
      exact rootOf_idem hf child
    have hpt : gs₂.parent t = none := by
      rw [par_eq_none_iff hcs.forest, hcs.root, ht]
      exact rootOf_idem hf parent
    obtain ⟨hf', hroots⟩ := rootOf_link hcs.forest hpc hpt hlt htn
    have hroots' (j : Nat) : rootOf n (Function.update gs₂.parent c (some t)) j =
        if rootOf n gs.parent j = c then t else rootOf n gs.parent j := by
      rw [hroots j, hcs.root]
    -- the counts, for any value of the other fields
    have hcounts (hfits : Fits d n) (hcount : Counted n gs) (pat : Nat → OpPattern)
        (anc : Nat → Option Ref) : d.wrap (gs₂.numNodes t + gs₂.numNodes c) =
          gs₂.numNodes t + gs₂.numNodes c ∧
        Counted n ⟨Function.update gs₂.parent c (some t), pat, gs₂.rootRef, anc,
          Function.update gs₂.numNodes t (gs₂.numNodes t + gs₂.numNodes c)⟩ := by
      have hcount₂ := hcs.counted hf hcount
      have hsum : gs₂.numNodes t + gs₂.numNodes c ≤ n := by
        rw [hcount₂.root t htn hpt, hcount₂.root c (hlt.trans htn) hpc]
        exact card_groupNodes_add_le hct gs₂.parent
      refine ⟨hfits _ (hsum.trans (Nat.le_mul_self n)), ?_, ?_⟩
      · intro r hr hrn
        have hrc : r ≠ c := by
          rintro rfl
          simp at hrn
        simp only at hrn ⊢
        rw [Function.update_of_ne hrc] at hrn
        rw [groupNodes_link hct hroots r]
        by_cases hrt : r = t
        · subst hrt
          rw [Function.update_self, if_pos rfl, hcount₂.root r htn hpt,
            hcount₂.root c (hlt.trans htn) hpc]
        · rw [Function.update_of_ne hrt, if_neg hrt, if_neg hrc]
          exact hcount₂.root r hr hrn
      · intro i hi
        by_cases hit : i = t
        · subst hit
          simpa using hsum
        · simp only [Function.update_of_ne hit]
          exact hcount₂.le i hi
    cases hanc : gs₂.anchorRef c with
    | none =>
      refine ⟨⟨Function.update gs₂.parent c (some t), gs₂.pattern, gs₂.rootRef, gs₂.anchorRef,
        Function.update gs₂.numNodes t (d.wrap (gs₂.numNodes t + gs₂.numNodes c))⟩,
        by simp [hct], ⟨hf', hroots', ?_, ?_, hcs.rootRef, hcs.anchored ha⟩, ?_⟩
      · intro j _
        exact congrFun hcs.pattern j
      · intro j _
        exact congrFun hcs.anchorRef j
      · intro hfits hcount
        obtain ⟨hwrap, hcount'⟩ := hcounts hfits hcount gs₂.pattern gs₂.anchorRef
        rw [hwrap]
        exact ⟨hcount', by simp [hct, Dialect.python]⟩
    | some ref =>
      have hsome : gs.anchorRef c ≠ none := by rw [← hcs.anchorRef, hanc]; simp
      obtain ⟨htnone, htpat⟩ := hanchor hct hsome
      have hcpat : gs₂.pattern c = .outEWiseFusable := hcs.anchored ha c (by simp [hanc])
      rw [← hcs.anchorRef] at htnone
      rw [← hcs.pattern] at htpat
      refine ⟨⟨Function.update gs₂.parent c (some t),
        Function.update gs₂.pattern t .outEWiseFusable, gs₂.rootRef,
        Function.update gs₂.anchorRef t (some ref),
        Function.update gs₂.numNodes t (d.wrap (gs₂.numNodes t + gs₂.numNodes c))⟩,
        by simp [hct, htnone, hcpat, combinePattern_anchor d htpat],
        ⟨hf', hroots', ?_, ?_, hcs.rootRef, ?_⟩, ?_⟩
      · intro j hj
        simp only [Function.update_of_ne hj]
        exact congrFun hcs.pattern j
      · intro j hj
        simp only [Function.update_of_ne hj]
        exact congrFun hcs.anchorRef j
      · intro i hi
        by_cases hit : i = t
        · subst hit
          simp
        · simp only [Function.update_of_ne hit] at hi ⊢
          exact hcs.anchored ha i hi
      · intro hfits hcount
        obtain ⟨hwrap, hcount'⟩ := hcounts hfits hcount
          (Function.update gs₂.pattern t .outEWiseFusable)
          (Function.update gs₂.anchorRef t (some ref))
        rw [hwrap]
        refine ⟨hcount', ?_⟩
        simp [hct, htnone, hcpat, combinePattern_anchor .python htpat]
        rfl

end StencilGraph.Fuse.GraphPartitioner

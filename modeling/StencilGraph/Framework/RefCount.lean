import Mathlib

namespace StencilGraph.Framework.RefCount

/-- A value that was put into a block, and when. -/
structure Entry (V B T : Type*) where
  value : V
  block : B
  time : T

variable {V B T : Type*} [DecidableEq B]

/-- What is left of the references to the values in a block. -/
def left (refs used : V → Nat) (placed : List (Entry V B T)) (b : B) : Nat :=
  ((placed.filter (·.block = b)).map fun x => refs x.value - used x.value).sum

/-- The counters of the blocks agree with the references that are left. A value that joins a block
later finds the unrelated ones there without references. The newest entry comes first. -/
structure Accounted (refs : V → Nat) (usedAt : T → V → Nat) (R : V → V → Prop)
    (placed : List (Entry V B T)) (used : V → Nat) (count : B → Int) : Prop where
  nodup : (placed.map Entry.value).Nodup
  used_le : ∀ v, used v ≤ refs v
  grown : ∀ x ∈ placed, ∀ v, usedAt x.time v ≤ used v
  count : ∀ x ∈ placed, count x.block = left refs used placed x.block
  apart : placed.Pairwise fun new old => new.block = old.block →
    R new.value old.value ∨ refs old.value ≤ usedAt new.time old.value

variable {refs used : V → Nat} {usedAt : T → V → Nat} {R : V → V → Prop}
  {placed : List (Entry V B T)} {count count' : B → Int} {v : V} {b : B} {t : T} {x : Entry V B T}

theorem left_cons : left refs used (x :: placed) b =
    (if x.block = b then refs x.value - used x.value else 0) + left refs used placed b := by
  by_cases hb : x.block = b <;> simp [left, hb]

theorem left_eq_zero_iff : left refs used placed b = 0 ↔
    ∀ x ∈ placed, x.block = b → refs x.value ≤ used x.value := by
  induction placed with
  | nil => simp [left]
  | cons y placed ih =>
    rw [left_cons, Nat.add_eq_zero_iff, ih, List.forall_mem_cons]
    apply and_congr_left
    intro _
    split <;> simp_all [Nat.sub_eq_zero_iff_le]

theorem left_pos (hx : x ∈ placed) (hlt : used x.value < refs x.value) :
    0 < left refs used placed x.block := by
  apply Nat.pos_of_ne_zero
  rw [Ne, left_eq_zero_iff]
  intro hall
  exact absurd (hall x hx rfl) (Nat.not_le_of_lt hlt)

/-- A use of a value is one less of the references to its block. -/
theorem left_use [DecidableEq V] (hnodup : (placed.map Entry.value).Nodup) (hx : x ∈ placed)
    (hlt : used x.value < refs x.value) (b : B) :
    left refs used placed b = left refs (Function.update used x.value (used x.value + 1)) placed b +
      if x.block = b then 1 else 0 := by
  induction placed with
  | nil => cases hx
  | cons y placed ih =>
    obtain ⟨hy, hnodup⟩ := List.nodup_cons.mp hnodup
    have hsame {z : Entry V B T} (hz : z.value ≠ x.value) :
        Function.update used x.value (used x.value + 1) z.value = used z.value :=
      Function.update_of_ne hz _ _
    rw [left_cons, left_cons]
    cases List.mem_cons.mp hx with
    | inl heq =>
      have hrest : left refs (Function.update used x.value (used x.value + 1)) placed b =
          left refs used placed b := by
        unfold left
        congr 1
        apply List.map_congr_left
        intro z hz
        rw [hsame]
        intro hzx
        exact hy (heq ▸ hzx ▸ List.mem_map_of_mem (List.mem_filter.mp hz).1)
      rw [← heq, Function.update_self, hrest]
      split <;> omega
    | inr hx =>
      have hne : y.value ≠ x.value := fun heq => hy (heq ▸ List.mem_map_of_mem hx)
      rw [hsame hne, ih hnodup hx]
      omega

namespace Accounted

/-- A value takes a block that is new, or whose counter is zero. -/
theorem take (h : Accounted refs usedAt R placed used count) (hv : v ∉ placed.map Entry.value)
    (hused : used v = 0) (htime : usedAt t = used) (hfree : count b = 0 ∨ ∀ x ∈ placed, x.block ≠ b)
    (hcount : count' b = refs v) (hother : ∀ x ∈ placed, x.block ≠ b → count' x.block = count x.block) :
    Accounted refs usedAt R (⟨v, b, t⟩ :: placed) used count' := by
  have hold : ∀ x ∈ placed, x.block = b → refs x.value ≤ used x.value := by
    intro x hx hxb
    cases hfree with
    | inl hzero =>
      have hleft := h.count x hx
      rw [hxb, hzero] at hleft
      exact left_eq_zero_iff.mp (Int.ofNat_eq_zero.mp hleft.symm) x hx hxb
    | inr hnew => exact absurd hxb (hnew x hx)
  have hb : count' b = left refs used (⟨v, b, t⟩ :: placed) b := by
    rw [left_cons, left_eq_zero_iff.mpr hold, hused, hcount]
    simp
  refine ⟨List.nodup_cons.mpr ⟨hv, h.nodup⟩, h.used_le, fun x hx w => ?_, fun x hx => ?_,
    List.pairwise_cons.mpr ⟨fun x hx hxb => ?_, h.apart⟩⟩
  · cases List.mem_cons.mp hx with
    | inl heq => rw [heq, htime]
    | inr hx => exact h.grown x hx w
  · cases List.mem_cons.mp hx with
    | inl heq =>
      rw [heq]
      exact hb
    | inr hx =>
      by_cases hxb : x.block = b
      · rw [hxb]
        exact hb
      · have hbx : b ≠ x.block := fun heq => hxb heq.symm
        rw [left_cons, if_neg hbx, Nat.zero_add, hother x hx hxb, h.count x hx]
  · right
    rw [htime]
    exact hold x hx hxb.symm

/-- Of two unrelated values in a block one has no references left. -/
theorem related_or_dead (h : Accounted refs usedAt R placed used count) (hR : Equivalence R)
    {y : Entry V B T} (hx : x ∈ placed) (hy : y ∈ placed) (hne : x ≠ y) (hxy : y.block = x.block) :
    R x.value y.value ∨ refs x.value ≤ used x.value ∨ refs y.value ≤ used y.value := by
  let Clear (x y : Entry V B T) : Prop := y.block = x.block →
    R x.value y.value ∨ refs x.value ≤ used x.value ∨ refs y.value ≤ used y.value
  have hpairs : placed.Pairwise Clear := by
    apply h.apart.imp_of_mem
    intro new old hnew _ hapart hsame
    cases hapart hsame.symm with
    | inl hrel => exact Or.inl hrel
    | inr hdead => exact Or.inr (Or.inr (hdead.trans (h.grown new hnew _)))
  have hsymm : Std.Symm Clear := by
    refine ⟨fun x y hpair hxy => ?_⟩
    rcases hpair hxy.symm with hrel | hdead | hdead
    · exact Or.inl (hR.symm hrel)
    · exact Or.inr (Or.inr hdead)
    · exact Or.inr (Or.inl hdead)
  exact hpairs.forall hx hy hne hxy

/-- A value shares the block of a related one that still has a reference. -/
theorem share (h : Accounted refs usedAt R placed used count) (hR : Equivalence R)
    (hv : v ∉ placed.map Entry.value) (hused : used v = 0) (htime : usedAt t = used)
    (hx : x ∈ placed) (hlt : used x.value < refs x.value) (hvx : R v x.value)
    (hcount : count' x.block = count x.block + refs v)
    (hother : ∀ y ∈ placed, y.block ≠ x.block → count' y.block = count y.block) :
    Accounted refs usedAt R (⟨v, x.block, t⟩ :: placed) used count' := by
  have hb : count' x.block = left refs used (⟨v, x.block, t⟩ :: placed) x.block := by
    rw [left_cons, if_pos rfl, hused, hcount, h.count x hx]
    push_cast
    omega
  refine ⟨List.nodup_cons.mpr ⟨hv, h.nodup⟩, h.used_le, fun y hy w => ?_, fun y hy => ?_,
    List.pairwise_cons.mpr ⟨fun y hy hyb => ?_, h.apart⟩⟩
  · cases List.mem_cons.mp hy with
    | inl heq => rw [heq, htime]
    | inr hy => exact h.grown y hy w
  · cases List.mem_cons.mp hy with
    | inl heq =>
      rw [heq]
      exact hb
    | inr hy =>
      by_cases hyb : y.block = x.block
      · rw [hyb]
        exact hb
      · have hxy : x.block ≠ y.block := fun heq => hyb heq.symm
        rw [left_cons, if_neg hxy, Nat.zero_add, hother y hy hyb, h.count y hy]
  · by_cases hyx : y.value = x.value
    · left
      rw [hyx]
      exact hvx
    · rw [htime]
      have hne : x ≠ y := fun heq => hyx (heq ▸ rfl)
      rcases h.related_or_dead hR hx hy hne hyb.symm with hxy | hdead | hdead
      · exact Or.inl (hR.trans hvx hxy)
      · exact absurd hdead (Nat.not_le_of_lt hlt)
      · exact Or.inr hdead

/-- A value is used. -/
theorem use [DecidableEq V] (h : Accounted refs usedAt R placed used count) (hx : x ∈ placed)
    (hlt : used x.value < refs x.value) (hcount : count' x.block = count x.block - 1)
    (hother : ∀ y ∈ placed, y.block ≠ x.block → count' y.block = count y.block) :
    Accounted refs usedAt R placed (Function.update used x.value (used x.value + 1)) count' := by
  refine ⟨h.nodup, fun v => ?_, fun y hy v => ?_, fun y hy => ?_, h.apart⟩
  · by_cases hv : v = x.value
    · rw [hv, Function.update_self]
      exact hlt
    · rw [Function.update_of_ne hv]
      exact h.used_le v
  · by_cases hv : v = x.value
    · rw [hv, Function.update_self]
      exact Nat.le_succ_of_le (h.grown y hy x.value)
    · rw [Function.update_of_ne hv]
      exact h.grown y hy v
  · have hleft := left_use h.nodup hx hlt y.block
    by_cases hyb : y.block = x.block
    · rw [if_pos hyb.symm] at hleft
      rw [hyb, hcount, ← hyb, h.count y hy, hleft]
      push_cast
      omega
    · have hxy : x.block ≠ y.block := fun heq => hyb heq.symm
      rw [if_neg hxy, Nat.add_zero] at hleft
      rw [hother y hy hyb, h.count y hy, hleft]

/-- A block with a value that is still to be used has a positive counter. -/
theorem count_pos (h : Accounted refs usedAt R placed used count) (hx : x ∈ placed)
    (hlt : used x.value < refs x.value) : 0 < count x.block := by
  rw [h.count x hx]
  exact Int.ofNat_lt.mpr (left_pos hx hlt)

theorem count_nonneg (h : Accounted refs usedAt R placed used count) (hx : x ∈ placed) :
    0 ≤ count x.block := by
  rw [h.count x hx]
  exact Int.natCast_nonneg _

end Accounted

end StencilGraph.Framework.RefCount

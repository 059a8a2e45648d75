import StencilGraph.Framework.Contraction
import StencilGraph.Relay.CastParam
import StencilGraph.Relay.NodeAutoFusion

namespace StencilGraph.Relay
open Framework Relation

variable {h : Heap} {ps : List Nat} {b x y d : Nat}

/-- The calls of `main` itself, not those inside fused functions. -/
def TopCall (h : Heap) (b x : Nat) : Prop := IsCall h x ∧ Reach h b x

theorem isCall_iff : BuildGraph.isCall h x = true ↔ IsCall h x := by
  unfold BuildGraph.isCall IsCall
  constructor
  · intro hc
    split at hc
    · exact ⟨_, _, ‹_›⟩
    · simp at hc
  · rintro ⟨c, args, hx⟩
    simp [hx]

/-- An argument of a call of `main`: a variable, a call or a projection of a call. -/
theorem arg_cases (hm : Main h ps b) (hx : Reach h b x) (hc : IsCall h x)
    (hy : y ∈ GroupOp.callArgs h x) :
    IsVar h y ∨ IsCall h y ∨ ∃ t k, h[y]? = some (.tupleGetItem t k) ∧ IsCall h t := by
  obtain ⟨callee, args, hget⟩ := hc
  rw [callArgs_call hget] at hy
  obtain ⟨ht, hty⟩ := ((hm.typed hx).call hget).2 y hy
  cases ht with
  | var _ name hy => exact Or.inl ⟨name, hy⟩
  | op _ name outputs args hy => exact Or.inr (Or.inl ⟨_, _, hy⟩)
  | func _ f args hy => exact Or.inr (Or.inl ⟨_, _, hy⟩)
  | tuple _ fields hy => simp [typeOf_tuple hy] at hty
  | item _ t k n hy hi => exact Or.inr (Or.inr ⟨t, k, hy, hi⟩)

/-- What a call uses is a call of `main` constructed before it. -/
theorem Uses.topCall (hm : Main h ps b) (hx : TopCall h b x) (hu : Uses h d x) (hd : IsCall h d) :
    TopCall h b d ∧ d < x := by
  obtain ⟨⟨callee, args, hget⟩, hreach⟩ := hx
  obtain ⟨y, hy, hcase⟩ := hu
  rw [callArgs_call hget] at hy
  have hyx : Reach h b y := hreach.tail ⟨_, hget, hy⟩
  have hlt := wf_arg hm.wf hget hy
  rcases hcase with rfl | ⟨k, hk⟩
  · exact ⟨⟨hd, hyx⟩, hlt⟩
  · have := wf_item hm.wf hk
    exact ⟨⟨hd, hyx.tail ⟨_, hk, by simp [Node.deps]⟩⟩, by omega⟩

theorem source_iff (hm : Main h ps b) (hx : TopCall h b x) (hy : y ∈ GroupOp.callArgs h x) :
    NodeAutoFusion.source h y = some d ↔
      IsCall h d ∧ (y = d ∨ ∃ k, h[y]? = some (.tupleGetItem d k)) := by
  unfold NodeAutoFusion.source
  rcases arg_cases hm hx.2 hx.1 hy with ⟨name, hv⟩ | ⟨c, args, hc⟩ | ⟨t, k, hi, ht⟩
  · simp only [hv, reduceCtorEq, false_iff, not_and, not_or]
    rintro ⟨c, args, hc⟩
    refine ⟨?_, by simp⟩
    rintro rfl
    simp [hv] at hc
  · simp only [hc, Option.some.injEq, reduceCtorEq, exists_const, or_false]
    exact ⟨fun heq => ⟨heq ▸ ⟨c, args, hc⟩, heq⟩, And.right⟩
  · simp only [hi, Option.some.injEq, Node.tupleGetItem.injEq, exists_and_left, exists_eq', and_true]
    constructor
    · rintro rfl
      exact ⟨ht, Or.inr rfl⟩
    · rintro ⟨⟨c, args, hc⟩, rfl | rfl⟩
      · simp [hi] at hc
      · rfl

theorem mem_inputs (hm : Main h ps b) (hx : TopCall h b x) :
    d ∈ NodeAutoFusion.inputs h x ↔ IsCall h d ∧ Uses h d x := by
  unfold NodeAutoFusion.inputs
  rw [List.mem_dedup, List.mem_filterMap]
  constructor
  · rintro ⟨y, hy, hs⟩
    obtain ⟨hd, hcase⟩ := (source_iff hm hx hy).mp hs
    exact ⟨hd, y, hy, hcase⟩
  · rintro ⟨hd, y, hy, hcase⟩
    exact ⟨y, hy, (source_iff hm hx hy).mpr ⟨hd, hcase⟩⟩

/-- The dependences between the calls of `main`. -/
def Dep (h : Heap) (b d x : Nat) : Prop := TopCall h b d ∧ TopCall h b x ∧ Uses h d x

theorem Dep.lt (hm : Main h ps b) (hd : Dep h b d x) : d < x :=
  (hd.2.2.topCall hm hd.2.1 hd.1.1).2

theorem dep_acyclic (hm : Main h ps b) : Acyclic (Dep h b) := by
  have hlt {x y : Nat} (hp : TransGen (Dep h b) x y) : x < y := by
    induction hp with
    | single he => exact he.lt hm
    | tail _ he ih => exact ih.trans (he.lt hm)
  intro x hx
  exact absurd (hlt hx) (lt_irrefl x)

theorem mem_inputs_iff (hm : Main h ps b) (hx : TopCall h b x) :
    d ∈ NodeAutoFusion.inputs h x ↔ Dep h b d x := by
  rw [mem_inputs hm hx]
  exact ⟨fun ⟨hd, hu⟩ => ⟨(hu.topCall hm hx hd).1, hx, hu⟩, fun hd => ⟨hd.1.1, hd.2.2⟩⟩

/-- A call that is reached from another one is reached along dependences. -/
theorem dep_path_of_reach (hm : Main h ps b) (hx : TopCall h b x) (hr : Reach h x y)
    (hy : IsCall h y) : x = y ∨ TransGen (Dep h b) y x := by
  induction x using Nat.strong_induction_on with
  | _ x ih =>
    obtain ⟨⟨callee, args, hget⟩, hbx⟩ := hx
    rcases hr.cases_head with rfl | ⟨z, ⟨n, hn, hz⟩, hzy⟩
    · exact Or.inl rfl
    · obtain rfl := Option.some.inj (hget.symm.trans hn)
      have hzargs : z ∈ GroupOp.callArgs h x := by rw [callArgs_call hget]; exact hz
      have hbz : Reach h b z := hbx.tail ⟨_, hget, hz⟩
      have hstep {w : Nat} (hw : IsCall h w) (hu : Uses h w x) (hwy : Reach h w y) :
          TransGen (Dep h b) y x := by
        obtain ⟨htop, hlt⟩ := hu.topCall hm ⟨⟨callee, args, hget⟩, hbx⟩ hw
        have hdep : Dep h b w x := ⟨htop, ⟨⟨callee, args, hget⟩, hbx⟩, hu⟩
        rcases ih w hlt htop hwy with rfl | hp
        · exact .single hdep
        · exact hp.tail hdep
      rcases arg_cases hm hbx ⟨callee, args, hget⟩ hzargs with ⟨name, hv⟩ | hcz | ⟨t, k, hi, ht⟩
      · rcases (show Reach h z y from hzy).cases_head with rfl | ⟨w, ⟨m, hm', hw⟩, -⟩
        · obtain ⟨c, args, hc⟩ := hy
          simp [hv] at hc
        · obtain rfl := Option.some.inj (hv.symm.trans hm')
          simp [Node.deps] at hw
      · exact Or.inr (hstep hcz ⟨z, hzargs, Or.inl rfl⟩ hzy)
      · rcases (show Reach h z y from hzy).cases_head with rfl | ⟨w, ⟨m, hm', hw⟩, hwy⟩
        · obtain ⟨c, args, hc⟩ := hy
          simp [hi] at hc
        · obtain rfl := Option.some.inj (hi.symm.trans hm')
          obtain rfl : w = t := by simpa [Node.deps] using hw
          exact Or.inr (hstep ht ⟨z, hzargs, Or.inr ⟨k, hi⟩⟩ hwy)

end StencilGraph.Relay

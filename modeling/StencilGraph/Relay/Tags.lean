import StencilGraph.Relay.FusionRun
import StencilGraph.Relay.Stencils

namespace StencilGraph.Relay
open Framework Relation NodeAutoFusion

variable {replace memo : Nat → Option Nat} {h h' h₁ : Heap} {s : Mutation} {ps A : List Nat}
  {a b c na nc f x y z r : Nat} {name : String} {Ta Tc : List String}

section Inline

variable {argsA : List Nat}

/-- What a visit goes through below an argument of the consumer. -/
theorem Inlines.visitReach (hi : Inlines replace memo a na) (ha : h[a]? = some (.call (.func f) argsA))
    (hflat : Typed h noCall anyItem ps na)
    (hy : IsVar h y ∨ y = a ∨ ∃ k, h[y]? = some (.tupleGetItem a k))
    (hz : VisitReach replace h memo y z) :
    IsVar h z ∨ z = a ∨ (∃ k, h[z]? = some (.tupleGetItem a k)) ∨
      memo a = none ∧ Reach h na z := by
  induction hz with
  | refl => exact hy.imp_right (Or.imp_right Or.inl)
  | @tail z w _ hd ih =>
    obtain ⟨hm, n, hn, hw⟩ := hd
    rcases ih with ⟨v, hv⟩ | rfl | ⟨k, hk⟩ | ⟨hma, hr⟩
    · obtain rfl := Option.some.inj (hv.symm.trans hn)
      cases hw
    · obtain rfl := Option.some.inj (ha.symm.trans hn)
      rcases hi.self with ⟨hrep, -⟩ | ⟨-, hseed⟩
      · simp only [visited, hrep, List.mem_singleton] at hw
        rw [hw]
        exact Or.inr (Or.inr (Or.inr ⟨hm, .refl⟩))
      · rw [hseed] at hm
        cases hm
    · obtain rfl := Option.some.inj (hk.symm.trans hn)
      have hne : z ≠ a := by
        intro heq
        rw [heq, ha] at hk
        cases hk
      simp only [visited, (hi.other z hne).1, List.mem_singleton] at hw
      exact Or.inr (Or.inl hw)
    · have hne : z ≠ a := by
        intro heq
        cases hr.typed hflat with
        | func _ _ _ _ hno => exact hno.elim
        | _ => simp_all
      have hwd := (hr.typed hflat).refs_flat hn (visited_subset_refs (hi.other z hne).1 hw)
      exact Or.inr (Or.inr (Or.inr ⟨hma, hr.tail ⟨n, hn, hwd⟩⟩))

/-- The stencils below an argument of the consumer, after the producer was put in place: copies of
those of the flat producer, or the same ones if it was in the memo table. -/
theorem inline_arg_stencil {G : Nat → Prop} {μ : Nat → Nat} {y' d : Nat}
    (hi : Inlines replace memo a na) (hw : Wf h) (hs : Rebuild replace h memo s)
    (hvis : Visitable replace h memo G μ) (hG : G y)
    (ha : h[a]? = some (.call (.func f) argsA)) (hflat : Typed h noCall anyItem ps na)
    (hy : IsVar h y ∨ y = a ∨ ∃ k, h[y]? = some (.tupleGetItem a k)) (hyy' : s.memo y = some y')
    (hd : StencilOf s.heap y' name d) :
    (memo a = none ∧ ∃ z, StencilOf h na name z ∧ s.memo z = some d) ∨
      memo a = some na ∧ StencilOf h na name d := by
  have hseed (x w : Nat) (hx : memo x = some w) : w < h.length := by
    obtain ⟨-, rfl⟩ := hi.seed hx
    exact hflat.lt
  cases stencil_origin hs hvis hw hseed hG hyy' hd with
  | inl himage =>
    obtain ⟨z, hz, ⟨outputs, args, hop⟩, hzd⟩ := himage
    rcases hi.visitReach ha hflat hy hz with ⟨v, hv⟩ | rfl | ⟨k, hk⟩ | ⟨hma, hr⟩
    · cases hv.symm.trans hop
    · cases ha.symm.trans hop
    · cases hk.symm.trans hop
    · exact Or.inl ⟨hma, z, ⟨hr.refReach, outputs, args, hop⟩, hzd⟩
  | inr htaken =>
    obtain ⟨w, ⟨z, hz, hcase⟩, hwd⟩ := htaken
    rcases hcase with hseeded | ⟨-, hv, rfl⟩
    · obtain ⟨rfl, rfl⟩ := hi.seed hseeded
      exact Or.inr ⟨hseeded, hwd⟩
    · have hne : z ≠ a := by
        intro heq
        obtain ⟨v, hv⟩ := hv
        rw [heq, ha] at hv
        cases hv
      rw [(hi.other z hne).1] at hwd
      exact absurd hwd (not_stencilOf_var hv)

/-- The consumer after its producer was put in place has its own stencils, and its arguments have
those of the producer. -/
theorem inline_stencil {c' : Nat} (hw : Wf h) (hp : Pair h ps a c)
    (ha : h[a]? = some (.call (.func f) argsA)) (hflat : Typed h noCall anyItem ps na)
    (hi : Inlines replace memo a na) (htc : Tagged h c Tc)
    (hrun : visit replace (visitFuel h) c ⟨h, memo⟩ = some (c', s)) :
    Tagged s.heap c' Tc ∧ ∀ y' ∈ GroupOp.callArgs s.heap c', ∀ name d, StencilOf s.heap y' name d →
      (memo a = none ∧ ∃ z, StencilOf h na name z ∧ s.memo z = some d) ∨
        memo a = some na ∧ StencilOf h na name d := by
  have hreg := inline_region hp ha hflat hi
  have hseed (x w : Nat) (hx : memo x = some w) : w < h.length := by
    obtain ⟨-, rfl⟩ := hi.seed hx
    exact hflat.lt
  obtain ⟨c'', s', hrun', hs, hr⟩ := hreg.run hw hseed (x := c) (Or.inl .refl)
  obtain ⟨rfl, rfl⟩ : c'' = c' ∧ s' = s := by
    have heq := Option.some.inj (hrun'.symm.trans hrun)
    exact ⟨congrArg Prod.fst heq, congrArg Prod.snd heq⟩
  obtain ⟨hrepc, hmc⟩ := hi.other c hp.ne.symm
  refine ⟨hreg.tagged hw hseed hs (Or.inl .refl) hp.callC hrepc hmc hr htc, ?_⟩
  intro y' hy' name d hd
  obtain ⟨callee, args, hc⟩ := hp.callC
  have hreb := hs.rebuilt hr hmc hc
  simp only [Rebuilt, hrepc] at hreb
  obtain ⟨callee', args', hget, -, hargs⟩ := hreb
  rw [callArgs_call hget] at hy'
  obtain ⟨y, hy, hyy'⟩ := forall₂_mem hargs hy'
  have hcase := hp.argsC y (by rw [callArgs_call hc]; exact hy)
  exact inline_arg_stencil hi hw hs (hreg.visitable hw)
    (Or.inl (Or.inl (ReflTransGen.single ⟨_, hc, hy⟩))) ha hflat (hcase.imp_left (hp.vars y)) hyy' hd

end Inline

/-- The stencils below the arguments of the consumer are those below the producer. -/
theorem Pair.arg_stencil {d : Nat} (hp : Pair h ps a c) (hy : y ∈ GroupOp.callArgs h c)
    (hyd : StencilOf h y name d) : StencilOf h a name d := by
  rcases hp.argsC y hy with hps | rfl | ⟨k, hk⟩
  · exact absurd hyd (not_stencilOf_var (hp.vars y hps))
  · exact hyd
  · cases hyd.cases hk with
    | inl heq =>
      obtain ⟨outputs', args', hop⟩ := hyd.op
      rw [heq, hk] at hop
      cases hop
    | inr hsub =>
      obtain ⟨z, hz, hzd⟩ := hsub
      rwa [List.mem_singleton.mp hz] at hzd

section Flatten

variable (hp : Pair h ps a c) (hw : Wf h) (hta : Tagged h a Ta) (htc : Tagged h c Tc)
  (hT : ∀ name ∈ Tc, name ∉ Ta)

include hp hw hta

/-- The flat producer has the stencils of the producer. -/
theorem Pair.flatten_distinct (hrun : GroupOp.flattenCall a h = some (na, h₁)) (he : h <+: h₁) :
    Distinct h₁ [na] Ta := by
  obtain ⟨callee, args, ha⟩ := hp.callA
  have hd : Distinct h [] ([] : List String) :=
    ⟨fun _ hx => absurd hx List.not_mem_nil, fun _ hx => absurd hx List.not_mem_nil⟩
  have hflat := flattenCall_distinct hw ha (hp.typedA.call ha).1 hrun he hta
    (fun _ hk => absurd hk List.not_mem_nil) hd (fun _ _ => List.not_mem_nil) (fun y hy name d hd => by
      rw [← callArgs_call ha] at hy
      exact absurd hd (not_stencilOf_var (hp.vars y (hp.argsA y hy))))
  rwa [List.append_nil] at hflat

/-- One more argument of the consumer: the replacements of the producer have its stencils. -/
theorem serialArg_distinct {argsA : List Nat} (ha : h[a]? = some (.call (.func f) argsA))
    {m m' : ReplaceMap} {h'' : Heap} (hr : Replaces h ps a m h')
    (hm : ∀ k v, (k, v) ∈ m → Distinct h' [v] Ta) (hy : y ∈ GroupOp.callArgs h c)
    (hrun : GroupOp.serialArg ps (m, h') y = some (m', h'')) :
    Replaces h ps a m' h'' ∧ ∀ k v, (k, v) ∈ m' → Distinct h'' [v] Ta := by
  obtain ⟨m₁, h₁, hrun₁, hr₁, -⟩ := serialArg_spec hp hw ha hr hy
  obtain ⟨rfl, rfl⟩ : m₁ = m' ∧ h₁ = h'' := by
    have heq := Option.some.inj (hrun₁.symm.trans hrun)
    exact ⟨congrArg Prod.fst heq, congrArg Prod.snd heq⟩
  refine ⟨hr₁, ?_⟩
  have ha' := get_ext hr.ext.ext ha
  have hcalls : GroupOp.callsFunction h' a = some true := by simp [GroupOp.callsFunction, ha']
  have haps : a ∉ ps := by
    intro hps
    obtain ⟨v, hv⟩ := hp.vars a hps
    cases ha.symm.trans hv
  have hp' := hp.ext hw hr.ext.ext
  obtain ⟨na, h₂, hflat, he₂, hna, -⟩ := hp'.flatten hr.ext.wf
  have hd := hp'.flatten_distinct hr.ext.wf (hta.ext hw hr.ext.ext hp.typedA.lt) hflat he₂.ext
  rw [flattenCall_func ha'] at hflat
  have hadd (k v : Nat) (hkv : (k, v) ∈ m ++ [(a, na)]) : Distinct h₂ [v] Ta := by
    cases List.mem_append.mp hkv with
    | inl hkv =>
      exact (hm k v hkv).ext hr.ext.wf he₂.ext
        (fun x hx => List.mem_singleton.mp hx ▸ (hr.entry k v hkv).2.1.lt)
    | inr hkv =>
      obtain rfl : v = na := congrArg Prod.snd (List.mem_singleton.mp hkv)
      exact hd
  rcases hp.argsC y hy with hps | rfl | ⟨k, hk⟩
  · obtain ⟨rfl, rfl⟩ : m = m₁ ∧ h' = h₁ := by simpa [GroupOp.serialArg, hps] using hrun
    exact hm
  · obtain ⟨rfl, rfl⟩ : m ++ [(y, na)] = m₁ ∧ h₂ = h₁ := by
      simpa [GroupOp.serialArg, haps, ha', hcalls, hflat] using hrun
    exact hadd
  · have hk' := get_ext hr.ext.ext hk
    have hyps : y ∉ ps := by
      intro hps
      obtain ⟨v, hv⟩ := hp.vars y hps
      cases hk.symm.trans hv
    by_cases hg : (m.get a).isSome
    · obtain ⟨rfl, rfl⟩ : m = m₁ ∧ h' = h₁ := by
        simpa [GroupOp.serialArg, hyps, hk', hcalls, hg] using hrun
      exact hm
    · obtain ⟨rfl, rfl⟩ : m ++ [(a, na)] = m₁ ∧ h₂ = h₁ := by
        simpa [GroupOp.serialArg, hyps, hk', hcalls, hg, hflat] using hrun
      exact hadd

theorem serialArgs_distinct {argsA : List Nat} (ha : h[a]? = some (.call (.func f) argsA))
    {l : List Nat} (hl : ∀ y ∈ l, y ∈ GroupOp.callArgs h c) {m m' : ReplaceMap} {h'' : Heap}
    (hr : Replaces h ps a m h') (hm : ∀ k v, (k, v) ∈ m → Distinct h' [v] Ta)
    (hrun : l.foldlM (GroupOp.serialArg ps) (m, h') = some (m', h'')) :
    ∀ k v, (k, v) ∈ m' → Distinct h'' [v] Ta := by
  induction l generalizing m h' with
  | nil =>
    cases hrun
    exact hm
  | cons y l ih =>
    obtain ⟨m₁, h₁, hrun₁, -, -⟩ := serialArg_spec hp hw ha hr (hl y List.mem_cons_self)
    obtain ⟨hr₁, hm₁⟩ := serialArg_distinct hp hw hta ha hr hm (hl y List.mem_cons_self) hrun₁
    rw [List.foldlM_cons, hrun₁] at hrun
    exact ih (fun z hz => hl z (List.mem_cons_of_mem _ hz)) hr₁ hm₁ hrun

include htc hT

/-- Flattening a consumer whose arguments have stencils of the flat producer only. -/
theorem Pair.consumer_distinct {h₂ : Heap} (hrun₁ : GroupOp.flattenCall a h = some (na, h₁))
    (he₁ : Extends h h₁) (hna : na < h₁.length) (hrun₂ : GroupOp.flattenCall c h₁ = some (nc, h₂))
    (he₂ : h₁ <+: h₂) (hargs : ∀ y ∈ GroupOp.callArgs h c, ∀ name d, StencilOf h₁ y name d →
      StencilOf h₁ na name d) : Distinct h₂ [na, nc] (Tc ++ Ta) := by
  have hd := hp.flatten_distinct hw hta hrun₁ he₁.ext
  have hp₁ := hp.ext hw he₁.ext
  obtain ⟨callee, args, hc⟩ := hp₁.callC
  have hboth := flattenCall_distinct he₁.wf hc (hp₁.typedC.call hc).1 hrun₂ he₂
    (htc.ext hw he₁.ext hp.typedC.lt) (fun k hk => List.mem_singleton.mp hk ▸ hna) hd hT
    (fun y hy name d hyd => by
      refine ⟨na, List.mem_singleton.mpr rfl, hargs y ?_ name d hyd⟩
      rw [← callArgs_ext he₁.ext hp.typedC.lt, callArgs_call hc]
      exact hy)
  exact hboth.mono (by simp) (List.Subset.refl _)

theorem parallelFlatten_distinct (hind : ∀ y ∈ GroupOp.callArgs h c, y ∈ ps)
    (hrun : GroupOp.parallelFlatten a c h = some (r, h')) : Distinct h' [r] (Tc ++ Ta) := by
  obtain ⟨na, h₁, hrun₁, he₁, hna, -⟩ := hp.flatten hw
  have hp₁ := hp.ext hw he₁.ext
  obtain ⟨callee, args, hc⟩ := hp₁.callC
  obtain ⟨hcallee, hargs⟩ := hp₁.typedC.call hc
  obtain ⟨nc, h₂, hrun₂, he₂, hnc, -⟩ := flattenCall_spec he₁.wf hc hcallee
    (fun y hy => typed_var_flat hp₁.vars (hind y (by
      rw [← callArgs_ext he₁.ext hp.typedC.lt, callArgs_call hc]
      exact hy)))
    (fun y hy => (hargs y hy).2)
  have hd := hp.consumer_distinct hw hta htc hT hrun₁ he₁ hna.lt hrun₂ he₂.ext
    (fun y hy name d hyd => absurd hyd (not_stencilOf_var (hp₁.vars y (hind y hy))))
  have htuple := tensorTuple_distinct he₂.wf (he₂.typed he₁.wf hna) hnc hd
  have heq : GroupOp.tensorTuple na nc h₂ = (r, h') := by
    simpa [GroupOp.parallelFlatten, hrun₁, hrun₂] using hrun
  rwa [heq] at htuple

theorem specialSerialFlatten_distinct
    (hrun : GroupOp.specialSerialFlatten a c h = some (r, h')) : Distinct h' [r] (Tc ++ Ta) := by
  obtain ⟨na, h₁, hrun₁, he₁, hna, hsame₁⟩ := hp.flatten hw
  obtain ⟨callee, argsA, ha⟩ := hp.callA
  cases callee with
  | op name outputs =>
    obtain ⟨rfl, rfl⟩ : na = a ∧ h₁ = h := by
      simpa [GroupOp.flattenCall, GroupOp.callsFunction, ha, eq_comm] using hrun₁
    obtain ⟨nc, h₂, hrun₂, he₂, hnc, -⟩ := hp.flatten_op hw ha
    have hd := hp.consumer_distinct hw hta htc hT hrun₁ he₁ hna.lt hrun₂ he₂.ext
      (fun y hy name d hyd => hp.arg_stencil hy hyd)
    have htuple := tensorTuple_distinct he₂.wf (he₂.typed hw hna) hnc hd
    have heq : GroupOp.tensorTuple na nc h₂ = (r, h') := by
      simpa [GroupOp.specialSerialFlatten, GroupOp.callsFunction, ha, hrun₂] using hrun
    rwa [heq] at htuple
  | func f =>
    have hi : Inlines (fun _ => none) (Function.update (fun _ => none) a (some na)) a na :=
      ⟨fun x hx => ⟨rfl, by simp [hx]⟩, Or.inr ⟨rfl, by simp⟩⟩
    have hp₁ := hp.ext hw he₁.ext
    have ha₁ := get_ext he₁.ext ha
    have htc₁ := htc.ext hw he₁.ext hp.typedC.lt
    obtain ⟨c', s, hvisit, hes, hsame, hcall⟩ := inline_spec he₁.wf hp₁ ha₁ hna
      (hsame₁.here hw he₁.ext hp.vars hp.typedA.lt) hi
    obtain ⟨htc', hargs⟩ := inline_stencil he₁.wf hp₁ ha₁ hna hi htc₁ hvisit
    obtain ⟨nc, h₂, hrun₂, he₂, hnc, -⟩ := flatten_inlined hes hsame hcall
    obtain ⟨callee, args, hget, hcallee, -⟩ := hcall
    have hd := (hp.flatten_distinct hw hta hrun₁ he₁.ext).ext he₁.wf hes.ext
      (fun x hx => List.mem_singleton.mp hx ▸ hna.lt)
    have hboth := flattenCall_distinct hes.wf hget hcallee hrun₂ he₂.ext htc'
      (fun x hx => List.mem_singleton.mp hx ▸ hna.lt.trans_le hes.ext.length_le) hd hT
      (fun y hy name d hyd => by
        rw [← callArgs_call hget] at hy
        rcases hargs y hy name d hyd with ⟨hno, -⟩ | ⟨-, hnad⟩
        · rw [Function.update_self] at hno
          cases hno
        · exact ⟨na, List.mem_singleton.mpr rfl, hnad.ext hes.ext⟩)
    have hpair : Distinct h₂ [na, nc] (Tc ++ Ta) := hboth.mono (by simp) (List.Subset.refl _)
    have htuple := tensorTuple_distinct he₂.wf (he₂.typed hes.wf (hes.typed he₁.wf hna)) hnc hpair
    rw [flattenCall_func ha] at hrun₁
    have heq : GroupOp.tensorTuple na nc h₂ = (r, h') := by
      simpa [GroupOp.specialSerialFlatten, GroupOp.callsFunction, ha, hrun₁, Mutation.start,
        Mutation.record, hvisit, hrun₂] using hrun
    rwa [heq] at htuple

theorem serialFlatten_distinct (hrun : GroupOp.serialFlatten c ps h = some (r, h')) :
    Distinct h' [r] (Tc ++ Ta) := by
  obtain ⟨calleeC, argsC, hc⟩ := hp.callC
  have hargsC : GroupOp.callArgs h c = argsC := callArgs_call hc
  obtain ⟨callee, argsA, ha⟩ := hp.callA
  obtain ⟨na, h₁, hrun₁, he₁, hna, -⟩ := hp.flatten hw
  cases callee with
  | op name outputs =>
    obtain ⟨rfl, rfl⟩ : na = a ∧ h₁ = h := by
      simpa [GroupOp.flattenCall, GroupOp.callsFunction, ha, eq_comm] using hrun₁
    obtain ⟨nc, h₂, hrun₂, he₂, -, -⟩ := hp.flatten_op hw ha
    have hfold := serialArgs_op hp ha (l := argsC) (by simp [hargsC])
    obtain ⟨rfl, rfl⟩ : nc = r ∧ h₂ = h' := by
      simpa [GroupOp.serialFlatten, hc, hfold, hrun₂] using hrun
    have hd := hp.consumer_distinct hw hta htc hT hrun₁ he₁ hna.lt hrun₂ he₂.ext
      (fun y hy name d hyd => hp.arg_stencil hy hyd)
    exact hd.mono (by simp) (List.Subset.refl _)
  | func f =>
    obtain ⟨m, h₂, hfold, hr, hne⟩ := serialArgs_spec hp hw ha (l := argsC) (m := [])
      (by simp [hargsC]) ⟨Extends.refl hw, by simp⟩
    have hm := serialArgs_distinct hp hw hta ha (l := argsC) (by simp [hargsC])
      ⟨Extends.refl hw, by simp⟩ (by simp) hfold
    have hp₂ := hp.ext hw hr.ext.ext
    have hc₂ := get_ext hr.ext.ext hc
    have htc₂ := htc.ext hw hr.ext.ext hp.typedC.lt
    obtain ⟨hcallee, hargs⟩ := hp₂.typedC.call hc₂
    by_cases hnil : m = []
    · have hall : ∀ y ∈ argsC, y ∈ ps := by
        intro y hy
        by_contra hyps
        exact hne (Or.inr ⟨y, hy, hyps⟩) hnil
      obtain ⟨nc, h₃, hrun₃, he₃, -, -⟩ := flattenCall_spec hr.ext.wf hc₂ hcallee
        (fun y hy => typed_var_flat hp₂.vars (hall y hy)) (fun y hy => (hargs y hy).2)
      obtain ⟨rfl, rfl⟩ : nc = r ∧ h₃ = h' := by
        simpa [GroupOp.serialFlatten, hc, hfold, hnil, hrun₃] using hrun
      have hd : Distinct h₂ [] Ta :=
        ⟨fun _ hx => absurd hx List.not_mem_nil, fun _ hx => absurd hx List.not_mem_nil⟩
      exact flattenCall_distinct hr.ext.wf hc₂ hcallee hrun₃ he₃.ext htc₂
        (fun _ hk => absurd hk List.not_mem_nil) hd hT
        (fun y hy name d hyd => absurd hyd (not_stencilOf_var (hp₂.vars y (hall y hy))))
    · obtain ⟨na, hget, hna, hsame⟩ := hr.get hnil
      have hi : Inlines m.get (fun _ => none) a na := by
        refine ⟨fun x hx => ⟨?_, rfl⟩, Or.inl ⟨hget, rfl⟩⟩
        cases hg : m.get x with
        | none => rfl
        | some v => exact absurd (hr.entry x v (ReplaceMap.mem_of_get hg)).1 hx
      have ha₂ := get_ext hr.ext.ext ha
      have hd := hm a na (ReplaceMap.mem_of_get hget)
      obtain ⟨c', s, hvisit, hes, hsame', hcall⟩ := inline_spec hr.ext.wf hp₂ ha₂ hna
        (hsame.here hw hr.ext.ext hp.vars hp.typedA.lt) hi
      obtain ⟨htc', hstencil⟩ := inline_stencil hr.ext.wf hp₂ ha₂ hna hi htc₂ hvisit
      obtain ⟨nc, h₃, hrun₃, he₃, -, -⟩ := flatten_inlined hes hsame' hcall
      obtain ⟨callee', args', hget', hcallee', -, -⟩ := hcall
      obtain ⟨rfl, rfl⟩ : nc = r ∧ h₃ = h' := by
        simpa [GroupOp.serialFlatten, hc, hfold, hnil, replaceParams, Mutation.start, hvisit, hrun₃]
          using hrun
      -- the stencils of the arguments are copies of those of the flat producer
      have hcopy {y : Nat} (hy : y ∈ args') {name : String} {d : Nat}
          (hyd : StencilOf s.heap y name d) : ∃ z, StencilOf h₂ na name z ∧ s.memo z = some d := by
        rw [← callArgs_call hget'] at hy
        rcases hstencil y hy name d hyd with ⟨-, hz⟩ | ⟨hno, -⟩
        · exact hz
        · cases hno
      have hdargs : Distinct s.heap args' Ta := by
        constructor
        · intro y hy name d hyd
          obtain ⟨z, hz, -⟩ := hcopy hy hyd
          exact hd.names na (List.mem_singleton.mpr rfl) name z hz
        · intro y hy y' hy' name d d' hyd hyd'
          obtain ⟨z, hz, hzd⟩ := hcopy hy hyd
          obtain ⟨z', hz', hzd'⟩ := hcopy hy' hyd'
          obtain rfl := hd.unique na (List.mem_singleton.mpr rfl) na (List.mem_singleton.mpr rfl) name
            z z' hz hz'
          exact Option.some.inj (hzd.symm.trans hzd')
      have hboth := flattenCall_distinct hes.wf hget' hcallee' hrun₃ he₃.ext htc'
        (fun k hk => (wf_arg hes.wf hget' hk).trans (lt_of_get hget')) hdargs hT
        (fun y hy name d hyd => ⟨y, hy, hyd⟩)
      exact hboth.mono (by simp) (List.Subset.refl _)

/-- Flattening a group with one output. -/
theorem flattenExpr_serial_distinct (hrun : GroupOp.flattenExpr c ps h = some (r, h')) :
    Distinct h' [r] (Tc ++ Ta) := by
  obtain ⟨r₁, h₁, hrun₁, he₁, ht, -⟩ := serialFlatten_spec hp hw
  have hd := serialFlatten_distinct hp hw hta htc hT hrun₁
  obtain ⟨callee, args, hc⟩ := hp.callC
  have hemit : emitTuple r₁ h₁ = some (r, h') := by
    simpa [GroupOp.flattenExpr, hc, hrun₁] using hrun
  exact emitTuple_distinct he₁.wf ht hemit hd

/-- Flattening a group with two outputs. -/
theorem flattenExpr_tuple_distinct {t : Nat} (ht : h[t]? = some (.tuple [a, c]))
    (hrun : GroupOp.flattenExpr t ps h = some (r, h')) : Distinct h' [r] (Tc ++ Ta) := by
  obtain ⟨callee, args, hc⟩ := hp.callC
  have hargs : GroupOp.callArgs h c = args := callArgs_call hc
  by_cases hsrc : a ∈ GroupOp.argSources h args
  · obtain ⟨r₁, h₁, hrun₁, he₁, htr, -⟩ := specialSerialFlatten_spec hp hw
    have hd := specialSerialFlatten_distinct hp hw hta htc hT hrun₁
    have hemit : emitTuple r₁ h₁ = some (r, h') := by
      simpa [GroupOp.flattenExpr, ht, hc, hsrc, hrun₁] using hrun
    exact emitTuple_distinct he₁.wf htr hemit hd
  · have hind := hp.independent (by rw [hargs]; exact hsrc)
    obtain ⟨r₁, h₁, hrun₁, he₁, htr, -⟩ := parallelFlatten_spec hp hw hind
    have hd := parallelFlatten_distinct hp hw hta htc hT hind hrun₁
    have hemit : emitTuple r₁ h₁ = some (r, h') := by
      simpa [GroupOp.flattenExpr, ht, hc, hsrc, hrun₁] using hrun
    exact emitTuple_distinct he₁.wf htr hemit hd

end Flatten

end StencilGraph.Relay

import StencilGraph.Relay.FuseMain

namespace StencilGraph.Relay
open Framework Relation NodeAutoFusion

/-- A module whose `main` has parameters `ps` and body `b`. -/
structure Module.Ok (m : Module) (ps : List Nat) (b : Nat) : Prop where
  node : ∃ tag, m.heap[m.main]? = some (.function ps b tag)
  main : Main m.heap ps b

/-- A stencil program: `main` is a graph of stencil calls over its parameters, a call of several
results is read through projections only, and the body is one tensor or a tuple of tensors. -/
structure Module.Stencil (m : Module) (ps : List Nat) (b : Nat) : Prop where
  wf : Wf m.heap
  node : ∃ tag, m.heap[m.main]? = some (.function ps b tag)
  nodup : ps.Nodup
  vars : ∀ p ∈ ps, IsVar m.heap p
  body : Typed m.heap noCall (IsCall m.heap) ps b
  result : typeOf m.heap b = .tensor ∨ ∃ fields, m.heap[b]? = some (.tuple fields)

theorem Module.Stencil.ok {m : Module} {ps : List Nat} {b : Nat} (hm : m.Stencil ps b) :
    m.Ok ps b := by
  refine ⟨hm.node, hm.wf, hm.nodup, hm.vars, ?_, hm.result, ?_⟩
  · exact hm.body.mono hm.wf (List.prefix_refl _) (fun _ _ hno => hno.elim) (fun _ hc => hc)
      (fun _ hp => hp)
  · rintro x - ⟨z, f, args, hz, hcall, -⟩
    cases hz.typed hm.body with
    | func _ g args' _ hno => exact hno.elim
    | _ => simp_all

/-- One iteration of the loop on some pair of distinct calls that is not excluded. -/
def FusionStep (m m' : Module) : Prop :=
  ∃ callList exclusion p q, BuildGraph.getCallList m.heap m.main = some callList ∧
    analysisExclusion m.heap callList = some exclusion ∧ p ∈ callList ∧ q ∈ callList ∧ p ≠ q ∧
    (p, q) ∉ exclusion ∧ fusionCall2Call (p, q) m callList = some m'

variable {m m' : Module} {ps L : List Nat} {b p q : Nat}

/-- `fusion_call2call` on two calls with nothing between them. -/
theorem fusionCall2Call_spec (hm : m.Ok ps b) (hL : ∀ x, x ∈ L ↔ TopCall m.heap b x)
    (hp : TopCall m.heap b p) (hq : TopCall m.heap b q) (hne : p ≠ q)
    (hpq : ¬ Between (Dep m.heap b) p q) (hqp : ¬ Between (Dep m.heap b) q p) :
    ∃ hf h' A outs tag a c fc callMap s b' main',
      Contracts m.heap hf h' ps A outs tag b a c fc callMap ∧ Rewritten h' callMap s b b' ∧
      Fuses m.heap hf A outs tag a c fc ∧
      fusionCall2Call (p, q) m L = some ⟨s.heap, main'⟩ ∧ Module.Ok ⟨s.heap, main'⟩ ps b' := by
  obtain ⟨mtag, hnode⟩ := hm.node
  obtain ⟨a, c, outputs, hgo, hac, hnodep, ho⟩ := groupOutputs_spec hm.main hL hp hq
  have htop : TopCall m.heap b a ∧ TopCall m.heap b c ∧ a ≠ c := by
    rcases hac with ⟨rfl, rfl⟩ | ⟨rfl, rfl⟩
    · exact ⟨hp, hq, hne⟩
    · exact ⟨hq, hp, hne.symm⟩
  obtain ⟨⟨hca, hra⟩, ⟨hcc, hrc⟩, hne'⟩ := htop
  have hg : Group m.heap ps b (GroupOp.initArgs m.heap [a, c]) a c := by
    refine group_initArgs hm.main hne' hca hcc hra hrc fun y hy => ⟨?_, fun k hk => ?_⟩
    · rintro rfl
      exact hnodep ⟨⟨hcc, hrc⟩, ⟨hca, hra⟩, y, hy, Or.inl rfl⟩
    · exact hnodep ⟨⟨hcc, hrc⟩, ⟨hca, hra⟩, y, hy, Or.inr ⟨k, hk⟩⟩
  have houts : outputs.map Prod.fst = [c] ∧ Uses m.heap a c ∨ outputs.map Prod.fst = [a, c] :=
    ho.shape.imp (fun hs => ⟨hs.1, hs.2.1⟩) id
  obtain ⟨fc, hf, na, nc, hna, hnc, hfuse, hF⟩ := fuse_spec hg rfl houts
  obtain ⟨callMap, h', hmap, hR⟩ := relayCallMap_spec hg ho hF
  have hbet : ¬ Between (Dep m.heap b) a c ∧ ¬ Between (Dep m.heap b) c a := by
    rcases hac with ⟨rfl, rfl⟩ | ⟨rfl, rfl⟩
    · exact ⟨hpq, hqp⟩
    · exact ⟨hqp, hpq⟩
  have hC : Contracts m.heap hf h' ps _ _ _ b a c fc callMap := ⟨hg, hF, hR, hbet⟩
  have hnode' := get_ext hC.ext hnode
  have hblt := wf_body hm.main.wf hnode
  have hmlt := lt_of_get hnode
  have hlef := hF.ext.ext.length_le
  have hnew := hF.new
  obtain ⟨main', s, hrun, hs, hmain'⟩ := hC.region.run_function hR.ext.wf (by simp) hnode'
    (fun p hp => (hm.main.vars p hp).ext hC.ext)
    (Or.inl ⟨ReflTransGen.refl, hC.body_visible⟩) (by
      have hreach {x : Nat} (hx : Reach m.heap b x) : x < m.main := (hx.le hm.main.wf).trans_lt hblt
      rintro x ((⟨hx, -⟩ | rfl | ⟨hle, -⟩) | hin)
      · exact (hreach hx).ne
      · omega
      · omega
      · rcases hC.inside_cases hin with ⟨⟨z, f, args, hz, hcall, hinf⟩, -⟩ | ⟨hle, -, -⟩
        · have h1 := hinf.le hm.main.wf
          have h2 := wf_func hm.main.wf hcall
          have h3 := hreach hz
          omega
        · omega)
  obtain ⟨ps', b', hget, hps, hb⟩ := hs.rebuilt hmain' rfl hnode'
  have hvars (p : Nat) (hp : p ∈ ps) : IsVar h' p := (hm.main.vars p hp).ext hC.ext
  obtain rfl := vars_image hs hps hvars fun p hp => by
    refine ⟨?_, rfl⟩
    cases hrep : callMap.get p with
    | none => rfl
    | some v =>
      obtain ⟨name, hv⟩ := hvars p hp
      rcases hC.key_node hrep with ⟨callee, args, hc⟩ | ⟨t, k, hi⟩
      · simp [hv] at hc
      · simp [hv] at hi
  refine ⟨hf, h', _, _, _, a, c, fc, callMap, s, b', main', hC, ⟨hs, hb⟩,
    ⟨rfl, hfuse, houts, na, nc, hna, hnc, rfl⟩, ?_, ⟨mtag, hget⟩, hC.new_main ⟨hs, hb⟩⟩
  simp [fusionCall2Call, hnode, hgo, hfuse, hmap, replaceParams, Mutation.start, hrun]

/-- A step keeps the shape of the module, computes the same results and has one call less. -/
structure StepSpec (m m' : Module) (ps : List Nat) (b b' : Nat) : Prop where
  ok : m'.Ok ps b'
  value : ∀ (V : Type) (I : Interp V) (σ : Env V), Binds m.heap ps σ →
    value I m'.heap σ b' = value I m.heap σ b
  count : ∀ L L' : List Nat, L.Nodup → L'.Nodup → (∀ x, x ∈ L ↔ TopCall m.heap b x) →
    (∀ x, x ∈ L' ↔ TopCall m'.heap b' x) → L'.length + 1 = L.length

/-- The calls that are left, and the new one, are visited and not replaced. -/
theorem Contracts.kept_visible {h hf h' : Heap} {A outs : List Nat} {tag : List String}
    {a c fc z : Nat} {callMap : ReplaceMap} (hC : Contracts h hf h' ps A outs tag b a c fc callMap)
    (hz : (TopCall h b z ∧ z ≠ a ∧ z ≠ c) ∨ z = fc) :
    Visible h hf h' callMap.get b a c fc z ∧ callMap.get z = none ∧ ¬ IsVar h' z := by
  rcases hz with ⟨⟨⟨callee, args, hcz⟩, hbz⟩, hza, hzc⟩ | rfl
  · have hnu : ¬ (GroupUse h a z ∨ GroupUse h c z) := by
      rintro ((heq | ⟨k, hk⟩) | (heq | ⟨k, hk⟩))
      · exact hza heq
      · simp [hcz] at hk
      · exact hzc heq
      · simp [hcz] at hk
    refine ⟨Or.inl ⟨hbz, ?_⟩, ?_, not_isVar (get_ext hC.ext hcz) (by simp)⟩
    · rintro ⟨-, heq | heq | ⟨t, k, hk, -, -⟩⟩
      · exact hza heq
      · exact hzc heq
      · simp [hcz] at hk
    · cases hrep : callMap.get z with
      | none => rfl
      | some v => exact absurd (hC.key hrep).2 hnu
  · obtain ⟨f, params, body, hfc, -⟩ := hC.fc_call
    exact ⟨Or.inr (Or.inl rfl), hC.not_key hC.fused.new, not_isVar hfc (by simp)⟩

/-- The calls of the rewritten `main` are one fewer. -/
theorem Contracts.count {h hf h' : Heap} {A outs : List Nat} {tag : List String} {a c fc b' : Nat}
    {callMap : ReplaceMap} {s : Mutation} {L L' : List Nat}
    (hC : Contracts h hf h' ps A outs tag b a c fc callMap) (hr : Rewritten h' callMap s b b')
    (hn : L.Nodup) (hn' : L'.Nodup) (hL : ∀ x, x ∈ L ↔ TopCall h b x)
    (hL' : ∀ x, x ∈ L' ↔ TopCall s.heap b' x) : L'.length + 1 = L.length := by
  have hg := hC.group
  have ha : a ∈ L := (hL a).mpr ⟨hg.callA, hg.reachA⟩
  have hc : c ∈ L := (hL c).mpr ⟨hg.callC, hg.reachC⟩
  have hfcnew : fc ∉ L := by
    intro hfc
    have := hC.lt ((hL fc).mp hfc).2
    have := hC.fused.new
    omega
  -- the calls that have an image in the rewritten `main`
  have hkeep (z : Nat) : z ∈ fc :: (L.erase a).erase c ↔
      (TopCall h b z ∧ z ≠ a ∧ z ≠ c) ∨ z = fc := by
    rw [List.mem_cons, (hn.erase a).mem_erase_iff, hn.mem_erase_iff, hL]
    tauto
  have hnodup : (fc :: (L.erase a).erase c).Nodup := by
    refine List.nodup_cons.mpr ⟨fun hmem => hfcnew ?_, (hn.erase a).erase c⟩
    exact List.mem_of_mem_erase (List.mem_of_mem_erase hmem)
  have hvisible {z : Nat} (hz : z ∈ fc :: (L.erase a).erase c) :=
    hC.kept_visible ((hkeep z).mp hz)
  have himage {z : Nat} (hz : z ∈ fc :: (L.erase a).erase c) : ∃ z', s.memo z = some z' := by
    rcases (hkeep z).mp hz with ⟨⟨hcz, hbz⟩, hza, hzc⟩ | rfl
    · obtain ⟨z', hz', -⟩ := (hC.still_reached hr hbz).2 (by
        obtain ⟨callee, args, hcz⟩ := hcz
        rintro ((heq | ⟨k, hk⟩) | (heq | ⟨k, hk⟩))
        · exact hza heq
        · simp [hcz] at hk
        · exact hzc heq
        · simp [hcz] at hk)
      exact ⟨z', hz'⟩
    · obtain ⟨r, hr', -⟩ := (hC.still_reached hr hg.reachC).1 (Or.inr (Or.inl rfl))
      exact ⟨r, hr'⟩
  have hinj : ∀ z ∈ fc :: (L.erase a).erase c, ∀ w ∈ fc :: (L.erase a).erase c,
      (s.memo z).getD 0 = (s.memo w).getD 0 → z = w := by
    intro z hz w hw heq
    obtain ⟨z', hz'⟩ := himage hz
    obtain ⟨w', hw'⟩ := himage hw
    obtain rfl : z' = w' := by simpa [hz', hw'] using heq
    obtain ⟨h1, h2, h3⟩ := hvisible hz
    obtain ⟨h4, h5, h6⟩ := hvisible hw
    exact image_inj hr.rebuild (hC.region.visitable hC.rewired.ext.wf) hC.fresher (Or.inl h1)
      (Or.inl h4) (Or.inr ⟨Or.inl h1, h3⟩) (Or.inr ⟨Or.inl h4, h6⟩) h2 h5 hz' hw'
  have hperm : L'.Perm ((fc :: (L.erase a).erase c).map fun z => (s.memo z).getD 0) := by
    refine (List.perm_ext_iff_of_nodup hn' (hnodup.map_on hinj)).mpr fun x' => ?_
    rw [hL', hC.topCall_iff hr, List.mem_map]
    constructor
    · rintro ⟨z, hzx, hcase⟩
      exact ⟨z, (hkeep z).mpr hcase, by simp [hzx]⟩
    · rintro ⟨z, hz, rfl⟩
      obtain ⟨z', hz'⟩ := himage hz
      exact ⟨z, by simp [hz'], (hkeep z).mp hz⟩
  have hlen := hperm.length_eq
  have hcmem : c ∈ L.erase a := (hn.mem_erase_iff).mpr ⟨hg.ne.symm, hc⟩
  rw [List.length_map, List.length_cons, List.length_erase_of_mem hcmem,
    List.length_erase_of_mem ha] at hlen
  have h1 := List.length_pos_of_mem hcmem
  rw [List.length_erase_of_mem ha] at h1
  omega

/-- Every pair that is not excluded can be fused. -/
theorem fusionStep_total (hm : m.Ok ps b) (hL : ∀ x, x ∈ L ↔ TopCall m.heap b x)
    {exclusion : List (Nat × Nat)} (hex : analysisExclusion m.heap L = some exclusion)
    (hp : p ∈ L) (hq : q ∈ L) (hne : p ≠ q) (hpq : (p, q) ∉ exclusion) :
    ∃ m' b', fusionCall2Call (p, q) m L = some m' ∧ StepSpec m m' ps b b' := by
  obtain ⟨exclusion', hex', hmem⟩ := analysisExclusion_spec hm.main hL
  obtain rfl := Option.some.inj (hex.symm.trans hex')
  have hnot := mt (hmem p q).mpr hpq
  push Not at hnot
  obtain ⟨hf, h', A, outs, tag, a, c, fc, callMap, s, b', main', hC, hr, -, hrun, hok⟩ :=
    fusionCall2Call_spec hm hL ((hL p).mp hp) ((hL q).mp hq) hne hnot.2.1 hnot.2.2
  exact ⟨_, b', hrun, hok, fun V I σ hσ => hC.new_value hr hσ,
    fun L₁ L₂ hn₁ hn₂ hL₁ hL₂ => hC.count hr hn₁ hn₂ hL₁ hL₂⟩

/-- A step fuses a pair and rewrites `main`. -/
theorem FusionStep.contracts (hm : m.Ok ps b) (hstep : FusionStep m m') :
    ∃ hf h' A outs tag a c fc callMap s b', Contracts m.heap hf h' ps A outs tag b a c fc callMap ∧
      Rewritten h' callMap s b b' ∧ Fuses m.heap hf A outs tag a c fc ∧ m'.heap = s.heap ∧
      m'.Ok ps b' := by
  obtain ⟨callList, exclusion, p, q, hlist, hex, hp, hq, hne, hpq, hrun⟩ := hstep
  obtain ⟨tag, hnode⟩ := hm.node
  obtain ⟨L, hlist', -, hL⟩ := getCallList_spec hm.main hnode
  obtain rfl := Option.some.inj (hlist.symm.trans hlist')
  obtain ⟨exclusion', hex', hmem⟩ := analysisExclusion_spec hm.main hL
  obtain rfl := Option.some.inj (hex.symm.trans hex')
  have hnot := mt (hmem p q).mpr hpq
  push Not at hnot
  obtain ⟨hf, h', A, outs, tag, a, c, fc, callMap, s, b', main', hC, hr, hF, hrun', hok⟩ :=
    fusionCall2Call_spec hm hL ((hL p).mp hp) ((hL q).mp hq) hne hnot.2.1 hnot.2.2
  obtain rfl := Option.some.inj (hrun.symm.trans hrun')
  exact ⟨hf, h', A, outs, tag, a, c, fc, callMap, s, b', hC, hr, hF, rfl, hok⟩

theorem FusionStep.spec (hm : m.Ok ps b) (hstep : FusionStep m m') :
    ∃ b', StepSpec m m' ps b b' := by
  obtain ⟨hf, h', A, outs, tag, a, c, fc, callMap, s, b', hC, hr, -, heap, hok⟩ :=
    hstep.contracts hm
  exact ⟨b', hok, fun V I σ hσ => heap ▸ hC.new_value hr hσ,
    fun L₁ L₂ hn₁ hn₂ hL₁ hL₂ => hC.count hr hn₁ hn₂ hL₁ (heap ▸ hL₂)⟩

/-- A whole run keeps the shape of the module and its results. -/
theorem run_spec (hm : m.Ok ps b) (hrun : ReflTransGen FusionStep m m') :
    ∃ b', m'.Ok ps b' ∧ ∀ (V : Type) (I : Interp V) (σ : Env V), Binds m.heap ps σ →
      Binds m'.heap ps σ ∧ value I m'.heap σ b' = value I m.heap σ b := by
  induction hrun with
  | refl => exact ⟨b, hm, fun V I σ hσ => ⟨hσ, rfl⟩⟩
  | tail _ hstep ih =>
    obtain ⟨b₁, hok₁, hval₁⟩ := ih
    obtain ⟨b₂, hspec⟩ := FusionStep.spec hok₁ hstep
    refine ⟨b₂, hspec.ok, fun V I σ hσ => ?_⟩
    obtain ⟨hσ₁, heq⟩ := hval₁ V I σ hσ
    exact ⟨⟨hspec.ok.main.vars, hσ₁.dom, hσ₁.one⟩, (hspec.value V I σ hσ₁).trans heq⟩

/-- Meaning preservation: after any number of iterations the module gives the same results, in the
same order, on every input and for every meaning of the stencil operators. The iterations never
fail. -/
theorem fusion_preserves_results (hm : m.Stencil ps b) (hrun : ReflTransGen FusionStep m m') :
    (∀ (V : Type) (I : Interp V) (inputs : List V), inputs.length = ps.length →
      m'.run I inputs = m.run I inputs) ∧
    ∃ callList exclusion, BuildGraph.getCallList m'.heap m'.main = some callList ∧
      analysisExclusion m'.heap callList = some exclusion ∧
      ∀ p ∈ callList, ∀ q ∈ callList, p ≠ q → (p, q) ∉ exclusion →
        ∃ m'', fusionCall2Call (p, q) m' callList = some m'' := by
  obtain ⟨b', hok, hval⟩ := run_spec hm.ok hrun
  obtain ⟨tag, hnode⟩ := hm.node
  obtain ⟨tag', hnode'⟩ := hok.node
  constructor
  · intro V I inputs hlen
    have hσ : Binds m.heap ps (bindParams ps (inputs.map fun v => [v])) :=
      binds_bindParams hm.vars hm.nodup (by simpa using hlen.symm) (by simp)
    simp only [Module.run, hnode, hnode']
    exact (hval V I _ hσ).2
  · obtain ⟨callList, hlist, -, hL⟩ := getCallList_spec hok.main hnode'
    obtain ⟨exclusion, hex, -⟩ := analysisExclusion_spec hok.main hL
    refine ⟨callList, exclusion, hlist, hex, fun p hp q hq hne hpq => ?_⟩
    obtain ⟨m'', -, hrun', -⟩ := fusionStep_total hok hL hex hp hq hne hpq
    exact ⟨m'', hrun'⟩

/-- A call of two results and a consumer of one of them; the other one is returned. -/
def sampleModule : Module :=
  ⟨[.var "in", .call (.op "s1" 2) [0], .tupleGetItem 1 0, .call (.op "s2" 1) [2],
    .tupleGetItem 1 1, .tuple [3, 4], .function [0] 5 []], 6⟩

theorem sampleModule_stencil : sampleModule.Stencil [0] 5 := by
  have h0 : Typed sampleModule.heap noCall (IsCall sampleModule.heap) [0] 0 :=
    .var 0 "in" rfl (by simp)
  have h1 : Typed sampleModule.heap noCall (IsCall sampleModule.heap) [0] 1 :=
    .op 1 "s1" 2 [0] rfl (by simpa using h0) (by decide)
  have h2 : Typed sampleModule.heap noCall (IsCall sampleModule.heap) [0] 2 :=
    .item 2 1 0 2 rfl ⟨_, _, rfl⟩ h1 (by decide) (by decide)
  have h3 : Typed sampleModule.heap noCall (IsCall sampleModule.heap) [0] 3 :=
    .op 3 "s2" 1 [2] rfl (by simpa using h2) (by decide)
  have h4 : Typed sampleModule.heap noCall (IsCall sampleModule.heap) [0] 4 :=
    .item 4 1 1 2 rfl ⟨_, _, rfl⟩ h1 (by decide) (by decide)
  refine ⟨?_, ⟨[], rfl⟩, by decide, ?_, .tuple 5 [3, 4] rfl ?_ (by decide), Or.inr ⟨[3, 4], rfl⟩⟩
  · have hwf : ∀ x < 7, ∀ n ∈ sampleModule.heap[x]?, ∀ y ∈ n.refs, y < x := by decide
    exact fun x n hx => hwf x (lt_of_get hx) n hx
  · intro p hp
    obtain rfl : p = 0 := by simpa using hp
    exact ⟨"in", rfl⟩
  · intro a ha
    obtain rfl | rfl : a = 3 ∨ a = 4 := by simpa using ha
    · exact h3
    · exact h4

theorem sampleModule_step : ∃ m', FusionStep sampleModule m' := by
  have hsome : (fusionCall2Call (1, 3) sampleModule [1, 3]).isSome = true := by decide +kernel
  obtain ⟨m', hm'⟩ := Option.isSome_iff_exists.mp hsome
  exact ⟨m', [1, 3], [(1, 1), (3, 3)], 1, 3, by decide, by decide, by decide, by decide, by decide,
    by decide, hm'⟩

theorem fusion_preserves_results_sample : ∃ m', FusionStep sampleModule m' ∧
    ∀ (V : Type) (I : Interp V) (v : V), m'.run I [v] = sampleModule.run I [v] := by
  obtain ⟨m', hstep⟩ := sampleModule_step
  exact ⟨m', hstep, fun V I v =>
    (fusion_preserves_results sampleModule_stencil (.single hstep)).1 V I [v] rfl⟩

end StencilGraph.Relay

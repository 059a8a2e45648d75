import StencilGraph.Relay.FusionRun

namespace StencilGraph.Relay
open Framework Relation NodeAutoFusion

variable {m m' : Module} {ps L : List Nat} {b : Nat}

/-- The dependence graph of `build_depence`: `d` is an input of the call `c` of the list. -/
def DependsOn (h : Heap) (callList : List Nat) (d c : Nat) : Prop := c ∈ callList ∧ d ∈ inputs h c

theorem dependsOn_eq_dep {h : Heap} (hm : Main h ps b) (hL : ∀ x, x ∈ L ↔ TopCall h b x) :
    DependsOn h L = Dep h b := by
  funext d c
  refine propext ⟨fun ⟨hc, hd⟩ => (mem_inputs_iff hm ((hL c).mp hc)).mp hd, fun hd => ?_⟩
  exact ⟨(hL c).mpr hd.2.1, (mem_inputs_iff hm hd.2.1).mpr hd⟩

/-- What `analysis_exclusion` computes on a call list: the pairs whose contraction makes a cycle. -/
structure ExclusionSpec (h : Heap) (callList : List Nat) (exclusion : List (Nat × Nat)) : Prop where
  acyclic : Acyclic (DependsOn h callList)
  cycle_test : ∀ p ∈ callList, ∀ q ∈ callList, p ≠ q →
    ((p, q) ∉ exclusion ↔ Acyclic (contract (DependsOn h callList) p q))
  symm : ∀ p q, (p, q) ∈ exclusion → (q, p) ∈ exclusion
  refl : ∀ p ∈ callList, (p, p) ∈ exclusion

theorem exclusionSpec_of_main {h : Heap} (hm : Main h ps b) (hL : ∀ x, x ∈ L ↔ TopCall h b x) :
    ∃ exclusion, analysisExclusion h L = some exclusion ∧ ExclusionSpec h L exclusion := by
  obtain ⟨exclusion, hex, hmem⟩ := analysisExclusion_spec hm hL
  have hdep := dependsOn_eq_dep hm hL
  refine ⟨exclusion, hex, hdep ▸ dep_acyclic hm, fun p hp q hq hne => ?_, fun p q hpq => ?_,
    fun p hp => (hmem p p).mpr (Or.inl ⟨rfl, (hL p).mp hp⟩)⟩
  · rw [hdep, contract_acyclic_iff (dep_acyclic hm) hne, hmem]
    simp [hne]
  · rcases (hmem p q).mp hpq with ⟨rfl, hp⟩ | hbet | hbet
    · exact hpq
    · exact (hmem q p).mpr (Or.inr (Or.inr hbet))
    · exact (hmem q p).mpr (Or.inr (Or.inl hbet))

/-- The number of calls of `main`. -/
def callCount (m : Module) : Option Nat :=
  (BuildGraph.getCallList m.heap m.main).map List.length

theorem FusionStep.count (hm : m.Ok ps b) (hstep : FusionStep m m') :
    ∃ n, callCount m = some (n + 1) ∧ callCount m' = some n := by
  obtain ⟨b', hspec⟩ := FusionStep.spec hm hstep
  obtain ⟨tag, hnode⟩ := hm.node
  obtain ⟨tag', hnode'⟩ := hspec.ok.node
  obtain ⟨L, hlist, hnodup, hL⟩ := getCallList_spec hm.main hnode
  obtain ⟨L', hlist', hnodup', hL'⟩ := getCallList_spec hspec.ok.main hnode'
  have hcount := hspec.count L L' hnodup hnodup' hL hL'
  exact ⟨L'.length, by simp [callCount, hlist, hcount], by simp [callCount, hlist']⟩

/-- A candidate of the search for a pair. -/
structure Candidate (score : Nat → Nat → Int) (L : List Nat) (best : Option (Nat × Nat) × Int) :
    Prop where
  bound : -1 ≤ best.2
  pair : ∀ pair, best.1 = some pair → pair.1 ∈ L ∧ pair.2 ∈ L ∧ -1 < score pair.1 pair.2

/-- The pair with the largest score is a pair of the list with a score above `-1`. -/
theorem findFusePair_spec {score : Nat → Nat → Int} {pair : Nat × Nat} {best : Int}
    (hfind : findFusePair score L = (some pair, best)) :
    pair.1 ∈ L ∧ pair.2 ∈ L ∧ -1 < score pair.1 pair.2 := by
  have hstep {best : Option (Nat × Nat) × Int} (hb : Candidate score L best) {call1 call2 : Nat}
      (h1 : call1 ∈ L) (h2 : call2 ∈ L) : Candidate score L (if score call1 call2 > best.2
        then (some (call1, call2), score call1 call2) else best) := by
    split
    · rename_i hgt
      have hbound := hb.bound
      refine ⟨by simp only; omega, fun pair hpair => ?_⟩
      obtain rfl := Option.some.inj hpair
      exact ⟨h1, h2, by simp only; omega⟩
    · exact hb
  have hgood : Candidate score L (findFusePair score L) :=
    List.foldlRecOn L _ ⟨by simp, by simp⟩ fun best hbest call1 h1 =>
      List.foldlRecOn L _ hbest fun best hbest call2 h2 => hstep hbest h1 h2
  rw [hfind] at hgood
  exact hgood.pair pair rfl

/-- A round of the loop ends, and makes a step on a pair that is not excluded. -/
theorem fuseStep_spec (p : Program) (hm : m.Ok ps b) :
    ∃ r, fuseStep p m = some r ∧ ∀ m', r = some m' → FusionStep m m' := by
  obtain ⟨tag, hnode⟩ := hm.node
  obtain ⟨L, hlist, hnodup, hL⟩ := getCallList_spec hm.main hnode
  obtain ⟨exclusion, hex, hspec⟩ := exclusionSpec_of_main hm.main hL
  obtain ⟨all, hall, hsub⟩ : ∃ all, exclusions p m.heap L = some all ∧
      ∀ e ∈ exclusion, e ∈ all := by
    refine ⟨_, by simp only [exclusions, hex, Option.bind_eq_bind, Option.bind_some]; rfl, ?_⟩
    intro e he
    exact List.mem_append_left _ he
  unfold fuseStep
  simp only [hlist, hall, Option.bind_eq_bind, Option.bind_some]
  cases hfind : findFusePair (score m.heap (p.size m.heap) all) L with
  | mk found best =>
    cases found with
    | none => exact ⟨none, rfl, by simp⟩
    | some pair =>
      obtain ⟨h1, h2, hscore⟩ := findFusePair_spec hfind
      have hnot : (pair.1, pair.2) ∉ all := by
        intro hmem
        simp [score, hmem] at hscore
      have hpq : (pair.1, pair.2) ∉ exclusion := fun hmem => hnot (hsub _ hmem)
      have hne : pair.1 ≠ pair.2 := by
        intro heq
        exact hpq (heq ▸ hspec.refl pair.1 h1)
      obtain ⟨m'', b', hrun, -⟩ := fusionStep_total hm hL hex h1 h2 hne hpq
      refine ⟨some m'', by simp [hrun], fun m' hm' => ?_⟩
      obtain rfl := Option.some.inj hm'
      exact ⟨L, exclusion, pair.1, pair.2, hlist, hex, h1, h2, hne, hpq, hrun⟩

theorem fuseLoop_spec (p : Program) (fuel fuseSteps : Nat) (hfuel : 31 ≤ fuel + fuseSteps)
    (hsteps : fuseSteps < 30) (hm : m.Ok ps b) :
    ∃ m', fuseLoop p fuel fuseSteps m = some m' ∧ ReflTransGen FusionStep m m' := by
  induction fuel generalizing m b fuseSteps with
  | zero => omega
  | succ fuel ih =>
    obtain ⟨r, hr, hstep⟩ := fuseStep_spec p hm
    unfold fuseLoop
    simp only [hr, Option.bind_eq_bind, Option.bind_some]
    cases r with
    | none => exact ⟨m, rfl, ReflTransGen.refl⟩
    | some m₁ =>
      obtain ⟨b₁, hspec⟩ := FusionStep.spec hm (hstep m₁ rfl)
      simp only
      split
      · exact ⟨m₁, rfl, .single (hstep m₁ rfl)⟩
      · obtain ⟨m', hrun, hpath⟩ := ih (fuseSteps + 1) (by omega) (by omega) hspec.ok
        exact ⟨m', hrun, .head (hstep m₁ rfl) hpath⟩

/-- No run of fusion steps goes on for ever. -/
theorem fusionStep_terminates (hm : m.Ok ps b) (run : Nat → Module) (h0 : run 0 = m) :
    ¬ ∀ n, FusionStep (run n) (run (n + 1)) := by
  intro hall
  have hreach (n : Nat) : ReflTransGen FusionStep m (run n) := by
    induction n with
    | zero => rw [h0]
    | succ n ih => exact ih.tail (hall n)
  have hcount (n : Nat) : ∃ k, callCount m = some (k + n) ∧ callCount (run n) = some k := by
    induction n with
    | zero =>
      obtain ⟨b', hok, -⟩ := run_spec hm (hreach 0)
      obtain ⟨k, hk, -⟩ := FusionStep.count hok (hall 0)
      exact ⟨k + 1, h0 ▸ hk, hk⟩
    | succ n ih =>
      obtain ⟨k, hk, hkn⟩ := ih
      obtain ⟨b', hok, -⟩ := run_spec hm (hreach n)
      obtain ⟨k', hk', hkn'⟩ := FusionStep.count hok (hall n)
      obtain rfl : k = k' + 1 := Option.some.inj (hkn.symm.trans hk')
      exact ⟨k', by rw [hk]; congr 1; omega, hkn'⟩
  obtain ⟨k, hk, -⟩ := hcount 0
  obtain ⟨k', hk', -⟩ := hcount (k + 1)
  have := Option.some.inj (hk.symm.trans hk')
  omega

/-- The exclusion analysis is the cycle test in every module that a run reaches; the module stays
acyclic, every step removes exactly one call, and the loop ends. -/
theorem exclusion_is_cycle_test (hm : m.Stencil ps b) (hrun : ReflTransGen FusionStep m m') :
    Wf m'.heap ∧
    (∃ callList exclusion, BuildGraph.getCallList m'.heap m'.main = some callList ∧
      analysisExclusion m'.heap callList = some exclusion ∧
      ExclusionSpec m'.heap callList exclusion) ∧
    (∀ m'', FusionStep m' m'' → ∃ n, callCount m' = some (n + 1) ∧ callCount m'' = some n) ∧
    (∀ run : Nat → Module, run 0 = m' → ¬ ∀ n, FusionStep (run n) (run (n + 1))) ∧
    ∀ p : Program, ∃ m'', fuse p m' = some m'' ∧ ReflTransGen FusionStep m' m'' := by
  obtain ⟨b', hok, -⟩ := run_spec hm.ok hrun
  obtain ⟨tag, hnode⟩ := hok.node
  obtain ⟨L, hlist, -, hL⟩ := getCallList_spec hok.main hnode
  obtain ⟨exclusion, hex, hspec⟩ := exclusionSpec_of_main hok.main hL
  exact ⟨hok.main.wf, ⟨L, exclusion, hlist, hex, hspec⟩, fun m'' hstep => FusionStep.count hok hstep,
    fun run h0 => fusionStep_terminates hok run h0,
    fun p => fuseLoop_spec p _ _ (by omega) (by omega) hok⟩

theorem exclusion_is_cycle_test_sample : ∃ m', FusionStep sampleModule m' ∧ Wf m'.heap ∧
    callCount m' = some 1 ∧ ∀ p : Program, ∃ m'', fuse p m' = some m'' := by
  obtain ⟨m', hstep⟩ := sampleModule_step
  obtain ⟨-, -, hcount, -, -⟩ := exclusion_is_cycle_test sampleModule_stencil ReflTransGen.refl
  obtain ⟨hwf, -, -, -, hloop⟩ := exclusion_is_cycle_test sampleModule_stencil (.single hstep)
  obtain ⟨n, hn, hn'⟩ := hcount m' hstep
  have htwo : callCount sampleModule = some 2 := by decide
  obtain rfl : n = 1 := by
    have := Option.some.inj (hn.symm.trans htwo)
    omega
  refine ⟨m', hstep, hwf, hn', fun p => ?_⟩
  obtain ⟨m'', hfuse, -⟩ := hloop p
  exact ⟨m'', hfuse⟩

end StencilGraph.Relay

import StencilGraph.Fuse.NodeAction

namespace StencilGraph.Fuse.GraphPartitioner
open Framework

section States

variable (d : Dialect) (g : ForwardGraph)

/-- The states that a loop passes through: those between the rounds and those inside them. -/
def loopStates {α σ : Type} (step : σ → α → Option σ) (inside : σ → α → List σ) :
    List α → σ → List σ
  | [], s => [s]
  | x :: xs, s => s :: (inside s x ++
      match step s x with
      | none => []
      | some s' => loopStates step inside xs s')

/-- The states of `CommitFuse_`, one for each merge. -/
def commitFuseStates_ (sink : Nat) : Nat → Nat → List Nat × Groups → List (List Nat × Groups)
  | 0, _, _ => []
  | fuel + 1, src, (visited, gs) =>
    if src = sink ∨ src ∈ visited then []
    else
      match mergeFromTo d g.size src sink gs with
      | none => []
      | some gs => loopStates (fun s link => commitFuse_ d g sink fuel link.node s)
          (fun s link => commitFuseStates_ sink fuel link.node s) (g.outputs src)
          (src :: visited, gs)

/-- The states of an iteration of `RunFuse`. -/
def nodeStates (tree : DomTree) (maxFuseDepth : Int) (phase : Nat) (gs : Groups) (nid : Nat) :
    List Groups :=
  match nodeAction d g tree maxFuseDepth phase gs nid with
  | none => []
  | some (gs, none) => [gs]
  | some (gs, some (sink, fcond)) => gs ::
    match checkPath g nid sink fcond gs with
    | none => []
    | some (ok, gs) => gs ::
      if ok then (commitFuseStates_ d g sink (g.size + 1) nid ([], gs)).map Prod.snd else []

/-- The states of `Partition`, from `InitGroup` through the three phases of `RunFuse`. -/
def partitionStates (optLevel maxFuseDepth : Int) : List Groups :=
  if optLevel = 0 then [initGroup g]
  else
    match DominatorTree.postDom g with
    | none => [initGroup g]
    | some tree => loopStates (runFuse d g tree maxFuseDepth)
        (fun gs phase => loopStates (runFuseNode d g tree maxFuseDepth phase)
          (nodeStates d g tree maxFuseDepth phase) (List.range g.size) gs) [0, 1, 2] (initGroup g)

end States

/-- An invariant of the rounds and of the states inside them. -/
theorem loopStates_forall {α σ : Type} {step : σ → α → Option σ} {inside : σ → α → List σ}
    {P Q : σ → Prop} {xs : List α} (hPQ : ∀ s, P s → Q s)
    (hin : ∀ x ∈ xs, ∀ s, P s → ∀ s' ∈ inside s x, Q s')
    (hstep : ∀ x ∈ xs, ∀ s s', P s → step s x = some s' → P s') (s : σ) (hs : P s) :
    ∀ s' ∈ loopStates step inside xs s, Q s' := by
  induction xs generalizing s with
  | nil =>
    intro s' hs'
    rw [List.mem_singleton.mp hs']
    exact hPQ s hs
  | cons x xs ih =>
    intro s' hs'
    cases List.mem_cons.mp hs' with
    | inl heq =>
      rw [heq]
      exact hPQ s hs
    | inr hs' =>
      cases List.mem_append.mp hs' with
      | inl hs' => exact hin x List.mem_cons_self s hs s' hs'
      | inr hs' =>
        cases hrun : step s x with
        | none =>
          rw [hrun] at hs'
          cases hs'
        | some s₁ =>
          rw [hrun] at hs'
          exact ih (fun y hy => hin y (List.mem_cons_of_mem _ hy))
            (fun y hy => hstep y (List.mem_cons_of_mem _ hy)) s₁
            (hstep x List.mem_cons_self s s₁ hs hrun) s' hs'

/-- The result of a loop is one of its states. -/
theorem foldlM_mem_loopStates {α σ : Type} {step : σ → α → Option σ} {inside : σ → α → List σ}
    (xs : List α) (s s' : σ) (hrun : xs.foldlM step s = some s') :
    s' ∈ loopStates step inside xs s := by
  induction xs generalizing s with
  | nil => exact List.mem_singleton.mpr (Option.some.inj hrun).symm
  | cons x xs ih =>
    rw [List.foldlM_cons] at hrun
    cases hstep : step s x with
    | none => simp [hstep] at hrun
    | some s₁ =>
      rw [hstep] at hrun
      apply List.mem_cons_of_mem
      apply List.mem_append_right
      rw [hstep]
      exact ih s₁ hrun

/-- The result of `Partition` is one of its states. -/
theorem partition_mem_states (d : Dialect) (g : ForwardGraph) (optLevel maxFuseDepth : Int)
    (gs : Groups) (hrun : partition d g optLevel maxFuseDepth = some gs) :
    gs ∈ partitionStates d g optLevel maxFuseDepth := by
  unfold partition at hrun
  unfold partitionStates
  split at hrun
  · rename_i hopt
    rw [if_pos hopt]
    exact List.mem_singleton.mpr (Option.some.inj hrun).symm
  · rename_i hopt
    rw [if_neg hopt]
    cases htree : DominatorTree.postDom g with
    | none => simp [htree] at hrun
    | some tree =>
      simp only [htree, Option.bind_eq_bind, Option.bind_some] at hrun
      exact foldlM_mem_loopStates [0, 1, 2] _ gs hrun

/-- A node of pattern `OUT_ELEMWISE_FUSABLE`. -/
def HeavyNode (g : ForwardGraph) (i : Nat) : Prop := i < g.size ∧ g.pattern i = .outEWiseFusable

/-- A group has at most one heavy node, and the anchor of its root is this node. -/
structure Heavy (g : ForwardGraph) (gs : Groups) : Prop where
  forest : Forest g.size gs.parent
  anchored : Anchored gs
  unique : ∀ i j, HeavyNode g i → HeavyNode g j →
    rootOf g.size gs.parent i = rootOf g.size gs.parent j → i = j
  anchor : ∀ r, r < g.size → gs.parent r = none → ∀ ref, gs.anchorRef r = some ref ↔
    ∃ i, HeavyNode g i ∧ rootOf g.size gs.parent i = r ∧ g.ref i = ref

variable {g : ForwardGraph} {gs gs' : Groups}

theorem Compressed.heavy (h : Compressed g.size gs gs') (hh : Heavy g gs) : Heavy g gs' := by
  refine ⟨h.forest, h.anchored hh.anchored, fun i j hi hj heq => ?_, fun r hr hroot ref => ?_⟩
  · rw [h.root, h.root] at heq
    exact hh.unique i j hi hj heq
  · rw [h.anchorRef, hh.anchor r hr ((h.roots.none_iff hh.forest r).mp hroot) ref]
    simp only [h.root]

theorem heavy_initGroup (g : ForwardGraph) : Heavy g (initGroup g) := by
  have hroot (i : Nat) : rootOf g.size (initGroup g).parent i = i := rootOf_none rfl
  refine ⟨(closed_initGroup g).forest, (closed_initGroup g).anchored, fun i j _ _ heq => ?_,
    fun r hr _ ref => ?_⟩
  · rwa [hroot, hroot] at heq
  · simp only [hroot]
    show (if g.pattern r = .outEWiseFusable then some (g.ref r) else none) = some ref ↔ _
    constructor
    · intro href
      split at href
      · rename_i hpat
        exact ⟨r, ⟨hr, hpat⟩, rfl, Option.some.inj href⟩
      · cases href
    · intro hex
      obtain ⟨i, ⟨hi, hpat⟩, rfl, href⟩ := hex
      rw [if_pos hpat, href]

/-- The anchor after a merge; the assertion leaves one anchor at most. -/
theorem mergeFromTo_anchor {d : Dialect} {n child parent : Nat} (hf : Forest n gs.parent)
    (hne : rootOf n gs.parent child ≠ rootOf n gs.parent parent)
    (hrun : mergeFromTo d n child parent gs = some gs') :
    (gs.anchorRef (rootOf n gs.parent child) = none ∨
      gs.anchorRef (rootOf n gs.parent parent) = none) ∧
    gs'.anchorRef (rootOf n gs.parent parent) =
      (gs.anchorRef (rootOf n gs.parent child)).or (gs.anchorRef (rootOf n gs.parent parent)) := by
  obtain ⟨hc, hcomp⟩ := groupRoot_spec hf child
  obtain ⟨ht, hcomp'⟩ := groupRoot_spec hcomp.forest parent
  rw [hcomp.root] at ht
  have hcs := hcomp.trans hcomp'
  unfold mergeFromTo at hrun
  simp only [hc, ht, if_neg hne] at hrun
  rw [← hcs.anchorRef]
  cases hanc : (groupRoot n parent (groupRoot n child gs).2).2.anchorRef
      (rootOf n gs.parent child) with
  | none =>
    simp only [hanc, Option.some.injEq] at hrun
    rw [← hrun]
    exact ⟨Or.inl rfl, rfl⟩
  | some ref =>
    simp only [hanc] at hrun
    split at hrun
    · cases hrun
    · rename_i hnone
      have hnone' := not_not.mp hnone
      cases hpat : combinePattern d ((groupRoot n parent (groupRoot n child gs).2).2.pattern
          (rootOf n gs.parent child)) ((groupRoot n parent (groupRoot n child gs).2).2.pattern
          (rootOf n gs.parent parent)) with
      | none => simp [hpat] at hrun
      | some pat =>
        simp only [hpat, Option.bind_eq_bind, Option.bind_some, Option.some.injEq] at hrun
        rw [← hrun]
        exact ⟨Or.inr hnone', Function.update_self ..⟩

/-- Merging a group into a later one keeps one anchor in each group. -/
theorem Linked.heavy {c t : Nat} (hlink : Linked g.size c t gs gs') (hh : Heavy g gs)
    (hc : gs.parent c = none) (ht : gs.parent t = none) (hcn : c < g.size) (htn : t < g.size)
    (hanchor : c ≠ t → (gs.anchorRef c = none ∨ gs.anchorRef t = none) ∧
      gs'.anchorRef t = (gs.anchorRef c).or (gs.anchorRef t))
    (hsame : c = t → gs'.anchorRef t = gs.anchorRef t) : Heavy g gs' := by
  -- a heavy node is the anchor of its group
  have hown {i : Nat} (hi : HeavyNode g i) {r : Nat} (hr : rootOf g.size gs.parent i = r) :
      gs.anchorRef r = some (g.ref i) :=
    (hh.anchor r (hr ▸ rootOf_lt hh.forest i hi.1) (hr ▸ par_rootOf hh.forest i) _).mpr
      ⟨i, hi, hr, rfl⟩
  refine ⟨hlink.forest, hlink.anchored, fun i j hi hj heq => ?_, fun r hr hroot ref => ?_⟩
  · rw [hlink.roots, hlink.roots] at heq
    by_cases hct : c = t
    · subst hct
      apply hh.unique i j hi hj
      split at heq <;> split at heq <;> simp_all
    · have hone := (hanchor hct).1
      have hmixed {i j : Nat} (hi : HeavyNode g i) (hj : HeavyNode g j)
          (hic : rootOf g.size gs.parent i = c) (hjt : t = rootOf g.size gs.parent j) : False := by
        cases hone with
        | inl hno => rw [hown hi hic] at hno; cases hno
        | inr hno => rw [hown hj hjt.symm] at hno; cases hno
      split at heq
      · rename_i hic
        split at heq
        · rename_i hjc
          exact hh.unique i j hi hj (hic.trans hjc.symm)
        · exact (hmixed hi hj hic heq).elim
      · split at heq
        · rename_i hjc
          exact (hmixed hj hi hjc heq.symm).elim
        · exact hh.unique i j hi hj heq
  · simp only [hlink.roots]
    have hrold : gs.parent r = none := by
      rw [par_eq_none_iff hh.forest]
      have hself := rootOf_none (n := g.size) hroot
      rw [hlink.roots] at hself
      split at hself
      · rename_i hrc
        rw [← hself]
        exact rootOf_none ht
      · exact hself
    by_cases hrt : r = t
    · subst hrt
      by_cases hct : c = r
      · subst hct
        rw [hsame rfl, hh.anchor c hcn hc]
        apply exists_congr
        intro i
        apply and_congr_right
        intro _
        apply and_congr_left
        intro _
        split <;> simp_all
      · rw [(hanchor hct).2]
        constructor
        · intro href
          cases hcanc : gs.anchorRef c with
          | none =>
            rw [hcanc, Option.none_or] at href
            obtain ⟨i, hi, hir, hiref⟩ := (hh.anchor r hr hrold ref).mp href
            exact ⟨i, hi, by rw [hir, if_neg (Ne.symm hct)], hiref⟩
          | some ref' =>
            rw [hcanc, Option.some_or] at href
            obtain ⟨i, hi, hic, hiref⟩ := (hh.anchor c hcn hc ref').mp hcanc
            exact ⟨i, hi, by rw [if_pos hic], hiref.trans (Option.some.inj href)⟩
        · intro hex
          obtain ⟨i, hi, hir, rfl⟩ := hex
          split at hir
          · rename_i hic
            rw [hown hi hic, Option.some_or]
          · cases (hanchor hct).1 with
            | inl hno => rw [hno, Option.none_or, hown hi hir]
            | inr hno => rw [hown hi hir] at hno; cases hno
    · rw [hlink.anchorRef r hrt, hh.anchor r hr hrold ref]
      have hrc : r ≠ c := by
        rintro rfl
        have hself := rootOf_none (n := g.size) hroot
        rw [hlink.roots, if_pos (rootOf_none hc)] at hself
        exact hrt hself.symm
      apply exists_congr
      intro i
      apply and_congr_right
      intro _
      apply and_congr_left
      intro _
      constructor
      · intro hir
        rw [if_neg (fun hic => hrc (hir.symm.trans hic)), hir]
      · intro hir
        split at hir
        · exact absurd hir.symm hrt
        · exact hir

section Commit

variable {gs₀ : Groups} {src sink t : Nat}

/-- One merge of `CommitFuse_`. -/
theorem Merged.heavy (hc : Committable g gs₀ src sink t) {vs : List Nat}
    (h : Merged g.size t vs gs₀ gs) {d : Dialect} {s : Nat} (hs : g.Avoids sink src s)
    (hsn : s < g.size) (hanc : s ≠ src ∨ gs = gs₀) (hh : Heavy g gs)
    (hrun : mergeFromTo d g.size s sink gs = some gs') : Heavy g gs' := by
  have hsink := h.root_sink hc
  obtain ⟨gs₁, hrun₁, hlink, -⟩ := mergeFromTo_spec h.forest h.anchored d s sink
    (fun hne => (h.mergeable hc hs hanc hne).1) (fun hne => (h.mergeable hc hs hanc hne).2)
  obtain rfl := Option.some.inj (hrun.symm.trans hrun₁)
  have hself (i : Nat) := par_rootOf h.forest i
  apply hlink.heavy hh (hself s) (hself sink) (rootOf_lt h.forest s hsn)
    (by rw [hsink]; exact hc.sinkLt) (fun hne => mergeFromTo_anchor h.forest hne hrun)
  intro heq
  obtain ⟨hcr, hcomp⟩ := groupRoot_spec h.forest s
  obtain ⟨htr, hcomp'⟩ := groupRoot_spec hcomp.forest sink
  rw [hcomp.root] at htr
  unfold mergeFromTo at hrun
  simp only [hcr, htr, if_pos heq, Option.some.injEq] at hrun
  rw [← hrun, (hcomp.trans hcomp').anchorRef]

/-- The states in which `CommitFuse_` is entered. -/
structure Committing (g : ForwardGraph) (gs₀ : Groups) (src sink t : Nat) (st : List Nat × Groups) :
    Prop where
  source : src ∈ st.1
  visited : ∀ v ∈ st.1, g.Avoids sink src v
  merged : Merged g.size t st.1 gs₀ st.2
  heavy : Heavy g st.2

variable {d : Dialect}

/-- Entering a node: its group is merged, then its consumers are entered. -/
theorem commitFuse_heavy_enter (g : IndexedForwardGraph)
    (hc : Committable g.toForwardGraph gs₀ src sink t) (fuel s : Nat) (vs : List Nat) (gs : Groups)
    (hs : g.Avoids sink src s) (hsn : s < g.size) (hsv : s ∉ vs)
    (hvs : ∀ v ∈ vs, g.Avoids sink src v) (h : Merged g.size t vs gs₀ gs)
    (hh : Heavy g.toForwardGraph gs) (hfirst : src ∈ vs ∨ s = src ∧ gs = gs₀)
    (hrec : ∀ link ∈ g.outputs s, ∀ st, Committing g.toForwardGraph gs₀ src sink t st →
      (∀ st' ∈ commitFuseStates_ d g.toForwardGraph sink fuel link.node st,
        Heavy g.toForwardGraph st'.2) ∧
      ∀ st', commitFuse_ d g.toForwardGraph sink fuel link.node st = some st' →
        Committing g.toForwardGraph gs₀ src sink t st') :
    (∀ st' ∈ commitFuseStates_ d g.toForwardGraph sink (fuel + 1) s (vs, gs),
      Heavy g.toForwardGraph st'.2) ∧
    ∀ st', commitFuse_ d g.toForwardGraph sink (fuel + 1) s (vs, gs) = some st' →
      Committing g.toForwardGraph gs₀ src sink t st' := by
  have hanc : s ≠ src ∨ gs = gs₀ := by
    cases hfirst with
    | inl hsrc => exact Or.inl fun heq => hsv (heq ▸ hsrc)
    | inr hstart => exact Or.inr hstart.2
  obtain ⟨gs₁, hrun, hm₁, -⟩ := merged_step hc h d hs hanc
  have hstart : Committing g.toForwardGraph gs₀ src sink t (s :: vs, gs₁) := by
    refine ⟨?_, ?_, hm₁, h.heavy hc hs hsn hanc hh hrun⟩
    · cases hfirst with
      | inl hsrc => exact List.mem_cons_of_mem _ hsrc
      | inr hstart => exact hstart.1 ▸ List.mem_cons_self
    · intro v hv
      cases List.mem_cons.mp hv with
      | inl heq => exact heq ▸ hs
      | inr hv => exact hvs v hv
  have hnot : ¬ (s = sink ∨ s ∈ vs) := not_or.mpr ⟨hs.ne, hsv⟩
  constructor
  · intro st' hst'
    unfold commitFuseStates_ at hst'
    rw [if_neg hnot, hrun] at hst'
    exact loopStates_forall (P := Committing g.toForwardGraph gs₀ src sink t)
      (Q := fun st => Heavy g.toForwardGraph st.2) (fun st hst => hst.heavy)
      (fun link hl st hst => (hrec link hl st hst).1)
      (fun link hl st st' hst hstep => (hrec link hl st hst).2 st' hstep) _ hstart st' hst'
  · intro st' hst'
    unfold commitFuse_ at hst'
    rw [if_neg hs.ne, if_neg hsv, hrun] at hst'
    have hfold (links : List Edge) (hlinks : ∀ link ∈ links, link ∈ g.outputs s)
        (st : List Nat × Groups) (hst : Committing g.toForwardGraph gs₀ src sink t st)
        (hrun : links.foldlM (fun st link => commitFuse_ d g.toForwardGraph sink fuel link.node st)
          st = some st') : Committing g.toForwardGraph gs₀ src sink t st' := by
      induction links generalizing st with
      | nil => exact Option.some.inj hrun ▸ hst
      | cons link links ih =>
        rw [List.foldlM_cons] at hrun
        cases hstep : commitFuse_ d g.toForwardGraph sink fuel link.node st with
        | none => simp [hstep] at hrun
        | some st₁ =>
          rw [hstep] at hrun
          exact ih (fun l hl => hlinks l (List.mem_cons_of_mem _ hl)) st₁
            ((hrec link (hlinks link List.mem_cons_self) st hst).2 st₁ hstep) hrun
    exact hfold (g.outputs s) (fun _ hl => hl) _ hstart hst'

theorem commitFuse_heavy_ (g : IndexedForwardGraph)
    (hc : Committable g.toForwardGraph gs₀ src sink t) (fuel s : Nat) (st : List Nat × Groups)
    (hs : s = sink ∨ g.Avoids sink src s) (hsn : s < g.size)
    (hst : Committing g.toForwardGraph gs₀ src sink t st) :
    (∀ st' ∈ commitFuseStates_ d g.toForwardGraph sink fuel s st, Heavy g.toForwardGraph st'.2) ∧
    ∀ st', commitFuse_ d g.toForwardGraph sink fuel s st = some st' →
      Committing g.toForwardGraph gs₀ src sink t st' := by
  induction fuel generalizing s st with
  | zero =>
    constructor
    · intro st' hst'
      cases hst'
    · intro st' hst'
      cases hst'
  | succ fuel ih =>
    obtain ⟨vs, gs⟩ := st
    by_cases hstop : s = sink ∨ s ∈ vs
    · constructor
      · intro st' hst'
        unfold commitFuseStates_ at hst'
        rw [if_pos hstop] at hst'
        cases hst'
      · intro st' hst'
        have heq : commitFuse_ d g.toForwardGraph sink (fuel + 1) s (vs, gs) = some (vs, gs) := by
          unfold commitFuse_
          cases hstop with
          | inl hsink => rw [if_pos hsink]
          | inr hv =>
            simp [hv]
        obtain rfl := Option.some.inj (heq.symm.trans hst')
        exact hst
    · obtain ⟨hne, hsv⟩ := not_or.mp hstop
      have hon := hs.resolve_left hne
      apply commitFuse_heavy_enter g hc fuel s vs gs hon hsn hsv hst.visited hst.merged hst.heavy
        (Or.inl hst.source)
      intro link hl st hst
      have hlt := g.forward s link hl
      apply ih link.node st ?_ hlt.2 hst
      by_cases hls : link.node = sink
      · exact Or.inl hls
      · exact Or.inr (hon.snoc ⟨link, hl, rfl⟩ hls)

/-- Every state of a commit has one anchor at most in each group. -/
theorem commitFuse_heavy (g : IndexedForwardGraph) (hc : Committable g.toForwardGraph gs₀ src sink t)
    (hne : src ≠ sink) (hsrc : src < g.size) (hh : Heavy g.toForwardGraph gs₀) :
    (∀ st' ∈ commitFuseStates_ d g.toForwardGraph sink (g.size + 1) src ([], gs₀),
      Heavy g.toForwardGraph st'.2) ∧
    ∀ gs', commitFuse d g.toForwardGraph src sink gs₀ = some gs' → Heavy g.toForwardGraph gs' := by
  obtain ⟨hstates, hend⟩ := commitFuse_heavy_enter (d := d) g hc g.size src [] gs₀ (.here src hne)
    hsrc (List.not_mem_nil) (fun _ h => by cases h) hc.merged hh (Or.inr ⟨rfl, rfl⟩) (by
      intro link hl st hst
      have hlt := g.forward src link hl
      apply commitFuse_heavy_ g hc g.size link.node st ?_ hlt.2 hst
      by_cases hls : link.node = sink
      · exact Or.inl hls
      · exact Or.inr (.next src link.node link.node hne ⟨link, hl, rfl⟩ (.here _ hls)))
  refine ⟨hstates, fun gs' hrun => ?_⟩
  unfold commitFuse at hrun
  rw [if_neg hne] at hrun
  cases hst : commitFuse_ d g.toForwardGraph sink (g.size + 1) src ([], gs₀) with
  | none => simp [hst] at hrun
  | some st =>
    simp only [hst, Option.bind_eq_bind, Option.bind_some, Option.some.injEq] at hrun
    rw [← hrun]
    exact (hend st hst).heavy

end Commit

section Run

variable (g : IndexedForwardGraph) {tree : DomTree}

/-- The states between the iterations. -/
structure Settled (g : ForwardGraph) (gs : Groups) : Prop where
  closed : Closed g gs
  heavy : Heavy g gs

/-- An iteration keeps one anchor at most in each group, in all of its states. -/
theorem runFuseNode_heavy (d : Dialect) (hb : DominatorTree.Built g.toForwardGraph 0 tree)
    (maxFuseDepth : Int) (phase nid : Nat) (hn : nid < g.size)
    (hs : Settled g.toForwardGraph gs) :
    (∀ gs' ∈ nodeStates d g.toForwardGraph tree maxFuseDepth phase gs nid,
      Heavy g.toForwardGraph gs') ∧
    ∀ gs', runFuseNode d g.toForwardGraph tree maxFuseDepth phase gs nid = some gs' →
      Settled g.toForwardGraph gs' := by
  obtain ⟨gs₁, action, haction, hcomp, hsafe⟩ := nodeAction_spec g d hb maxFuseDepth phase nid hn
    hs.closed
  obtain ⟨gsf, hrunf, hclosed, -⟩ := runFuseNode_spec g d hb maxFuseDepth phase nid hn hs.closed
  have hh₁ := hcomp.heavy hs.heavy
  have hc₁ := hcomp.closed hs.closed
  unfold nodeStates
  simp only at hrunf
  rw [runFuseNode_eq, haction, Option.bind_some] at hrunf ⊢
  cases action with
  | none =>
    constructor
    · intro gs' hgs'
      rw [List.mem_singleton.mp hgs']
      exact hh₁
    · intro gs' hrun
      obtain rfl := Option.some.inj hrun
      exact ⟨hc₁, hh₁⟩
  | some attempt =>
    obtain ⟨sink, fcond⟩ := attempt
    obtain ⟨hup, htest, -⟩ := hsafe sink fcond rfl
    have hne : nid ≠ sink := (hb.levelled.forest nid sink hup).1.ne
    have hext := ((hb.chosen nid (Nat.zero_le _) hn).dom sink hup).1
    obtain ⟨ok, gs₂, hcheck, hcomp₂, hok⟩ := checkPath_spec g nid sink fcond gs₁ hc₁.forest hext hne
    have hh₂ := hcomp₂.heavy hh₁
    have hc₂ := hcomp₂.closed hc₁
    simp only [hcheck]
    cases ok with
    | false =>
      constructor
      · intro gs' hgs'
        rcases List.mem_cons.mp hgs' with rfl | hgs'
        · exact hh₁
        · rw [List.mem_singleton.mp hgs']
          exact hh₂
      · intro gs' hrun
        have heq : act d g.toForwardGraph nid (gs₁, some (sink, fcond)) = some gs₂ := by
          simp [act, fuseAlong, hcheck]
        obtain rfl := Option.some.inj (heq.symm.trans hrun)
        exact ⟨hc₂, hh₂⟩
    | true =>
      have hcommit := committable_of_checked g hb hn hup hc₂ (by rw [hcomp₂.pattern]; exact htest) (by
        intro s j hs hj
        have h := hok rfl s j hs hj
        unfold PassesAt at h ⊢
        rw [hcomp₂.pattern, hcomp₂.root]
        exact h)
      obtain ⟨hstates, hend⟩ := commitFuse_heavy (d := d) g hcommit hne hn hh₂
      constructor
      · intro gs' hgs'
        rcases List.mem_cons.mp hgs' with rfl | hgs'
        · exact hh₁
        · rcases List.mem_cons.mp hgs' with rfl | hgs'
          · exact hh₂
          · obtain ⟨st, hst, rfl⟩ := List.mem_map.mp hgs'
            exact hstates st hst
      · intro gs' hrun
        obtain rfl := Option.some.inj (hrunf.symm.trans hrun)
        have heq : act d g.toForwardGraph nid (gs₁, some (sink, fcond)) =
            commitFuse d g.toForwardGraph nid sink gs₂ := by
          simp [act, fuseAlong, hcheck]
        exact ⟨hclosed, hend gsf (heq.symm.trans hrunf)⟩

theorem foldlM_settled {α : Type} {g : ForwardGraph} {f : Groups → α → Option Groups} {xs : List α}
    (hf : ∀ x ∈ xs, ∀ gs gs', Settled g gs → f gs x = some gs' → Settled g gs')
    (gs gs' : Groups) (hs : Settled g gs) (hrun : xs.foldlM f gs = some gs') : Settled g gs' := by
  induction xs generalizing gs with
  | nil => exact Option.some.inj hrun ▸ hs
  | cons x xs ih =>
    rw [List.foldlM_cons] at hrun
    cases hstep : f gs x with
    | none => simp [hstep] at hrun
    | some gs₁ =>
      rw [hstep] at hrun
      exact ih (fun y hy => hf y (List.mem_cons_of_mem _ hy)) gs₁
        (hf x List.mem_cons_self gs gs₁ hs hstep) hrun

theorem partitionStates_heavy (d : Dialect) (optLevel maxFuseDepth : Int) :
    ∀ gs ∈ partitionStates d g.toForwardGraph optLevel maxFuseDepth, Heavy g.toForwardGraph gs := by
  have hinit : Settled g.toForwardGraph (initGroup g.toForwardGraph) :=
    ⟨closed_initGroup _, heavy_initGroup _⟩
  unfold partitionStates
  split
  · intro gs hgs
    rw [List.mem_singleton.mp hgs]
    exact hinit.heavy
  · obtain ⟨tree, htree, hb⟩ := DominatorTree.postDom_built g
    rw [htree]
    have hnode (phase nid : Nat) (hnid : nid ∈ List.range g.size) (gs : Groups)
        (hs : Settled g.toForwardGraph gs) :=
      runFuseNode_heavy g d hb maxFuseDepth phase nid (List.mem_range.mp hnid) hs
    apply loopStates_forall (P := Settled g.toForwardGraph) (fun gs hs => hs.heavy)
    · intro phase _ gs hs
      apply loopStates_forall (P := Settled g.toForwardGraph) (fun gs hs => hs.heavy)
      · exact fun nid hnid gs hs => (hnode phase nid hnid gs hs).1
      · exact fun nid hnid gs gs' hs => (hnode phase nid hnid gs hs).2 gs'
      · exact hs
    · intro phase _ gs gs' hs hrun
      apply foldlM_settled (fun nid hnid gs gs' hs => (hnode phase nid hnid gs hs).2 gs') gs gs' hs hrun
    · exact hinit

end Run

/-- Two heavy operators are never in one group, in any state of a run; no assertion fails, and no two
complex groups are combined. -/
theorem heavy_never_fused (d : Dialect) (g : IndexedForwardGraph) (optLevel maxFuseDepth : Int) :
    (∀ gs ∈ partitionStates d g.toForwardGraph optLevel maxFuseDepth,
      (∀ i j, HeavyNode g.toForwardGraph i → HeavyNode g.toForwardGraph j →
        groupOf g.toForwardGraph gs i = groupOf g.toForwardGraph gs j → i = j) ∧
      ∀ r, r < g.size → gs.parent r = none →
        (∀ ref, gs.anchorRef r = some ref ↔
          ∃ i, HeavyNode g.toForwardGraph i ∧ groupOf g.toForwardGraph gs i = r ∧ g.ref i = ref) ∧
        (gs.anchorRef r ≠ none → .outEWiseFusable ≤ gs.pattern r)) ∧
    ∃ gs, partition { d with fatal := true } g.toForwardGraph optLevel maxFuseDepth = some gs := by
  constructor
  · intro gs hgs
    have hh := partitionStates_heavy g d optLevel maxFuseDepth gs hgs
    refine ⟨hh.unique, fun r hr hroot => ⟨hh.anchor r hr hroot, fun hsome => ?_⟩⟩
    rw [hh.anchored r hsome]
    exact Nat.le_refl _
  · obtain ⟨gs, hrun, -⟩ := partition_spec g { d with fatal := true } optLevel maxFuseDepth
    exact ⟨gs, hrun⟩

end StencilGraph.Fuse.GraphPartitioner

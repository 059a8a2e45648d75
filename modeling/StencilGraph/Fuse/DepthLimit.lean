import Mathlib.Algebra.BigOperators.Group.Finset.Basic
import Mathlib.Algebra.Order.BigOperators.Group.Finset
import StencilGraph.Fuse.CreatorAgrees
import StencilGraph.Fuse.NodeAction

namespace StencilGraph.Fuse.GraphPartitioner
open Framework

section Tally

variable {numNodes : Nat → Nat} {sink : Nat} {vs : List Nat}

/-- A counting search adds the records of the nodes it visits. -/
def Tallies (g : ForwardGraph) (numNodes : Nat → Nat) (sink : Nat) (srcs : List Nat) (start : Nat)
    (vs : List Nat) (run : Option (Nat × List Nat)) : Prop :=
  ∃ total vs', run = some (total, vs') ∧ vs'.Nodup ∧
    total + (vs.map numNodes).sum = start + (vs'.map numNodes).sum ∧
    (∀ s ∈ srcs, s ∈ sink :: vs') ∧ Searched g sink (fun _ => True) (sink :: vs) (sink :: vs')

theorem foldlM_tallies {g : ForwardGraph} {f : Dialect → Nat → List Nat → Option (Nat × List Nat)}
    {links : List Edge}
    (hf : ∀ link ∈ links, ∀ vs, vs.Nodup →
      Tallies g numNodes sink [link.node] 0 vs (f .python link.node vs))
    (total : Nat) (vs : List Nat) (hvs : vs.Nodup) :
    Tallies g numNodes sink (links.map Edge.node) total vs
      (links.foldlM (countStep f .python) (total, vs)) := by
  induction links generalizing total vs with
  | nil => exact ⟨total, vs, rfl, hvs, rfl, by simp, Searched.refl _⟩
  | cons link links ih =>
    obtain ⟨count, vs₁, h₁, hvs₁, hsum₁, hin₁, hs₁⟩ := hf link List.mem_cons_self vs hvs
    obtain ⟨total', vs₂, h₂, hvs₂, hsum₂, hin₂, hs₂⟩ :=
      ih (fun l hl => hf l (List.mem_cons_of_mem _ hl)) (total + count) vs₁ hvs₁
    refine ⟨total', vs₂, ?_, hvs₂, by omega, ?_, hs₁.trans hs₂⟩
    · rw [List.foldlM_cons]
      simp only [countStep, h₁, Option.bind_eq_bind, Option.bind_some]
      exact h₂
    · intro s hs
      cases List.mem_cons.mp hs with
      | inl heq => exact hs₂.keep s (heq ▸ hin₁ link.node List.mem_cons_self)
      | inr hs => exact hin₂ s hs

theorem countNodesUptoSink_tallies (g : IndexedForwardGraph) (numNodes : Nat → Nat)
    (sink fuel src : Nat) (vs : List Nat) (hvs : vs.Nodup) (hfuel : g.size < src + fuel)
    (hsrc : src < g.size) : Tallies g.toForwardGraph numNodes sink [src] 0 vs
      (countNodesUptoSink_ .python g.toForwardGraph numNodes sink fuel src vs) := by
  induction fuel generalizing src vs with
  | zero => omega
  | succ fuel ih =>
    unfold countNodesUptoSink_
    by_cases hstop : src = sink ∨ src ∈ vs
    · refine ⟨0, vs, by rw [if_pos hstop], hvs, rfl, ?_, Searched.refl _⟩
      intro s hs
      rw [List.mem_singleton.mp hs]
      exact List.mem_cons.mpr hstop
    · obtain ⟨hne, hnew⟩ := not_or.mp hstop
      have hrec : ∀ link ∈ g.outputs src, ∀ vs, vs.Nodup →
          Tallies g.toForwardGraph numNodes sink [link.node] 0 vs
            (countNodesUptoSink_ .python g.toForwardGraph numNodes sink fuel link.node vs) := by
        intro link hl vs hvs
        have := g.forward src link hl
        exact ih link.node vs hvs (by omega) this.2
      obtain ⟨total, vs₁, h₁, hvs₁, hsum, hin, hs⟩ := foldlM_tallies
        (f := fun d => countNodesUptoSink_ d g.toForwardGraph numNodes sink fuel) hrec
        (numNodes src) (src :: vs) (List.nodup_cons.mpr ⟨hnew, hvs⟩)
      rw [List.map_cons, List.sum_cons] at hsum
      have hkeep := hs.keep src (by simp)
      refine ⟨total, vs₁, by rw [if_neg hstop]; exact h₁, hvs₁, by omega, ?_, ?_⟩
      · intro s hs
        rw [List.mem_singleton.mp hs]
        exact hkeep
      · have hswap : Searched g.toForwardGraph sink (fun _ => True) (src :: sink :: vs)
            (sink :: vs₁) :=
          ⟨fun v hv => hs.keep v (by simp at hv ⊢; tauto), fun _ _ _ => trivial,
            fun v hv hn => hs.closed v hv (by simp at hn ⊢; tauto)⟩
        refine hswap.enter (by simp [hne, hnew]) trivial fun _ j hj => ?_
        obtain ⟨e, he, rfl⟩ := hj
        exact hin e.node (List.mem_map_of_mem he)

/-- The count takes in the record of every node on the paths to the post-dominator. -/
theorem sum_le_count (g : IndexedForwardGraph) {gs gs' : Groups} {child domParent count : Nat}
    (hf : Forest g.size gs.parent) (hchild : child < g.size) {A : Finset Nat}
    (hA : ∀ s ∈ A, g.Avoids domParent child s)
    (hcount : countFusedNodesWithNewChild .python g.toForwardGraph child domParent gs =
      some (count, gs')) :
    gs.numNodes (rootOf g.size gs.parent domParent) + ∑ s ∈ A, gs.numNodes s ≤ count := by
  obtain ⟨hroot, hcomp⟩ := groupRoot_spec hf domParent
  obtain ⟨total, vs, htotal, hvs, hsum, hin, hs⟩ := countNodesUptoSink_tallies g
    (groupRoot g.size domParent gs).2.numNodes domParent (g.size + 1) child [] List.nodup_nil
    (by omega) hchild
  unfold countFusedNodesWithNewChild at hcount
  split at hcount
  · cases hcount
  · rename_i hne
    simp only [htotal, Option.bind_eq_bind, Option.bind_some, Option.some.injEq,
      Prod.mk.injEq] at hcount
    rw [← hcount.1, hroot, hcomp.numNodes]
    rw [hcomp.numNodes] at hsum
    have hreach : ∀ s, g.Avoids domParent child s → s ∈ vs := by
      intro s hs'
      have hmem : ∀ i, g.Avoids domParent i s → i ∈ vs → s ∈ vs := by
        intro i ha
        induction ha with
        | here i _ => exact id
        | next i j s hi hj ht ih =>
          intro hi'
          have hjs : j ≠ domParent := by cases ht <;> assumption
          have hclosed := hs.closed i (List.mem_cons_of_mem _ hi') (by simpa using hi) hi j hj
          exact ih hs' ((List.mem_cons.mp hclosed).resolve_left hjs)
      have hchild' := hin child List.mem_cons_self
      exact hmem child hs' ((List.mem_cons.mp hchild').resolve_left hne)
    have hle : ∑ s ∈ A, gs.numNodes s ≤ ∑ s ∈ vs.toFinset, gs.numNodes s := by
      apply Finset.sum_le_sum_of_subset
      intro s hs'
      exact List.mem_toFinset.mpr (hreach s (hA s hs'))
    rw [List.sum_toFinset _ hvs] at hle
    have htotal : total = (vs.map gs.numNodes).sum := by simpa using hsum
    exact Nat.add_le_add_left (hle.trans_eq htotal.symm) _

end Tally

/-- No group is larger than the limit. -/
def Limited (g : ForwardGraph) (maxFuseDepth : Int) (gs : Groups) : Prop :=
  ∀ r, r < g.size → gs.parent r = none →
    ((groupNodes g.size gs.parent r).card : Int) ≤ maxFuseDepth

section Limit

variable (g : IndexedForwardGraph) {tree : DomTree} {gs gs' : Groups} {maxFuseDepth : Int}

theorem Compressed.limited {g : ForwardGraph} (h : Compressed g.size gs gs')
    (hf : Forest g.size gs.parent) (hl : Limited g maxFuseDepth gs) : Limited g maxFuseDepth gs' := by
  intro r hr hroot
  have hsame : groupNodes g.size gs'.parent r = groupNodes g.size gs.parent r := by
    unfold groupNodes
    simp only [h.root]
  rw [hsame]
  exact hl r hr ((h.roots.none_iff hf r).mp hroot)

/-- The group that a commit makes consists of the group of the sink and of the groups whose roots lie
on the paths. -/
theorem card_merged_le (hb : DominatorTree.Built g.toForwardGraph 0 tree) {src sink : Nat}
    (hsrc : src < g.size) (hup : tree.up src = some sink) (hc : Closed g.toForwardGraph gs)
    (hcount : Counted g.size gs) {vs : List Nat}
    (hm : Merged g.size (rootOf g.size gs.parent sink) vs gs gs')
    (hvs : ∀ s, s ∈ vs ↔ g.Avoids sink src s) :
    (groupNodes g.size gs'.parent (rootOf g.size gs.parent sink)).card ≤
      gs.numNodes (rootOf g.size gs.parent sink) + ∑ s ∈ vs.toFinset, gs.numNodes s := by
  have hsinkLt := hb.levelled.forest src sink hup
  have hroot := hcount.root (rootOf g.size gs.parent sink) (rootOf_lt hc.forest sink hsinkLt.2)
    (par_rootOf hc.forest sink)
  -- the nodes on the paths that are roots
  have hsub : groupNodes g.size gs'.parent (rootOf g.size gs.parent sink) ⊆
      groupNodes g.size gs.parent (rootOf g.size gs.parent sink) ∪
        (vs.toFinset.filter fun s => rootOf g.size gs.parent s = s).biUnion
          (groupNodes g.size gs.parent) := by
    intro j hj
    obtain ⟨hjn, hjt⟩ := Finset.mem_filter.mp hj
    have hold {r : Nat} (hr : rootOf g.size gs.parent j = r) : j ∈ groupNodes g.size gs.parent r :=
      Finset.mem_filter.mpr ⟨hjn, hr⟩
    rw [Finset.mem_union]
    rcases hm.cases j with ⟨v, hv, hjv, -⟩ | hkeep
    · rcases root_on_path g hb hsrc hup hc v ((hvs v).mp hv) with hon | hsink
      · refine Or.inr (Finset.mem_biUnion.mpr ⟨rootOf g.size gs.parent v, ?_, hold hjv⟩)
        exact Finset.mem_filter.mpr ⟨List.mem_toFinset.mpr ((hvs _).mpr hon),
          rootOf_idem hc.forest v⟩
      · exact Or.inl (hold (hjv.trans hsink))
    · exact Or.inl (hold (hkeep.symm.trans hjt))
  calc (groupNodes g.size gs'.parent (rootOf g.size gs.parent sink)).card
      ≤ (groupNodes g.size gs.parent (rootOf g.size gs.parent sink)).card +
          ((vs.toFinset.filter fun s => rootOf g.size gs.parent s = s).biUnion
            (groupNodes g.size gs.parent)).card :=
        (Finset.card_le_card hsub).trans (Finset.card_union_le _ _)
    _ ≤ (groupNodes g.size gs.parent (rootOf g.size gs.parent sink)).card +
          ∑ s ∈ vs.toFinset.filter fun s => rootOf g.size gs.parent s = s,
            (groupNodes g.size gs.parent s).card := by
        exact Nat.add_le_add_left Finset.card_biUnion_le _
    _ = gs.numNodes (rootOf g.size gs.parent sink) +
          ∑ s ∈ vs.toFinset.filter fun s => rootOf g.size gs.parent s = s, gs.numNodes s := by
        rw [hroot]
        congr 1
        apply Finset.sum_congr rfl
        intro s hs
        obtain ⟨hsv, hself⟩ := Finset.mem_filter.mp hs
        have hsn := (avoids_dom g hb hsrc hup ((hvs s).mp (List.mem_toFinset.mp hsv))).1
        exact (hcount.root s hsn ((par_eq_none_iff hc.forest s).mpr hself)).symm
    _ ≤ gs.numNodes (rootOf g.size gs.parent sink) + ∑ s ∈ vs.toFinset, gs.numNodes s := by
        exact Nat.add_le_add_left (Finset.sum_le_sum_of_subset (Finset.filter_subset _ _)) _

/-- A commit that was counted keeps the groups below the limit. -/
theorem fuseAlong_limited (hb : DominatorTree.Built g.toForwardGraph 0 tree) {src sink : Nat}
    (hsrc : src < g.size) (hup : tree.up src = some sink) (hc : Closed g.toForwardGraph gs)
    (hcount : Counted g.size gs) (hlim : Limited g.toForwardGraph maxFuseDepth gs)
    {fcond : OpPattern → Bool → Bool} (hsafe : SafeTest fcond (gs.pattern src))
    (hle : ∀ A : Finset Nat, (∀ s ∈ A, g.Avoids sink src s) →
      ((gs.numNodes (rootOf g.size gs.parent sink) + ∑ s ∈ A, gs.numNodes s : Nat) : Int) ≤
        maxFuseDepth)
    (hrun : fuseAlong .python g.toForwardGraph src sink fcond gs = some gs') :
    Limited g.toForwardGraph maxFuseDepth gs' := by
  have hne : src ≠ sink := (hb.levelled.forest src sink hup).1.ne
  have hext := ((hb.chosen src (Nat.zero_le _) hsrc).dom sink hup).1
  obtain ⟨ok, gs₁, hcheck, hcomp, hok⟩ := checkPath_spec g src sink fcond gs hc.forest hext hne
  cases ok with
  | false =>
    have heq : fuseAlong .python g.toForwardGraph src sink fcond gs = some gs₁ := by
      simp [fuseAlong, hcheck]
    obtain rfl := Option.some.inj (heq.symm.trans hrun)
    exact hcomp.limited hc.forest hlim
  | true =>
    have hc₁ := hcomp.closed hc
    have hcount₁ := hcomp.counted hc.forest hcount
    have hlim₁ := hcomp.limited hc.forest hlim
    have hcommit := committable_of_checked g hb hsrc hup hc₁
      (by rw [hcomp.pattern]; exact hsafe) (by
        intro s j hs hj
        have h := hok rfl s j hs hj
        unfold PassesAt at h ⊢
        rw [hcomp.pattern, hcomp.root]
        exact h)
    obtain ⟨vs, gs₂, hrun₂, hm, hvs, -⟩ := commitFuse_spec g .python hcommit hne
    have heq : fuseAlong .python g.toForwardGraph src sink fcond gs = some gs₂ := by
      simp [fuseAlong, hcheck, hrun₂]
    obtain rfl := Option.some.inj (heq.symm.trans hrun)
    intro r hr hroot
    by_cases hrt : r = rootOf g.size gs₁.parent sink
    · subst hrt
      have hcard := card_merged_le g hb hsrc hup hc₁ hcount₁ hm hvs
      have hbound := hle vs.toFinset fun s hs => (hvs s).mp (List.mem_toFinset.mp hs)
      rw [hcomp.numNodes, hcomp.root] at hcard
      rw [hcomp.root]
      exact (Int.ofNat_le.mpr hcard).trans hbound
    · -- the other groups have lost nodes at most
      have hkept : rootOf g.size gs₁.parent r = r := by
        have hself := rootOf_none (n := g.size) hroot
        rcases hm.cases r with ⟨_, _, _, ht⟩ | hkeep
        · exact absurd (hself.symm.trans ht) hrt
        · rw [← hkeep, hself]
      have hsub : groupNodes g.size gs₂.parent r ⊆ groupNodes g.size gs₁.parent r := by
        intro j hj
        obtain ⟨hjn, hjr⟩ := Finset.mem_filter.mp hj
        apply Finset.mem_filter.mpr ⟨hjn, ?_⟩
        rcases hm.cases j with ⟨_, _, _, ht⟩ | hkeep
        · exact absurd (hjr.symm.trans ht) hrt
        · rw [← hkeep, hjr]
      have hold := hlim₁ r hr ((par_eq_none_iff hc₁.forest r).mpr hkept)
      exact (Int.ofNat_le.mpr (Finset.card_le_card hsub)).trans hold

theorem runFuseNode_limited (hb : DominatorTree.Built g.toForwardGraph 0 tree) (phase nid : Nat)
    (hn : nid < g.size) (hc : Closed g.toForwardGraph gs) (hcount : Counted g.size gs)
    (hlim : Limited g.toForwardGraph maxFuseDepth gs)
    (hrun : runFuseNode .python g.toForwardGraph tree maxFuseDepth phase gs nid = some gs') :
    Limited g.toForwardGraph maxFuseDepth gs' := by
  obtain ⟨gs₁, action, haction, hcomp, hsafe⟩ := nodeAction_spec g .python hb maxFuseDepth phase nid
    hn hc
  rw [runFuseNode_eq, haction, Option.bind_some] at hrun
  have hlim₁ := hcomp.limited hc.forest hlim
  cases action with
  | none =>
    obtain rfl := Option.some.inj hrun
    exact hlim₁
  | some attempt =>
    obtain ⟨sink, fcond⟩ := attempt
    obtain ⟨hup, htest, count, gs₂, hcounted, hmax⟩ := hsafe sink fcond rfl
    apply fuseAlong_limited g hb hn hup (hcomp.closed hc) (hcomp.counted hc.forest hcount) hlim₁
      htest ?_ hrun
    intro A hA
    have hle := sum_le_count g hc.forest hn hA hcounted
    rw [hcomp.numNodes, hcomp.root]
    exact (Int.ofNat_le.mpr hle).trans hmax

end Limit

/-- The groups are counted and below the limit. -/
structure Sized (g : ForwardGraph) (maxFuseDepth : Int) (gs : Groups) : Prop where
  closed : Closed g gs
  counted : Counted g.size gs
  limited : Limited g maxFuseDepth gs

theorem foldlM_sized {α : Type} {g : ForwardGraph} {maxFuseDepth : Int}
    {f : Groups → α → Option Groups} {xs : List α}
    (hf : ∀ x ∈ xs, ∀ gs, Sized g maxFuseDepth gs →
      ∃ gs', f gs x = some gs' ∧ Sized g maxFuseDepth gs')
    (gs : Groups) (hs : Sized g maxFuseDepth gs) :
    ∃ gs', xs.foldlM f gs = some gs' ∧ Sized g maxFuseDepth gs' := by
  induction xs generalizing gs with
  | nil => exact ⟨gs, rfl, hs⟩
  | cons x xs ih =>
    obtain ⟨gs₁, h₁, hs₁⟩ := hf x List.mem_cons_self gs hs
    obtain ⟨gs₂, h₂, hs₂⟩ := ih (fun y hy => hf y (List.mem_cons_of_mem _ hy)) gs₁ hs₁
    exact ⟨gs₂, by rw [List.foldlM_cons, h₁]; exact h₂, hs₂⟩

theorem fits_python (n : Nat) : Fits .python n := fun _ _ => rfl

theorem sized_initGroup (g : ForwardGraph) {maxFuseDepth : Int} (hmax : 1 ≤ maxFuseDepth) :
    Sized g maxFuseDepth (initGroup g) := by
  refine ⟨closed_initGroup g, counted_initGroup g, fun r hr hroot => ?_⟩
  rw [← (counted_initGroup g).root r hr hroot]
  exact hmax

theorem partition_sized (g : IndexedForwardGraph) (optLevel : Int) {maxFuseDepth : Int}
    (hmax : 1 ≤ maxFuseDepth) : ∃ gs,
      partition .python g.toForwardGraph optLevel maxFuseDepth = some gs ∧
      Sized g.toForwardGraph maxFuseDepth gs := by
  have hinit := sized_initGroup g.toForwardGraph hmax
  unfold partition
  split
  · exact ⟨_, rfl, hinit⟩
  · obtain ⟨tree, htree, hb⟩ := DominatorTree.postDom_built g
    simp only [htree, Option.bind_eq_bind, Option.bind_some]
    refine foldlM_sized (fun phase _ gs hs => ?_) _ hinit
    refine foldlM_sized (fun nid hnid gs hs => ?_) gs hs
    have hn := List.mem_range.mp hnid
    obtain ⟨gs', hrun, hc, hcount⟩ := runFuseNode_spec g .python hb maxFuseDepth phase nid hn hs.closed
    refine ⟨gs', hrun, hc, (hcount (fits_python _) hs.counted).1, ?_⟩
    exact runFuseNode_limited g hb phase nid hn hs.closed hs.counted hs.limited hrun

/-- Two element-wise operators in a row. -/
def pairGraph : IndexedForwardGraph where
  postDfsOrder := [⟨0, false, .elemWise, [⟨1, .elemWise⟩]⟩, ⟨1, true, .elemWise, []⟩]
  forward i e he := by
    rcases i with _ | _ | i
    · obtain rfl : e = ⟨1, .elemWise⟩ := by simpa [ForwardGraph.outputs] using he
      exact ⟨Nat.zero_lt_one, by decide⟩
    · simp [ForwardGraph.outputs] at he
    · simp [ForwardGraph.outputs] at he

end StencilGraph.Fuse.GraphPartitioner

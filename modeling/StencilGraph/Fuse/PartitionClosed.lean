import Mathlib.Data.List.Nodup
import Mathlib.Data.List.Perm.Subperm
import StencilGraph.Fuse.FuseStep

namespace StencilGraph.Fuse.GraphPartitioner
open Framework

section Count

variable {g : ForwardGraph} {d : Dialect} {numNodes : Nat → Nat} {sink : Nat}

/-- `visited_` without repetitions, inside the graph. -/
def Visits (n : Nat) (vs : List Nat) : Prop := vs.Nodup ∧ ∀ v ∈ vs, v < n

theorem Visits.length_le {n : Nat} {vs : List Nat} (h : Visits n vs) : vs.length ≤ n := by
  have hsub : vs ⊆ List.range n := fun v hv => List.mem_range.mpr (h.2 v hv)
  simpa using (h.1.subperm hsub).length_le

/-- The counting search ends; without overflow it adds at most `n` for each node it visits. -/
def CountSpec (d : Dialect) (n : Nat) (numNodes : Nat → Nat) (bound : Nat) (vs : List Nat)
    (run : Dialect → Option (Nat × List Nat)) : Prop :=
  ∃ total vs', run d = some (total, vs') ∧ Visits n vs' ∧
    (Fits d n → (∀ i, i < n → numNodes i ≤ n) →
      total + n * vs.length ≤ bound + n * vs'.length ∧ run .python = some (total, vs'))

/-- The sum over the consumers of a node. -/
def countStep (f : Dialect → Nat → List Nat → Option (Nat × List Nat)) (d : Dialect)
    (acc : Nat × List Nat) (link : Edge) : Option (Nat × List Nat) := do
  let (count, visited) ← f d link.node acc.2
  some (d.wrap (acc.1 + count), visited)

theorem foldlM_counted {n : Nat} {f : Dialect → Nat → List Nat → Option (Nat × List Nat)}
    {links : List Edge}
    (hf : ∀ link ∈ links, ∀ vs, Visits n vs →
      CountSpec d n numNodes 0 vs (fun d => f d link.node vs))
    (total : Nat) (vs : List Nat) (hvs : Visits n vs) :
    ∃ total' vs', links.foldlM (countStep f d) (total, vs) = some (total', vs') ∧ Visits n vs' ∧
      (Fits d n → (∀ i, i < n → numNodes i ≤ n) → total ≤ n * vs.length →
        total' + n * vs.length ≤ total + n * vs'.length ∧
        links.foldlM (countStep f .python) (total, vs) = some (total', vs')) := by
  induction links generalizing total vs with
  | nil => exact ⟨total, vs, rfl, hvs, fun _ _ _ => ⟨le_rfl, rfl⟩⟩
  | cons link links ih =>
    obtain ⟨count, vs₁, h₁, hvs₁, hb₁⟩ := hf link (by simp) vs hvs
    obtain ⟨total', vs₂, h₂, hvs₂, hb₂⟩ :=
      ih (fun l hl => hf l (by simp [hl])) (d.wrap (total + count)) vs₁ hvs₁
    simp only at h₁ hb₁
    refine ⟨total', vs₂, by simp [List.foldlM_cons, countStep, h₁]; exact h₂, hvs₂, ?_⟩
    intro hfits hnum htotal
    obtain ⟨hle₁, hp₁⟩ := hb₁ hfits hnum
    have hsum : total + count ≤ n * vs₁.length := by omega
    have hwrap : d.wrap (total + count) = total + count :=
      hfits _ (hsum.trans (Nat.mul_le_mul_left n hvs₁.length_le))
    rw [hwrap] at hb₂
    obtain ⟨hle₂, hp₂⟩ := hb₂ hfits hnum hsum
    refine ⟨by omega, ?_⟩
    simp [List.foldlM_cons, countStep, hp₁]
    exact hp₂

theorem countNodesUptoSink_spec_ (g : IndexedForwardGraph) (numNodes : Nat → Nat) (sink fuel src : Nat)
    (vs : List Nat) (hvs : Visits g.size vs) (hfuel : g.size < src + fuel) (hsrc : src < g.size) :
    CountSpec d g.size numNodes 0 vs
      (fun d => countNodesUptoSink_ d g.toForwardGraph numNodes sink fuel src vs) := by
  induction fuel generalizing src vs with
  | zero => omega
  | succ fuel ih =>
    by_cases hstop : src = sink ∨ src ∈ vs
    · exact ⟨0, vs, by simp [countNodesUptoSink_, hstop], hvs,
        fun _ _ => ⟨by omega, by simp [countNodesUptoSink_, hstop]⟩⟩
    · have hvs' : Visits g.size (src :: vs) := by
        push Not at hstop
        exact ⟨List.nodup_cons.mpr ⟨hstop.2, hvs.1⟩, by simpa using ⟨hsrc, hvs.2⟩⟩
      have hrec : ∀ link ∈ g.outputs src, ∀ vs, Visits g.size vs →
          CountSpec d g.size numNodes 0 vs
            (fun d => countNodesUptoSink_ d g.toForwardGraph numNodes sink fuel link.node vs) := by
        intro link hl vs hvs
        have := g.forward src link hl
        exact ih link.node vs hvs (by omega) this.2
      obtain ⟨total, vs₁, h₁, hvs₁, hb₁⟩ := foldlM_counted
        (f := fun d => countNodesUptoSink_ d g.toForwardGraph numNodes sink fuel) hrec
        (numNodes src) (src :: vs) hvs'
      have heq (d : Dialect) :
          countNodesUptoSink_ d g.toForwardGraph numNodes sink (fuel + 1) src vs =
          (g.outputs src).foldlM (countStep
            (fun d => countNodesUptoSink_ d g.toForwardGraph numNodes sink fuel) d)
            (numNodes src, src :: vs) := by
        unfold countNodesUptoSink_
        rw [if_neg hstop]
        rfl
      refine ⟨total, vs₁, (heq d).trans h₁, hvs₁, ?_⟩
      intro hfits hnum
      have hn := hnum src hsrc
      have hlen : g.size * (src :: vs).length = g.size * vs.length + g.size := by
        rw [List.length_cons, Nat.mul_succ]
      obtain ⟨hle, hp⟩ := hb₁ hfits hnum (by omega)
      exact ⟨by omega, (heq _).trans hp⟩

theorem countFusedNodesWithNewChild_spec (g : IndexedForwardGraph) (d : Dialect)
    {gs : Groups} (hc : Closed g.toForwardGraph gs) (child domParent : Nat) (hne : child ≠ domParent)
    (hchild : child < g.size) :
    ∃ count gs', countFusedNodesWithNewChild d g.toForwardGraph child domParent gs =
        some (count, gs') ∧ Compressed g.size gs gs' ∧
      (Fits d g.size → Counted g.size gs →
        countFusedNodesWithNewChild .python g.toForwardGraph child domParent gs =
          some (count, gs')) := by
  obtain ⟨-, hcomp⟩ := groupRoot_spec hc.forest domParent
  obtain ⟨⟨target, gs₁⟩, hr⟩ : ∃ x, x = groupRoot g.size domParent gs := ⟨_, rfl⟩
  rw [← hr] at hcomp
  simp only at hcomp
  obtain ⟨count, vs, h, -, hp⟩ := countNodesUptoSink_spec_ (d := d) g gs₁.numNodes domParent
    (g.size + 1) child [] ⟨List.nodup_nil, by simp⟩ (by omega) hchild
  simp only at h hp
  refine ⟨gs₁.numNodes target + count, gs₁, ?_, hcomp, ?_⟩
  · simp [countFusedNodesWithNewChild, hne, ← hr, h]
  · intro hfits hcount
    obtain ⟨-, hp⟩ := hp hfits (hcomp.counted hc.forest hcount).le
    simp [countFusedNodesWithNewChild, hne, ← hr, hp]

end Count

section Run

variable (g : IndexedForwardGraph) {tree : DomTree} {gs : Groups}

theorem StepSpec.of_compressed {d : Dialect} {g : ForwardGraph} {gs gs' : Groups}
    {run : Dialect → Option Groups} (hc : Closed g gs) (h : Compressed g.size gs gs')
    (hs : StepSpec d g gs' run) : StepSpec d g gs run := by
  obtain ⟨gs₂, hrun, hclosed, hcount⟩ := hs
  exact ⟨gs₂, hrun, hclosed, fun hfits hcnt => hcount hfits (h.counted hc.forest hcnt)⟩

theorem safe_allInjective {p : OpPattern} (hp : p ≠ .outEWiseFusable) : SafeTest allInjective p :=
  ⟨fun _ h => by simpa [allInjective] using h, fun h => absurd h hp⟩

theorem safe_allBroadcast (p : OpPattern) : SafeTest allBroadcast p := by
  refine ⟨fun kind h => ?_, fun _ kind h => by simpa [allBroadcast] using h⟩
  have hle : kind ≤ .broadcast := by simpa [allBroadcast] using h
  exact Nat.le_trans hle (by decide)

theorem safe_injectiveUptoAnchor {p : OpPattern} (hp : p ≠ .outEWiseFusable) :
    SafeTest injectiveUptoAnchor p :=
  ⟨fun _ h => by simpa [injectiveUptoAnchor] using h, fun h => absurd h hp⟩

section Node

variable (d : Dialect) (hb : DominatorTree.Built g.toForwardGraph 0 tree) {nid domParent : Nat}
  (hn : nid < g.size) (hup : tree.up nid = some domParent)

include hb hn hup

theorem fuseByPattern_spec (hc : Closed g.toForwardGraph gs) (domPattern : OpPattern) (phase : Nat)
    (hop : gs.pattern nid ≠ .nonFusable) :
    StepSpec d g.toForwardGraph gs
      (fun d => fuseByPattern d g.toForwardGraph phase nid domParent domPattern gs) := by
  have hskip : StepSpec d g.toForwardGraph gs (fun _ => some gs) :=
    stepSpec_pure hc (Compressed.refl hc.forest)
  unfold fuseByPattern
  by_cases hout : gs.pattern nid = .outEWiseFusable
  · simp only [hout, if_true]
    split
    · exact hskip
    · split
      · exact fuseAlong_spec g d hb hn hup hc (safe_allBroadcast _)
      · exact hskip
  · simp only [hout, if_false]
    split
    · split
      · exact fuseAlong_spec g d hb hn hup hc (safe_injectiveUptoAnchor hout)
      · exact hskip
    · split
      · split
        · exact hskip
        · exact fuseAlong_spec g d hb hn hup hc (safe_allInjective hout)
      · have hcomm : gs.pattern nid = .commReduce := by
          rename_i hb hi
          revert hb hi hout hop
          cases gs.pattern nid <;> decide
        simp only [hcomm, if_true]
        exact hskip

theorem fuseIntoTuple_spec (hc : Closed g.toForwardGraph gs) :
    StepSpec d g.toForwardGraph gs (fun d => fuseIntoTuple d g.toForwardGraph nid domParent gs) := by
  unfold fuseIntoTuple
  split
  · exact stepSpec_pure hc (Compressed.refl hc.forest)
  · rename_i hinj
    obtain ⟨-, hcomp⟩ := groupRoot_spec hc.forest domParent
    have hc' := hcomp.closed hc
    refine StepSpec.of_compressed hc hcomp ?_
    simp only
    split
    · exact stepSpec_pure hc' (Compressed.refl hc'.forest)
    · split
      · refine fuseAlong_spec g d hb hn hup hc' (safe_allInjective ?_)
        rw [hcomp.pattern]
        intro hout
        exact hinj (by rw [hout]; decide)
      · exact stepSpec_pure hc' (Compressed.refl hc'.forest)

theorem fuseNode_spec (hc : Closed g.toForwardGraph gs) (domPattern : OpPattern) (phase : Nat)
    (hop : gs.pattern nid ≠ .nonFusable) :
    StepSpec d g.toForwardGraph gs
      (fun d => fuseNode d g.toForwardGraph phase nid domParent domPattern gs) := by
  unfold fuseNode
  split
  · exact fuseIntoTuple_spec g d hb hn hup hc
  · obtain ⟨-, hcomp₁⟩ := groupRoot_spec hc.forest nid
    obtain ⟨-, hcomp₂⟩ := groupRoot_spec hcomp₁.forest domParent
    have hcomp := hcomp₁.trans hcomp₂
    have hc' := hcomp.closed hc
    refine StepSpec.of_compressed hc hcomp ?_
    simp only
    split
    · exact stepSpec_pure hc' (Compressed.refl hc'.forest)
    · split
      · exact stepSpec_pure hc' (Compressed.refl hc'.forest)
      · refine fuseByPattern_spec g d hb hn hup hc' domPattern phase ?_
        rw [hcomp.pattern]
        exact hop

end Node

theorem runFuseNode_spec (d : Dialect) (hb : DominatorTree.Built g.toForwardGraph 0 tree)
    (maxFuseDepth : Int) (phase nid : Nat) (hn : nid < g.size) (hc : Closed g.toForwardGraph gs) :
    StepSpec d g.toForwardGraph gs
      (fun d => runFuseNode d g.toForwardGraph tree maxFuseDepth phase gs nid) := by
  obtain ⟨dn, hdn⟩ := hb.levelled.filled nid (Nat.zero_le _) hn
  have hup := DominatorTree.up_of_node hdn
  unfold runFuseNode
  simp only [hdn, Option.bind_eq_bind, Option.bind_some]
  by_cases hop : gs.pattern nid = .nonFusable
  · simp only [hop, if_true]
    exact stepSpec_pure hc (Compressed.refl hc.forest)
  simp only [hop, if_false]
  cases hpar : dn.parent with
  | none => exact stepSpec_pure hc (Compressed.refl hc.forest)
  | some domParent =>
    rw [hpar] at hup
    have hext := ((hb.chosen nid (Nat.zero_le _) hn).dom domParent hup).1
    have hne : nid ≠ domParent := (hb.levelled.forest nid domParent hup).1.ne
    obtain ⟨count, gs₁, hcount, hcomp, hpcount⟩ :=
      countFusedNodesWithNewChild_spec g d hc nid domParent hne hn
    have hc₁ := hcomp.closed hc
    have hrest : StepSpec d g.toForwardGraph gs₁ (fun d =>
        if (count : Int) > maxFuseDepth then some gs₁
        else fuseNode d g.toForwardGraph phase nid domParent dn.pattern gs₁) := by
      split
      · exact stepSpec_pure hc₁ (Compressed.refl hc₁.forest)
      · refine fuseNode_spec g d hb hn hup hc₁ dn.pattern phase ?_
        rw [hcomp.pattern]
        exact hop
    obtain ⟨gs', hrun, hclosed, hcnt⟩ := hrest
    simp only [hext, Bool.false_eq_true, if_false]
    refine ⟨gs', ?_, hclosed, fun hfits hcounted => ?_⟩
    · simp only [hcount, Option.bind_some]
      exact hrun
    · obtain ⟨hcounted', hp⟩ := hcnt hfits (hcomp.counted hc.forest hcounted)
      refine ⟨hcounted', ?_⟩
      simp only [hpcount hfits hcounted, Option.bind_some]
      exact hp

/-- A loop of steps is a step. -/
theorem foldlM_stepSpec {α : Type} {d : Dialect} {g : ForwardGraph}
    {f : Dialect → Groups → α → Option Groups} {xs : List α}
    (hf : ∀ x ∈ xs, ∀ gs, Closed g gs → StepSpec d g gs (fun d => f d gs x))
    (gs : Groups) (hc : Closed g gs) : StepSpec d g gs (fun d => xs.foldlM (f d) gs) := by
  induction xs generalizing gs with
  | nil => exact ⟨gs, rfl, hc, fun _ hcount => ⟨hcount, rfl⟩⟩
  | cons x xs ih =>
    obtain ⟨gs₁, h₁, hc₁, hp₁⟩ := hf x (by simp) gs hc
    obtain ⟨gs₂, h₂, hc₂, hp₂⟩ := ih (fun y hy => hf y (by simp [hy])) gs₁ hc₁
    simp only at h₁ h₂ hp₁ hp₂
    refine ⟨gs₂, by simp [List.foldlM_cons, h₁, h₂], hc₂, ?_⟩
    intro hfits hcount
    obtain ⟨hcount₁, hr₁⟩ := hp₁ hfits hcount
    obtain ⟨hcount₂, hr₂⟩ := hp₂ hfits hcount₁
    exact ⟨hcount₂, by simp [List.foldlM_cons, hr₁, hr₂]⟩

theorem closed_initGroup (g : ForwardGraph) : Closed g (initGroup g) := by
  refine ⟨by simp [Forest, initGroup], ?_, rfl, ?_⟩
  · intro i hi
    by_contra hne
    exact hi (by simp only [initGroup] at hne ⊢; rw [if_neg hne])
  · intro i _ hne
    exact absurd (rootOf_none rfl) hne

theorem counted_initGroup (g : ForwardGraph) : Counted g.size (initGroup g) := by
  constructor
  · intro r hr _
    have hone : groupNodes g.size (initGroup g).parent r = {r} := by
      ext j
      simp only [groupNodes, Finset.mem_filter, Finset.mem_range, Finset.mem_singleton,
        rootOf_none (show (initGroup g).parent j = none from rfl)]
      constructor
      · exact fun h => h.2
      · rintro rfl
        exact ⟨hr, rfl⟩
    rw [hone]
    rfl
  · intro i hi
    simp only [initGroup]
    omega

theorem partition_spec (d : Dialect) (optLevel maxFuseDepth : Int) :
    StepSpec d g.toForwardGraph (initGroup g.toForwardGraph)
      (fun d => partition d g.toForwardGraph optLevel maxFuseDepth) := by
  have hinit := closed_initGroup g.toForwardGraph
  unfold partition
  split
  · exact stepSpec_pure hinit (Compressed.refl hinit.forest)
  · obtain ⟨tree, htree, hb⟩ := DominatorTree.postDom_built g
    simp only [htree, Option.bind_eq_bind, Option.bind_some]
    refine foldlM_stepSpec (fun phase _ gs hc => ?_) _ hinit
    refine foldlM_stepSpec (fun nid hnid gs hc => ?_) gs hc
    exact runFuseNode_spec g d hb maxFuseDepth phase nid (List.mem_range.mp hnid) hc

end Run

/-- The group of a node, named by its root. -/
def groupOf (g : ForwardGraph) (gs : Groups) (i : Nat) : Nat := rootOf g.size gs.parent i

/-- Edges between different groups. -/
def GroupEdge (g : ForwardGraph) (gs : Groups) (a b : Nat) : Prop :=
  ∃ i j, g.Consumes i j ∧ groupOf g gs i = a ∧ groupOf g gs j = b ∧ a ≠ b

/-- Groups that can each be replaced by one function whose only result is the root. -/
structure ClosedGroups (g : ForwardGraph) (gs : Groups) : Prop where
  root_unique : ∀ i, i < g.size →
    ∃! r, r < g.size ∧ groupOf g gs r = groupOf g gs i ∧ gs.parent r = none
  not_extern : ∀ i, i < g.size → gs.parent i ≠ none → g.externRef i = false
  consumers : ∀ i, i < g.size → gs.parent i ≠ none →
    ∀ j, g.Consumes i j → groupOf g gs j = groupOf g gs i
  acyclic : ∀ a, ¬ Relation.TransGen (GroupEdge g gs) a a
  leaves_from_root : ∀ i j, g.Consumes i j → groupOf g gs j ≠ groupOf g gs i → gs.parent i = none

theorem groupEdge_lt (g : IndexedForwardGraph) {gs : Groups} (hc : Closed g.toForwardGraph gs)
    {a b : Nat} (h : GroupEdge g.toForwardGraph gs a b) : a < b := by
  obtain ⟨i, j, hcons, hi, hj, hne⟩ := h
  have hlt := g.consumes_lt hcons
  by_cases hroot : rootOf g.size gs.parent i = i
  · have hle := le_rootOf hc.forest j
    rw [← hi, ← hj]
    unfold groupOf
    omega
  · have hsame := (hc.inner i (by omega) hroot).2.2 j hcons
    exact absurd (hi.symm.trans (hsame.symm.trans hj)) hne

theorem closedGroups_of_closed (g : IndexedForwardGraph) {gs : Groups}
    (hc : Closed g.toForwardGraph gs) : ClosedGroups g.toForwardGraph gs := by
  have hinner (i : Nat) (hi : i < g.size) (hp : gs.parent i ≠ none) := by
    have hne : rootOf g.size gs.parent i ≠ i := fun h => hp ((par_eq_none_iff hc.forest i).mpr h)
    exact hc.inner i hi hne
  refine ⟨?_, fun i hi hp => (hinner i hi hp).1, fun i hi hp => (hinner i hi hp).2.2, ?_, ?_⟩
  · intro i hi
    refine ⟨rootOf g.size gs.parent i, ⟨rootOf_lt hc.forest i hi, rootOf_idem hc.forest i,
      par_rootOf hc.forest i⟩, ?_⟩
    rintro r ⟨-, hr, hnone⟩
    unfold groupOf at hr
    rw [← hr, rootOf_none hnone]
  · intro a ha
    have hlt : ∀ b, Relation.TransGen (GroupEdge g.toForwardGraph gs) a b → a < b := by
      intro b hab
      induction hab with
      | single h => exact groupEdge_lt g hc h
      | tail _ h ih => exact ih.trans (groupEdge_lt g hc h)
    exact (hlt a ha).ne rfl
  · intro i j hcons hne
    by_contra hp
    exact hne ((hinner i (by have := g.consumes_lt hcons; omega) hp).2.2 j hcons)

/-- `Partition` returns for every graph, level and depth, and its groups are closed. -/
theorem partition_closed (d : Dialect) (g : IndexedForwardGraph) (optLevel maxFuseDepth : Int) :
    ∃ gs, partition d g.toForwardGraph optLevel maxFuseDepth = some gs ∧
      ClosedGroups g.toForwardGraph gs := by
  obtain ⟨gs, hrun, hc, -⟩ := partition_spec g d optLevel maxFuseDepth
  exact ⟨gs, hrun, closedGroups_of_closed g hc⟩

end StencilGraph.Fuse.GraphPartitioner

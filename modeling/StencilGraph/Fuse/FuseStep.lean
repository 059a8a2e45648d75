import StencilGraph.Fuse.CommitFuse
import StencilGraph.Fuse.DominatorTree

namespace StencilGraph.Fuse

namespace ForwardGraph

variable {g : ForwardGraph} {p i s : Nat}

theorem Avoids.last (h : g.Avoids p i s) : s = i ∨ ∃ k, g.Avoids p i k ∧ g.Consumes k s := by
  induction h with
  | here => exact Or.inl rfl
  | next i j s hi hj _ ih =>
    rcases ih with rfl | ⟨k, hk, hks⟩
    · exact Or.inr ⟨i, .here i hi, hj⟩
    · exact Or.inr ⟨k, .next i j k hi hj hk, hks⟩

end ForwardGraph

namespace GraphPartitioner
open Framework

/-- A node that is not the root of its group is used only inside the group. -/
structure Closed (g : ForwardGraph) (gs : Groups) : Prop where
  forest : Forest g.size gs.parent
  anchored : Anchored gs
  rootRef : gs.rootRef = g.ref
  inner : ∀ i, i < g.size → rootOf g.size gs.parent i ≠ i → g.externRef i = false ∧
    g.outputs i ≠ [] ∧ ∀ j, g.Consumes i j → rootOf g.size gs.parent j = rootOf g.size gs.parent i

theorem Compressed.closed {g : ForwardGraph} {gs gs' : Groups} (h : Compressed g.size gs gs')
    (hc : Closed g gs) : Closed g gs' := by
  refine ⟨h.forest, h.anchored hc.anchored, h.rootRef.trans hc.rootRef, ?_⟩
  intro i hi hne
  rw [h.root] at hne
  obtain ⟨hx, ho, hj⟩ := hc.inner i hi hne
  refine ⟨hx, ho, fun j hcons => ?_⟩
  rw [h.root, h.root]
  exact hj j hcons

section Commit

variable (g : IndexedForwardGraph) {tree : DomTree} {gs : Groups} {src sink : Nat}

/-- The paths from a node to its immediate post-dominator. -/
theorem avoids_dom (hb : DominatorTree.Built g.toForwardGraph 0 tree) (hsrc : src < g.size)
    (hup : tree.up src = some sink) {s : Nat} (hs : g.Avoids sink src s) :
    s < g.size ∧ g.externRef s = false ∧ g.outputs s ≠ [] ∧ s < sink := by
  obtain ⟨hsn, hx, ho, hanc, hne⟩ :=
    DominatorTree.avoids_internal g hb hsrc (Ancestor.parent hup) hs
  have hle := hanc.le hb.levelled.forest
  exact ⟨hsn, hx, ho, by omega⟩

/-- Every path from a node reaches its immediate post-dominator. -/
theorem avoids_reaches (hb : DominatorTree.Built g.toForwardGraph 0 tree) (hsrc : src < g.size)
    (hup : tree.up src = some sink) :
    ∃ s, g.Avoids sink src s ∧ g.Consumes s sink := by
  have key : ∀ s, g.Avoids sink src s → ∃ s', g.Avoids sink src s' ∧ g.Consumes s' sink := by
    intro s
    induction s using g.backward_induction with
    | step s ih =>
      intro hs
      obtain ⟨-, -, ho, -⟩ := avoids_dom g hb hsrc hup hs
      obtain ⟨e, es, he⟩ := List.exists_cons_of_ne_nil ho
      have hcons : g.Consumes s e.node := ⟨e, by simp [he], rfl⟩
      by_cases hes : e.node = sink
      · exact ⟨s, hs, hes ▸ hcons⟩
      · exact ih e.node hcons (hs.snoc hcons hes)
  have hlt := (hb.levelled.forest src sink hup).1
  exact key src (.here src hlt.ne)

/-- The root of a node on the paths is again on the paths or is the root of the sink. -/
theorem root_on_path (hb : DominatorTree.Built g.toForwardGraph 0 tree) (hsrc : src < g.size)
    (hup : tree.up src = some sink) (hc : Closed g.toForwardGraph gs) (s : Nat)
    (hs : g.Avoids sink src s) :
    g.Avoids sink src (rootOf g.size gs.parent s) ∨
      rootOf g.size gs.parent s = rootOf g.size gs.parent sink := by
  induction s using g.backward_induction with
  | step s ih =>
    obtain ⟨hsn, -, ho, -⟩ := avoids_dom g hb hsrc hup hs
    by_cases hroot : rootOf g.size gs.parent s = s
    · rw [hroot]
      exact Or.inl hs
    · obtain ⟨e, es, he⟩ := List.exists_cons_of_ne_nil ho
      have hcons : g.Consumes s e.node := ⟨e, by simp [he], rfl⟩
      have hsame := (hc.inner s hsn hroot).2.2 e.node hcons
      by_cases hes : e.node = sink
      · rw [← hsame, hes]
        exact Or.inr rfl
      · rw [← hsame]
        exact ih e.node hcons (hs.snoc hcons hes)

/-- Merging along all paths to the immediate post-dominator keeps the groups closed. -/
theorem closed_merged (hb : DominatorTree.Built g.toForwardGraph 0 tree) (hsrc : src < g.size)
    (hup : tree.up src = some sink) (hc : Closed g.toForwardGraph gs) {gs' : Groups} {vs : List Nat}
    (hm : Merged g.size (rootOf g.size gs.parent sink) vs gs gs')
    (hvs : ∀ s, s ∈ vs ↔ g.Avoids sink src s) : Closed g.toForwardGraph gs' := by
  refine ⟨hm.forest, hm.anchored, hm.rootRef.trans hc.rootRef, ?_⟩
  have hsink : rootOf g.size gs'.parent sink = rootOf g.size gs.parent sink := by
    rcases hm.cases sink with ⟨_, _, _, h⟩ | h <;> exact h
  intro i hi hne
  by_cases hold : rootOf g.size gs.parent i = i
  · -- a former root that moved lies on the paths
    rcases hm.cases i with ⟨v, hv, hiv, hit⟩ | hkeep
    · have hpath := root_on_path g hb hsrc hup hc v ((hvs v).mp hv)
      rw [← hiv, hold] at hpath
      have hnt : i ≠ rootOf g.size gs.parent sink := by
        rw [hit] at hne
        exact hne.symm
      have hon := hpath.resolve_right hnt
      obtain ⟨-, hx, ho, -⟩ := avoids_dom g hb hsrc hup hon
      refine ⟨hx, ho, fun j hj => ?_⟩
      rw [hit]
      by_cases hjs : j = sink
      · rw [hjs, hsink]
      · exact hm.into j ((hvs j).mpr (hon.snoc hj hjs)) j rfl
    · exact absurd (hkeep.trans hold) hne
  · obtain ⟨hx, ho, hj⟩ := hc.inner i hi hold
    exact ⟨hx, ho, fun j hcons => hm.same (hj j hcons)⟩

/-- What a test of `_CheckPath` must guarantee for the merge that follows it. -/
structure SafeTest (fcond : OpPattern → Bool → Bool) (srcPattern : OpPattern) : Prop where
  inner : ∀ kind, fcond kind false = true → kind ≤ .injective
  sink : srcPattern = .outEWiseFusable → ∀ kind, fcond kind true = true → kind ≤ .broadcast

theorem anchor_none_of_le (ha : Anchored gs) {i : Nat} (h : gs.pattern i ≤ .injective) :
    gs.anchorRef i = none := by
  by_contra hne
  rw [ha i hne] at h
  exact absurd h (by decide)

theorem committable_of_checked (hb : DominatorTree.Built g.toForwardGraph 0 tree)
    (hsrc : src < g.size) (hup : tree.up src = some sink) (hc : Closed g.toForwardGraph gs)
    {fcond : OpPattern → Bool → Bool} (hsafe : SafeTest fcond (gs.pattern src))
    (hpass : ∀ s j, g.Avoids sink src s → g.Consumes s j → PassesAt g.size sink fcond gs j) :
    Committable g.toForwardGraph gs src sink (rootOf g.size gs.parent sink) := by
  have hsinkLt := (hb.levelled.forest src sink hup)
  have hquiet : ∀ s j, g.Avoids sink src s → g.Consumes s j → j ≠ sink →
      gs.anchorRef (rootOf g.size gs.parent j) = none := by
    intro s j hs hj hjs
    have h := hpass s j hs hj
    simp only [PassesAt, hjs, decide_false] at h
    exact anchor_none_of_le hc.anchored (hsafe.inner _ h)
  refine ⟨hc.forest, hc.anchored, rfl, rootOf_lt hc.forest sink hsinkLt.2, ?_, ?_, ?_⟩
  · intro s hs
    rcases root_on_path g hb hsrc hup hc s hs with h | h
    · have hlt := (avoids_dom g hb hsrc hup h).2.2.2
      exact Or.inr (hlt.trans_le (le_rootOf hc.forest sink))
    · exact Or.inl h
  · intro s hs hne
    rcases hs.last with heq | ⟨k, hk, hks⟩
    · exact absurd heq hne
    · exact Or.inr (hquiet k s hk hks hs.ne)
  · intro hne hsome
    have hself : g.Avoids sink src src := .here src hsinkLt.1.ne
    by_cases hroot : rootOf g.size gs.parent src = src
    · rw [hroot] at hsome
      obtain ⟨s, hs, hcons⟩ := avoids_reaches g hb hsrc hup
      have h := hpass s sink hs hcons
      simp only [PassesAt, decide_true] at h
      have hle := hsafe.sink (hc.anchored src hsome) _ h
      refine ⟨anchor_none_of_le hc.anchored ?_, hle⟩
      exact Nat.le_trans hle (by decide)
    · -- a source that is no root has its consumers in its group
      obtain ⟨-, -, ho, -⟩ := avoids_dom g hb hsrc hup hself
      obtain ⟨e, es, he⟩ := List.exists_cons_of_ne_nil ho
      have hcons : g.Consumes src e.node := ⟨e, by simp [he], rfl⟩
      have hsame := (hc.inner src hsrc hroot).2.2 e.node hcons
      by_cases hes : e.node = sink
      · rw [hes] at hsame
        exact absurd hsame.symm hne
      · rw [← hsame] at hsome
        exact absurd (hquiet src e.node hself hcons hes) hsome

/-- A step of the partitioner succeeds, keeps the groups closed and, when no count overflows, is the
same in both implementations. -/
def StepSpec (d : Dialect) (g : ForwardGraph) (gs : Groups) (run : Dialect → Option Groups) : Prop :=
  ∃ gs', run d = some gs' ∧ Closed g gs' ∧
    (Fits d g.size → Counted g.size gs → Counted g.size gs' ∧ run .python = some gs')

theorem stepSpec_pure {d : Dialect} {g : ForwardGraph} {gs gs' : Groups} (hc : Closed g gs)
    (h : Compressed g.size gs gs') : StepSpec d g gs (fun _ => some gs') :=
  ⟨gs', rfl, h.closed hc, fun _ hcount => ⟨h.counted hc.forest hcount, rfl⟩⟩

theorem fuseAlong_spec (d : Dialect) (hb : DominatorTree.Built g.toForwardGraph 0 tree)
    (hsrc : src < g.size) (hup : tree.up src = some sink) (hc : Closed g.toForwardGraph gs)
    {fcond : OpPattern → Bool → Bool} (hsafe : SafeTest fcond (gs.pattern src)) :
    StepSpec d g.toForwardGraph gs (fun d => fuseAlong d g.toForwardGraph src sink fcond gs) := by
  have hne : src ≠ sink := (hb.levelled.forest src sink hup).1.ne
  have hext := ((hb.chosen src (Nat.zero_le _) hsrc).dom sink hup).1
  obtain ⟨ok, gs₁, hcheck, hcomp, hok⟩ := checkPath_spec g src sink fcond gs hc.forest hext hne
  cases ok with
  | false =>
    have heq (d : Dialect) : fuseAlong d g.toForwardGraph src sink fcond gs = some gs₁ := by
      simp [fuseAlong, hcheck]
    exact ⟨gs₁, heq d, hcomp.closed hc, fun _ hcount => ⟨hcomp.counted hc.forest hcount, heq _⟩⟩
  | true =>
    have hc₁ := hcomp.closed hc
    have hcommit := committable_of_checked g hb hsrc hup hc₁
      (by rw [hcomp.pattern]; exact hsafe) (by
        intro s j hs hj
        have h := hok rfl s j hs hj
        unfold PassesAt at h ⊢
        rw [hcomp.pattern, hcomp.root]
        exact h)
    obtain ⟨vs, gs₂, hrun, hm, hvs, hcount⟩ := commitFuse_spec g d hcommit hne
    have heq (d : Dialect) : fuseAlong d g.toForwardGraph src sink fcond gs =
        commitFuse d g.toForwardGraph src sink gs₁ := by
      simp [fuseAlong, hcheck]
    refine ⟨gs₂, (heq d).trans hrun, closed_merged g hb hsrc hup hc₁ hm hvs, ?_⟩
    intro hfits hcnt
    obtain ⟨hcnt', hp⟩ := hcount hfits (hcomp.counted hc.forest hcnt)
    exact ⟨hcnt', (heq _).trans hp⟩

end Commit

end GraphPartitioner

end StencilGraph.Fuse

import StencilGraph.Fuse.MergeGroups

namespace StencilGraph.Fuse

namespace ForwardGraph

variable {g : ForwardGraph} {p i s j : Nat}

theorem Avoids.ne (h : g.Avoids p i s) : s ≠ p := by
  induction h with
  | here _ h => exact h
  | next _ _ _ _ _ _ ih => exact ih

theorem Avoids.snoc (h : g.Avoids p i s) (hj : g.Consumes s j) (hne : j ≠ p) : g.Avoids p i j := by
  induction h with
  | here i hi => exact .next i j j hi hj (.here j hne)
  | next i k s hi hk _ ih => exact .next i k j hi hk (ih hj)

end ForwardGraph

namespace GraphPartitioner
open Framework

/-- Between `gs` and `gs'` the groups of the nodes of `visited` have moved below `t`. -/
structure Merged (n t : Nat) (visited : List Nat) (gs gs' : Groups) : Prop where
  forest : Forest n gs'.parent
  into : ∀ v ∈ visited, ∀ j, rootOf n gs.parent j = rootOf n gs.parent v → rootOf n gs'.parent j = t
  keep : ∀ j, (∀ v ∈ visited, rootOf n gs.parent j ≠ rootOf n gs.parent v) →
    rootOf n gs'.parent j = rootOf n gs.parent j
  pattern : ∀ j, j ≠ t → gs'.pattern j = gs.pattern j
  anchorRef : ∀ j, j ≠ t → gs'.anchorRef j = gs.anchorRef j
  rootRef : gs'.rootRef = gs.rootRef
  anchored : Anchored gs'

/-- The state in which `CommitFuse(src, sink)` starts, with `t` the root of `sink`: every node on a
path from `src` to `sink` has its root in front of `t`, and only the group of `src` may bring an
anchor, to an unanchored sink. -/
structure Committable (g : ForwardGraph) (gs : Groups) (src sink t : Nat) : Prop where
  forest : Forest g.size gs.parent
  anchored : Anchored gs
  sinkRoot : rootOf g.size gs.parent sink = t
  sinkLt : t < g.size
  before : ∀ s, g.Avoids sink src s →
    rootOf g.size gs.parent s = t ∨ rootOf g.size gs.parent s < t
  quiet : ∀ s, g.Avoids sink src s → s ≠ src →
    rootOf g.size gs.parent s = t ∨ gs.anchorRef (rootOf g.size gs.parent s) = none
  source : rootOf g.size gs.parent src ≠ t → gs.anchorRef (rootOf g.size gs.parent src) ≠ none →
    gs.anchorRef t = none ∧ gs.pattern t ≤ .broadcast

variable {g : ForwardGraph} {gs₀ gs : Groups} {src sink t : Nat}

theorem Committable.merged (h : Committable g gs₀ src sink t) : Merged g.size t [] gs₀ gs₀ :=
  ⟨h.forest, by simp, fun _ _ => rfl, fun _ _ => rfl, fun _ _ => rfl, rfl, h.anchored⟩

theorem Merged.cases {n : Nat} {vs : List Nat} (h : Merged n t vs gs₀ gs) (j : Nat) :
    (∃ v ∈ vs, rootOf n gs₀.parent j = rootOf n gs₀.parent v ∧ rootOf n gs.parent j = t) ∨
      rootOf n gs.parent j = rootOf n gs₀.parent j := by
  by_cases hv : ∃ v ∈ vs, rootOf n gs₀.parent j = rootOf n gs₀.parent v
  · obtain ⟨v, hv, hj⟩ := hv
    exact Or.inl ⟨v, hv, hj, h.into v hv j hj⟩
  · push Not at hv
    exact Or.inr (h.keep j hv)

theorem Merged.same {n : Nat} {vs : List Nat} (h : Merged n t vs gs₀ gs) {i j : Nat}
    (hij : rootOf n gs₀.parent i = rootOf n gs₀.parent j) :
    rootOf n gs.parent i = rootOf n gs.parent j := by
  rcases h.cases j with ⟨v, hv, hj, hjt⟩ | hj
  · rw [hjt]
    exact h.into v hv i (hij.trans hj)
  · rcases h.cases i with ⟨v, hv, hi, hit⟩ | hi
    · rw [hit]
      exact (h.into v hv j (hij.symm.trans hi)).symm
    · rw [hi, hj, hij]

theorem Merged.root_sink {vs : List Nat} (hc : Committable g gs₀ src sink t)
    (h : Merged g.size t vs gs₀ gs) : rootOf g.size gs.parent sink = t := by
  rcases h.cases sink with ⟨_, _, _, ht⟩ | hs
  · exact ht
  · rw [hs, hc.sinkRoot]

/-- The group of a node on the paths stands where it stood, unless it has moved below `t`. -/
theorem Merged.fresh {n : Nat} {vs : List Nat} (h : Merged n t vs gs₀ gs) {s : Nat}
    (hne : rootOf n gs.parent s ≠ t) : rootOf n gs.parent s = rootOf n gs₀.parent s := by
  rcases h.cases s with ⟨_, _, _, ht⟩ | hs
  · exact absurd ht hne
  · exact hs

/-- What `MergeFromTo` needs holds at every node on the paths. -/
theorem Merged.mergeable (hc : Committable g gs₀ src sink t) {vs : List Nat}
    (h : Merged g.size t vs gs₀ gs) {s : Nat} (hs : g.Avoids sink src s)
    (hanc : s ≠ src ∨ gs = gs₀)
    (hne : rootOf g.size gs.parent s ≠ rootOf g.size gs.parent sink) :
    (rootOf g.size gs.parent s < rootOf g.size gs.parent sink ∧
      rootOf g.size gs.parent sink < g.size) ∧
    (gs.anchorRef (rootOf g.size gs.parent s) ≠ none →
      gs.anchorRef (rootOf g.size gs.parent sink) = none ∧
        gs.pattern (rootOf g.size gs.parent sink) ≤ .broadcast) := by
  rw [h.root_sink hc] at hne ⊢
  have heq := h.fresh hne
  have hne₀ : rootOf g.size gs₀.parent s ≠ t := heq ▸ hne
  refine ⟨⟨heq ▸ (hc.before s hs).resolve_left hne₀, hc.sinkLt⟩, fun hsome => ?_⟩
  rw [h.anchorRef _ hne, heq] at hsome
  have hsrc : s = src := by
    by_contra hsrc
    exact hsome ((hc.quiet s hs hsrc).resolve_left hne₀)
  subst hsrc
  obtain rfl := hanc.resolve_left (fun hno => hno rfl)
  exact hc.source hne₀ hsome

/-- One merge of `CommitFuse_`. -/
theorem merged_step (hc : Committable g gs₀ src sink t) {vs : List Nat}
    (h : Merged g.size t vs gs₀ gs) (d : Dialect) {s : Nat} (hs : g.Avoids sink src s)
    (hanc : s ≠ src ∨ gs = gs₀) :
    ∃ gs', mergeFromTo d g.size s sink gs = some gs' ∧ Merged g.size t (s :: vs) gs₀ gs' ∧
      (Fits d g.size → Counted g.size gs →
        Counted g.size gs' ∧ mergeFromTo .python g.size s sink gs = some gs') := by
  have hsink := h.root_sink hc
  obtain ⟨gs', hrun, hlink, hcount⟩ := mergeFromTo_spec h.forest h.anchored d s sink
    (fun hne => (h.mergeable hc hs hanc hne).1) (fun hne => (h.mergeable hc hs hanc hne).2)
  rw [hsink] at hlink
  refine ⟨gs', hrun, ⟨hlink.forest, ?_, ?_, ?_, ?_, hlink.rootRef.trans h.rootRef,
    hlink.anchored⟩, hcount⟩
  · intro v hv j hj
    rw [hlink.roots]
    rcases List.mem_cons.mp hv with rfl | hv
    · rw [if_pos (h.same hj)]
    · rw [h.into v hv j hj]
      split <;> rfl
  · intro j hj
    have hkeep := h.keep j (fun v hv => hj v (by simp [hv]))
    rw [hlink.roots, hkeep]
    split
    · rename_i heq
      by_cases hne : rootOf g.size gs.parent s = t
      · rw [heq, hne]
      · exact absurd (heq.trans (h.fresh hne)) (hj s (by simp))
    · rfl
  · intro j hj
    rw [hlink.pattern j hj, h.pattern j hj]
  · intro j hj
    rw [hlink.anchorRef j hj, h.anchorRef j hj]

/-- The result of a part of the search of `CommitFuse_`. -/
def CommitSpec (d : Dialect) (g : ForwardGraph) (gs₀ : Groups) (src sink t : Nat)
    (nodes vs : List Nat) (gs : Groups) (run : Dialect → Option (List Nat × Groups)) : Prop :=
  ∃ vs' gs', run d = some (vs', gs') ∧ Merged g.size t vs' gs₀ gs' ∧
    (∀ v ∈ vs', g.Avoids sink src v) ∧ (∀ s ∈ nodes, s ∈ sink :: vs') ∧
    Searched g sink (fun _ => True) (sink :: vs) (sink :: vs') ∧
    (Fits d g.size → Counted g.size gs → Counted g.size gs' ∧ run .python = some (vs', gs'))

theorem foldlM_committed {d : Dialect}
    {f : Dialect → List Nat × Groups → Edge → Option (List Nat × Groups)} {links : List Edge}
    (hf : ∀ link ∈ links, ∀ vs gs, src ∈ vs → (∀ v ∈ vs, g.Avoids sink src v) →
      Merged g.size t vs gs₀ gs →
      CommitSpec d g gs₀ src sink t [link.node] vs gs (fun d => f d (vs, gs) link))
    (vs : List Nat) (gs : Groups) (hsrc : src ∈ vs) (hvs : ∀ v ∈ vs, g.Avoids sink src v)
    (h : Merged g.size t vs gs₀ gs) :
    CommitSpec d g gs₀ src sink t (links.map Edge.node) vs gs
      (fun d => links.foldlM (f d) (vs, gs)) := by
  induction links generalizing vs gs with
  | nil =>
    exact ⟨vs, gs, rfl, h, hvs, by simp, Searched.refl _, fun _ hcount => ⟨hcount, rfl⟩⟩
  | cons link links ih =>
    obtain ⟨vs₁, gs₁, h₁, hm₁, hvs₁, hin₁, hs₁, hc₁⟩ := hf link (by simp) vs gs hsrc hvs h
    have hsrc₁ : src ∈ vs₁ := by
      have hne : src ≠ sink := (hvs src hsrc).ne
      have := hs₁.keep src (by simp [hsrc])
      simpa [hne] using this
    obtain ⟨vs₂, gs₂, h₂, hm₂, hvs₂, hin₂, hs₂, hc₂⟩ :=
      ih (fun l hl => hf l (by simp [hl])) vs₁ gs₁ hsrc₁ hvs₁ hm₁
    simp only at h₁ h₂ hc₁ hc₂
    refine ⟨vs₂, gs₂, by simp [List.foldlM_cons, h₁, h₂], hm₂, hvs₂, ?_, hs₁.trans hs₂, ?_⟩
    · simp only [List.map_cons, List.mem_cons, forall_eq_or_imp] at hin₁ hin₂ ⊢
      exact ⟨by simpa using hs₂.keep _ (by simpa using hin₁.1), hin₂⟩
    · intro hfits hcount
      obtain ⟨hcount₁, hp₁⟩ := hc₁ hfits hcount
      obtain ⟨hcount₂, hp₂⟩ := hc₂ hfits hcount₁
      exact ⟨hcount₂, by simp [List.foldlM_cons, hp₁, hp₂]⟩

/-- Entering the node `s` and then its consumers. -/
theorem commitFuse_enter (g : IndexedForwardGraph) {d : Dialect}
    (hc : Committable g.toForwardGraph gs₀ src sink t) (fuel s : Nat) (vs : List Nat) (gs : Groups)
    (hs : g.Avoids sink src s) (hsv : s ∉ vs) (hvs : ∀ v ∈ vs, g.Avoids sink src v)
    (h : Merged g.size t vs gs₀ gs) (hfirst : src ∈ vs ∨ s = src ∧ gs = gs₀)
    (hrec : ∀ link ∈ g.outputs s, ∀ vs gs, src ∈ vs → (∀ v ∈ vs, g.Avoids sink src v) →
      Merged g.size t vs gs₀ gs →
      CommitSpec d g.toForwardGraph gs₀ src sink t [link.node] vs gs
        (fun d => commitFuse_ d g.toForwardGraph sink fuel link.node (vs, gs))) :
    CommitSpec d g.toForwardGraph gs₀ src sink t [s] vs gs
      (fun d => commitFuse_ d g.toForwardGraph sink (fuel + 1) s (vs, gs)) := by
  have hne := hs.ne
  obtain ⟨gs₁, hrun, hm₁, hcount₁⟩ := merged_step hc h d hs (by
    rcases hfirst with hsrc | ⟨-, heq⟩
    · exact Or.inl (fun heq => hsv (heq ▸ hsrc))
    · exact Or.inr heq)
  obtain ⟨vs₂, gs₂, h₂, hm₂, hvs₂, hin₂, hs₂, hc₂⟩ := foldlM_committed (d := d)
    (f := fun d st link => commitFuse_ d g.toForwardGraph sink fuel link.node st)
    hrec (s :: vs) gs₁ (by rcases hfirst with hsrc | ⟨rfl, -⟩ <;> simp [*])
    (by simpa using ⟨hs, hvs⟩) hm₁
  have heq (d : Dialect) (hd : mergeFromTo d g.size s sink gs = some gs₁) :
      commitFuse_ d g.toForwardGraph sink (fuel + 1) s (vs, gs) =
        (g.outputs s).foldlM (fun st link => commitFuse_ d g.toForwardGraph sink fuel link.node st)
          (s :: vs, gs₁) := by
    simp [commitFuse_, hne, hsv, hd]
  have hkeep := hs₂.keep s (by simp)
  refine ⟨vs₂, gs₂, (heq d hrun).trans h₂, hm₂, hvs₂, by simpa using hkeep, ?_, ?_⟩
  · have hperm : Searched g.toForwardGraph sink (fun _ => True) (s :: sink :: vs) (sink :: vs₂) :=
      ⟨fun v hv => hs₂.keep v (by simp at hv ⊢; tauto), fun _ _ _ => trivial,
        fun v hv hn => hs₂.closed v hv (by simp at hn ⊢; tauto)⟩
    refine hperm.enter (by simp [hne, hsv]) trivial ?_
    rintro - j ⟨e, he, rfl⟩
    exact hin₂ e.node (List.mem_map_of_mem he)
  · intro hfits hcount
    obtain ⟨hcount', hp⟩ := hcount₁ hfits hcount
    obtain ⟨hcount'', hp'⟩ := hc₂ hfits hcount'
    exact ⟨hcount'', (heq .python hp).trans hp'⟩

theorem commitFuse_spec_ (g : IndexedForwardGraph) {d : Dialect}
    (hc : Committable g.toForwardGraph gs₀ src sink t) (fuel s : Nat) (vs : List Nat) (gs : Groups)
    (hs : s = sink ∨ g.Avoids sink src s) (hsrc : src ∈ vs) (hvs : ∀ v ∈ vs, g.Avoids sink src v)
    (h : Merged g.size t vs gs₀ gs) (hfuel : g.size < s + fuel) (hsn : s < g.size) :
    CommitSpec d g.toForwardGraph gs₀ src sink t [s] vs gs
      (fun d => commitFuse_ d g.toForwardGraph sink fuel s (vs, gs)) := by
  induction fuel generalizing s vs gs with
  | zero => omega
  | succ fuel ih =>
    have hstop (hin : s ∈ sink :: vs) : CommitSpec d g.toForwardGraph gs₀ src sink t [s] vs gs
        (fun d => commitFuse_ d g.toForwardGraph sink (fuel + 1) s (vs, gs)) := by
      have heq (d : Dialect) :
          commitFuse_ d g.toForwardGraph sink (fuel + 1) s (vs, gs) = some (vs, gs) := by
        unfold commitFuse_
        rcases List.mem_cons.mp hin with rfl | hin
        · simp
        · simp [hin]
      exact ⟨vs, gs, heq d, h, hvs, by simpa using hin, Searched.refl _,
        fun _ hcount => ⟨hcount, heq .python⟩⟩
    rcases hs with rfl | hs
    · exact hstop (by simp)
    · by_cases hsv : s ∈ vs
      · exact hstop (by simp [hsv])
      · refine commitFuse_enter g hc fuel s vs gs hs hsv hvs h (Or.inl hsrc) ?_
        intro link hl vs gs hsrc hvs h
        have hlt := g.forward s link hl
        refine ih link.node vs gs ?_ hsrc hvs h (by omega) hlt.2
        by_cases hls : link.node = sink
        · exact Or.inl hls
        · exact Or.inr (hs.snoc ⟨link, hl, rfl⟩ hls)

/-- `CommitFuse` never fails, and it moves exactly the groups on the paths from `src` to `sink`
below the root of `sink`. -/
theorem commitFuse_spec (g : IndexedForwardGraph) (d : Dialect)
    (hc : Committable g.toForwardGraph gs₀ src sink t) (hne : src ≠ sink) :
    ∃ vs gs', commitFuse d g.toForwardGraph src sink gs₀ = some gs' ∧
      Merged g.size t vs gs₀ gs' ∧ (∀ s, s ∈ vs ↔ g.Avoids sink src s) ∧
      (Fits d g.size → Counted g.size gs₀ →
        Counted g.size gs' ∧ commitFuse .python g.toForwardGraph src sink gs₀ = some gs') := by
  obtain ⟨vs, gs', h, hm, hvs, hin, hs, hcount⟩ := commitFuse_enter g (d := d) hc g.size src [] gs₀
    (.here src hne) (by simp) (by simp) hc.merged (Or.inr ⟨rfl, rfl⟩) (by
      intro link hl vs gs hsrc' hvs h
      have hlt := g.forward src link hl
      refine commitFuse_spec_ g hc g.size link.node vs gs ?_ hsrc' hvs h (by omega) hlt.2
      by_cases hls : link.node = sink
      · exact Or.inl hls
      · exact Or.inr (.next src link.node link.node hne ⟨link, hl, rfl⟩ (.here _ hls)))
  simp only at h hcount
  have hmem : src ∈ vs := by simpa [hne] using hin src (by simp)
  refine ⟨vs, gs', by simp [commitFuse, hne, h], hm, fun s => ⟨hvs s, ?_⟩, ?_⟩
  · have hclosed : ∀ v ∈ vs, ∀ j, g.Consumes v j → j ≠ sink → j ∈ vs := by
      intro v hv j hj hjs
      have := hs.closed v (by simp [hv]) (by simp [(hvs v hv).ne]) (hvs v hv).ne j hj
      simpa [hjs] using this
    have hreach : ∀ i, g.Avoids sink i s → i ∈ vs → s ∈ vs := by
      intro i ha
      induction ha with
      | here i _ => exact id
      | next i j s _ hj ht ih =>
        intro hi
        have hjs : j ≠ sink := by cases ht <;> assumption
        exact ih (hclosed i hi j hj hjs)
    intro ha
    exact hreach src ha hmem
  · intro hfits hcnt
    obtain ⟨hcnt', hp⟩ := hcount hfits hcnt
    exact ⟨hcnt', by simp [commitFuse, hne, hp]⟩

end GraphPartitioner

end StencilGraph.Fuse

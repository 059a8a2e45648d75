import StencilGraph.Fuse.GraphPartitioner

namespace StencilGraph.Fuse.GraphPartitioner
open Framework

/-- `gs'` is `gs` with some paths compressed. -/
structure Compressed (n : Nat) (gs gs' : Groups) : Prop where
  roots : SameRoots n gs.parent gs'.parent
  pattern : gs'.pattern = gs.pattern
  rootRef : gs'.rootRef = gs.rootRef
  anchorRef : gs'.anchorRef = gs.anchorRef
  numNodes : gs'.numNodes = gs.numNodes

variable {n : Nat} {gs gs₁ gs₂ : Groups}

theorem Compressed.refl (hf : Forest n gs.parent) : Compressed n gs gs :=
  ⟨SameRoots.refl hf, rfl, rfl, rfl, rfl⟩

theorem Compressed.trans (h₁ : Compressed n gs gs₁) (h₂ : Compressed n gs₁ gs₂) :
    Compressed n gs gs₂ :=
  ⟨h₁.roots.trans h₂.roots, h₂.pattern.trans h₁.pattern, h₂.rootRef.trans h₁.rootRef,
    h₂.anchorRef.trans h₁.anchorRef, h₂.numNodes.trans h₁.numNodes⟩

theorem Compressed.forest (h : Compressed n gs gs₁) : Forest n gs₁.parent := h.roots.1

theorem Compressed.root (h : Compressed n gs gs₁) (i : Nat) :
    rootOf n gs₁.parent i = rootOf n gs.parent i := h.roots.2 i

theorem groupRoot_spec (hf : Forest n gs.parent) (i : Nat) :
    (groupRoot n i gs).1 = rootOf n gs.parent i ∧ Compressed n gs (groupRoot n i gs).2 := by
  have h := findRoot_spec hf i
  exact ⟨h.1, ⟨h.2, rfl, rfl, rfl, rfl⟩⟩

/-- What a completed search adds to `visited_`: every new node passed the test, and its consumers
were visited too unless the search stops at it. -/
structure Searched (g : ForwardGraph) (stop : Nat) (test : Nat → Prop) (visited visited' : List Nat) :
    Prop where
  keep : ∀ v ∈ visited, v ∈ visited'
  pass : ∀ v ∈ visited', v ∉ visited → test v
  closed : ∀ v ∈ visited', v ∉ visited → v ≠ stop → ∀ j, g.Consumes v j → j ∈ visited'

variable {g : ForwardGraph} {stop : Nat} {test : Nat → Prop} {vs vs₁ vs₂ : List Nat}

theorem Searched.refl (vs : List Nat) : Searched g stop test vs vs :=
  ⟨fun _ h => h, fun _ h hn => absurd h hn, fun _ h hn => absurd h hn⟩

theorem Searched.trans (h₁ : Searched g stop test vs vs₁) (h₂ : Searched g stop test vs₁ vs₂) :
    Searched g stop test vs vs₂ := by
  refine ⟨fun v hv => h₂.keep v (h₁.keep v hv), ?_, ?_⟩
  · intro v hv hn
    by_cases hv₁ : v ∈ vs₁
    · exact h₁.pass v hv₁ hn
    · exact h₂.pass v hv hv₁
  · intro v hv hn hs j hj
    by_cases hv₁ : v ∈ vs₁
    · exact h₂.keep j (h₁.closed v hv₁ hn hs j hj)
    · exact h₂.closed v hv hv₁ hs j hj

/-- Entering `src` and then completing the search of its consumers. -/
theorem Searched.enter {src : Nat} (hsrc : src ∉ vs) (ht : test src)
    (h : Searched g stop test (src :: vs) vs₁)
    (hnext : src ≠ stop → ∀ j, g.Consumes src j → j ∈ vs₁) : Searched g stop test vs vs₁ := by
  refine ⟨fun v hv => h.keep v (by simp [hv]), ?_, ?_⟩
  · intro v hv hn
    by_cases hvs : v = src
    · rw [hvs]
      exact ht
    · exact h.pass v hv (by simp [hvs, hn])
  · intro v hv hn hs j hj
    by_cases hvs : v = src
    · subst hvs
      exact hnext hs j hj
    · exact h.closed v hv (by simp [hvs, hn]) hs j hj

/-- A search that starts with the consumers of a node covers all paths from it up to the stop. -/
theorem Searched.avoids {i s j : Nat} (h : Searched g stop test [] vs)
    (hi : ∀ j, g.Consumes i j → j ∈ vs) (ha : g.Avoids stop i s) (hsj : g.Consumes s j) :
    j ∈ vs := by
  induction ha with
  | here i _ => exact hi j hsj
  | next i k s _ hk ht ih =>
    have hkv := hi k hk
    have hks : k ≠ stop := by cases ht <;> assumption
    exact ih (h.closed k hkv (by simp) hks) hsj

/-- The test `_CheckPath_` makes at a node. -/
def PassesAt (n sink : Nat) (fcond : OpPattern → Bool → Bool) (gs : Groups) (v : Nat) : Prop :=
  fcond (gs.pattern (rootOf n gs.parent v)) (v = sink) = true

/-- The answer of a search together with what it says about the nodes visited. -/
def CheckSpec (g : ForwardGraph) (sink : Nat) (fcond : OpPattern → Bool → Bool) (gs : Groups)
    (srcs : List Nat) (vs : List Nat) (r : Option (Bool × List Nat × Groups)) : Prop :=
  ∃ ok vs' gs', r = some (ok, vs', gs') ∧ Compressed g.size gs gs' ∧
    (ok = true → (∀ s ∈ srcs, s ∈ vs') ∧ Searched g sink (PassesAt g.size sink fcond gs) vs vs')

theorem allM_checked {sink : Nat} {fcond : OpPattern → Bool → Bool} {gs₀ : Groups}
    {f : Edge → List Nat × Groups → Option (Bool × List Nat × Groups)} {links : List Edge}
    (hf : ∀ link ∈ links, ∀ vs gs, Compressed g.size gs₀ gs →
      CheckSpec g sink fcond gs₀ [link.node] vs (f link (vs, gs)))
    (vs : List Nat) (gs : Groups) (hgs : Compressed g.size gs₀ gs) :
    CheckSpec g sink fcond gs₀ (links.map Edge.node) vs (allM f links (vs, gs)) := by
  induction links generalizing vs gs with
  | nil =>
    exact ⟨true, vs, gs, rfl, hgs, fun _ => ⟨by simp, Searched.refl vs⟩⟩
  | cons link links ih =>
    obtain ⟨ok, vs₁, gs₁, h₁, hc₁, hok₁⟩ := hf link (by simp) vs gs hgs
    cases ok with
    | false => exact ⟨false, vs₁, gs₁, by simp [allM, h₁], hc₁, by simp⟩
    | true =>
      obtain ⟨ok₂, vs₂, gs₂, h₂, hc₂, hok₂⟩ :=
        ih (fun l hl => hf l (by simp [hl])) vs₁ gs₁ hc₁
      refine ⟨ok₂, vs₂, gs₂, by simp [allM, h₁, h₂], hc₂, ?_⟩
      intro hok
      obtain ⟨hin₁, hs₁⟩ := hok₁ rfl
      obtain ⟨hin₂, hs₂⟩ := hok₂ hok
      refine ⟨?_, hs₁.trans hs₂⟩
      simp only [List.map_cons, List.mem_cons, forall_eq_or_imp]
      exact ⟨hs₂.keep _ (hin₁ _ (by simp)), hin₂⟩

theorem checkPath_spec_ (g : IndexedForwardGraph) (sink : Nat) (fcond : OpPattern → Bool → Bool)
    {gs₀ : Groups} (fuel src : Nat) (vs : List Nat) (gs : Groups) (hgs : Compressed g.size gs₀ gs)
    (hfuel : g.size < src + fuel) (hsrc : src < g.size) :
    CheckSpec g.toForwardGraph sink fcond gs₀ [src] vs
      (checkPath_ g.toForwardGraph sink fcond fuel src (vs, gs)) := by
  induction fuel generalizing src vs gs with
  | zero => omega
  | succ fuel ih =>
    unfold checkPath_
    by_cases hv : src ∈ vs
    · exact ⟨true, vs, gs, by simp [hv], hgs, fun _ => ⟨by simpa using hv, Searched.refl vs⟩⟩
    · obtain ⟨hroot, hcomp⟩ := groupRoot_spec hgs.forest src
      obtain ⟨⟨r, gs₁⟩, hr⟩ : ∃ x, x = groupRoot g.size src gs := ⟨_, rfl⟩
      rw [← hr] at hroot hcomp
      have hc₁ := hgs.trans hcomp
      have hpat : gs₁.pattern r = gs₀.pattern (rootOf g.size gs₀.parent src) := by
        rw [show r = rootOf g.size gs.parent src from hroot, hc₁.pattern, hgs.root]
      simp only [hv, if_false, ← hr]
      by_cases hcond : fcond (gs₁.pattern r) (decide (src = sink)) = true
      · have hpass : PassesAt g.size sink fcond gs₀ src := by
          rw [hpat] at hcond
          exact hcond
        by_cases hsink : src = sink
        · refine ⟨true, src :: vs, gs₁, ?_, hc₁, ?_⟩
          · rw [if_neg (by simp [hcond]), if_pos hsink]
          · intro _
            exact ⟨by simp, (Searched.refl _).enter hv hpass (fun h => absurd hsink h)⟩
        · have hrec : ∀ link ∈ g.outputs src, ∀ vs gs, Compressed g.size gs₀ gs →
              CheckSpec g.toForwardGraph sink fcond gs₀ [link.node] vs
                (checkPath_ g.toForwardGraph sink fcond fuel link.node (vs, gs)) := by
            intro link hl vs gs hgs
            have := g.forward src link hl
            exact ih link.node vs gs hgs (by omega) this.2
          obtain ⟨ok, vs₂, gs₂, h₂, hc₂, hok₂⟩ := allM_checked hrec (src :: vs) gs₁ hc₁
          refine ⟨ok, vs₂, gs₂, ?_, hc₂, ?_⟩
          · rw [if_neg (by simp [hcond]), if_neg hsink]
            exact h₂
          · intro hok
            obtain ⟨hin, hs⟩ := hok₂ hok
            refine ⟨by simpa using hs.keep src (by simp), hs.enter hv hpass ?_⟩
            rintro - j ⟨e, he, rfl⟩
            exact hin e.node (List.mem_map_of_mem he)
      · refine ⟨false, src :: vs, gs₁, ?_, hc₁, by simp⟩
        rw [if_pos (by simpa using hcond)]

/-- `_CheckPath` never fails below a post-dominator, and a positive answer is about every node on
the paths from `src` to `sink`. -/
theorem checkPath_spec (g : IndexedForwardGraph) (src sink : Nat) (fcond : OpPattern → Bool → Bool)
    (gs : Groups) (hf : Forest g.size gs.parent) (hext : g.externRef src = false)
    (hne : src ≠ sink) :
    ∃ ok gs', checkPath g.toForwardGraph src sink fcond gs = some (ok, gs') ∧
      Compressed g.size gs gs' ∧
      (ok = true → ∀ s j, g.Avoids sink src s → g.Consumes s j →
        PassesAt g.size sink fcond gs j) := by
  have hrec : ∀ link ∈ g.outputs src, ∀ vs gs', Compressed g.size gs gs' →
      CheckSpec g.toForwardGraph sink fcond gs [link.node] vs
        (checkPath_ g.toForwardGraph sink fcond g.size link.node (vs, gs')) := by
    intro link hl vs gs' hgs
    have := g.forward src link hl
    exact checkPath_spec_ g sink fcond g.size link.node vs gs' hgs (by omega) this.2
  obtain ⟨ok, vs, gs', h, hc, hok⟩ := allM_checked hrec [] gs (Compressed.refl hf)
  refine ⟨ok, gs', by simp [checkPath, hext, hne, h], hc, ?_⟩
  intro htrue s j hs hj
  obtain ⟨hin, hsearch⟩ := hok htrue
  have hcons : ∀ j, g.Consumes src j → j ∈ vs := by
    rintro j ⟨e, he, rfl⟩
    exact hin e.node (List.mem_map_of_mem he)
  exact hsearch.pass j (hsearch.avoids hcons hs hj) (by simp)

end StencilGraph.Fuse.GraphPartitioner

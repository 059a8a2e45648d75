import StencilGraph.Plan.Recorded

namespace StencilGraph.Plan

variable {τ : Type} (p : Program τ)

/-- What a part of a visit does to the maps. -/
structure Advance (st st' : State τ) : Prop where
  keeps : ∀ e l, st.tokenMap e = some l → st'.tokenMap e = some l
  visited : ∀ e ∈ st.visited, e ∈ st'.visited
  created : ∀ e, Created p e → st.tokenMap e = none → st'.tokenMap e ≠ none → e ∈ st'.visited

/-- The expression can be visited: the calls below it have no tokens before their visit, and its
variables are in scope. -/
structure Ready (st : State τ) (e : Nat) : Prop where
  fresh : ∀ c, c ≤ e → Created p c → c ∉ st.visited → st.tokenMap c = none
  scope : ∀ v, Free p.toFunc e v → ∃ l, st.tokenMap v = some l
  reach : Reach p.toFunc e

variable {p} {st st' st'' : State τ} {e c : Nat} {l : List Nat}

theorem Advance.refl (st : State τ) : Advance p st st :=
  ⟨fun _ _ h => h, fun _ h => h, fun _ _ h h' => absurd h h'⟩

theorem Advance.trans (h : Advance p st st') (h' : Advance p st' st'') : Advance p st st'' := by
  refine ⟨fun e l hl => h'.keeps e l (h.keeps e l hl), fun e he => h'.visited e (h.visited e he),
    fun e he hnone hsome => ?_⟩
  by_cases hmid : st'.tokenMap e = none
  · exact h'.created e he hmid hsome
  · exact h'.visited e (h.created e he hnone hmid)

theorem Ready.advance (h : Ready p st e) (ha : Advance p st st') : Ready p st' e := by
  refine ⟨fun c hc hcreated hnot => ?_, fun v hv => ?_, h.reach⟩
  · have hnone := h.fresh c hc hcreated fun hmem => hnot (ha.visited c hmem)
    by_contra hsome
    exact hnot (ha.created c hcreated hnone hsome)
  · obtain ⟨l, hl⟩ := h.scope v hv
    exact ⟨l, ha.keeps v l hl⟩

theorem Ready.child (h : Ready p st e) (hc : c ∈ (p.node e).children)
    (hlet : ∀ w x b, p.node e = .letIn w x b → c = x) : Ready p st c := by
  have hlt := p.forward e c hc
  refine ⟨fun c' hc' => h.fresh c' (by omega), fun v hv => h.scope v ?_, .child e c h.reach hc⟩
  exact .child e c v hc (fun w x b hnode => Or.inr (hlet w x b hnode)) hv

/-- The body of a let is ready once the variable is recorded. -/
theorem Ready.body {v x b : Nat} (h : Ready p st e) (hnode : p.node e = .letIn v x b)
    (hv : ∃ l, st.tokenMap v = some l) : Ready p st b := by
  have hb : b ∈ (p.node e).children := by
    rw [hnode]
    exact List.mem_cons_of_mem _ (List.mem_singleton_self b)
  have hlt := p.forward e b hb
  refine ⟨fun c hc => h.fresh c (by omega), fun w hw => ?_, .child e b h.reach hb⟩
  by_cases hwv : w = v
  · rw [hwv]
    exact hv
  · apply h.scope w
    apply Free.child e b w hb _ hw
    intro w' x' b' hnode'
    rw [hnode] at hnode'
    cases hnode'
    exact Or.inl hwv

theorem Ready.real (h : Ready p st e) : Ready p st (p.real e) := by
  cases hnode : p.node e with
  | onDevice b isFixed =>
    rw [real_onDevice hnode]
    exact h.child (by rw [hnode]; exact List.mem_singleton_self b) (by simp [hnode])
  | _ =>
    rw [real_of_ne (by simp [hnode])]
    exact h

theorem real_le (e : Nat) : p.real e ≤ e := by
  cases hnode : p.node e with
  | onDevice b isFixed =>
    rw [real_onDevice hnode]
    exact Nat.le_of_lt (p.forward e b (by rw [hnode]; exact List.mem_singleton_self b))
  | _ =>
    rw [real_of_ne (by simp [hnode])]

theorem Derived.mono {m m' : Nat → Option (List Nat)} (hm : ∀ e l, m e = some l → m' e = some l)
    (h : Derived p m e l) : Derived p m' e l := by
  unfold Derived at h ⊢
  cases hnode : p.node e with
  | var =>
    rw [hnode] at h
    exact fun x hx => hm _ _ (h x hx)
  | constant => trivial
  | call args => trivial
  | tuple fields =>
    rw [hnode] at h
    obtain ⟨ls, hls, hl⟩ := h
    exact ⟨ls, hls.imp fun c l hc => hm _ l hc, hl⟩
  | tupleGetItem t i =>
    rw [hnode] at h
    obtain ⟨lt, token, hlt, h⟩ := h
    exact ⟨lt, token, hm _ lt hlt, h⟩
  | letIn v x b =>
    rw [hnode] at h
    exact hm _ l h
  | onDevice b isFixed => trivial

theorem forall₂_unique {α β : Type} {R : α → β → Prop} (hR : ∀ x y y', R x y → R x y' → y = y')
    {xs : List α} {ys ys' : List β} (h : List.Forall₂ R xs ys) (h' : List.Forall₂ R xs ys') :
    ys = ys' := by
  induction h generalizing ys' with
  | nil =>
    cases h'
    rfl
  | cons hx _ ih =>
    cases h' with
    | cons hx' h' => rw [hR _ _ _ hx hx', ih h']

/-- Only an expression without tokens of its own is recorded more than once, with the same tokens. -/
theorem Derived.unique {m : Nat → Option (List Nat)} {l' : List Nat} (hs : ¬ Source p e)
    (hdevice : ∀ b isFixed, p.node e ≠ .onDevice b isFixed)
    (h : Derived p m e l) (h' : Derived p m e l') : l = l' := by
  unfold Derived at h h'
  cases hnode : p.node e with
  | var =>
    rw [hnode] at h h'
    cases hbound : p.binding e with
    | none => exact absurd (Or.inr ⟨hnode, hbound⟩) hs
    | some x => exact Option.some.inj ((h x hbound).symm.trans (h' x hbound))
  | constant => exact absurd (Or.inl (Or.inl hnode)) hs
  | call args => exact absurd (Or.inl (Or.inr (Or.inl ⟨args, hnode⟩))) hs
  | tuple fields =>
    rw [hnode] at h h'
    obtain ⟨ls, hls, rfl⟩ := h
    obtain ⟨ls', hls', rfl⟩ := h'
    rw [forall₂_unique (fun c l l' hc hc' => Option.some.inj (hc.symm.trans hc')) hls hls']
  | tupleGetItem t i =>
    rw [hnode] at h h'
    obtain ⟨lt, token, hlt, htoken, rfl⟩ := h
    obtain ⟨lt', token', hlt', htoken', rfl⟩ := h'
    obtain rfl := Option.some.inj (hlt.symm.trans hlt')
    rw [Option.some.inj (htoken.symm.trans htoken')]
  | letIn v x b =>
    rw [hnode] at h h'
    exact Option.some.inj (h.symm.trans h')
  | onDevice b isFixed => exact absurd hnode (hdevice b isFixed)

theorem not_source_of_node (hc : p.node e ≠ .constant) (hcall : ∀ args, p.node e ≠ .call args)
    (hdevice : ∀ b isFixed, p.node e ≠ .onDevice b isFixed)
    (hvar : p.node e = .var → p.binding e ≠ none) : ¬ Source p e := by
  intro hs
  rcases hs with (hs | ⟨args, hs⟩ | ⟨b, hs⟩) | ⟨hs, hbound⟩
  · exact hc hs
  · exact hcall args hs
  · exact hdevice b false hs
  · exact hvar hs hbound

/-- Recording the tokens of an expression that has none of its own. -/
theorem Recorded.record (hr : Recorded p st) (hs : ¬ Source p e)
    (hdevice : ∀ b isFixed, p.node e ≠ .onDevice b isFixed) (hl : Derived p st.tokenMap e l)
    (hreach : ∀ t i, p.node e = .tupleGetItem t i → Reach p.toFunc e) :
    Recorded p (st.record e l) ∧ Advance p st (st.record e l) := by
  have hkeeps : ∀ c lc, st.tokenMap c = some lc → (st.record e l).tokenMap c = some lc := by
    intro c lc hc
    show Function.update st.tokenMap e (some l) c = some lc
    by_cases hce : c = e
    · rw [hce] at hc ⊢
      rw [Function.update_self, Derived.unique hs hdevice hl (hr.derived e lc hc)]
    · rw [Function.update_of_ne hce, hc]
  have hother : ∀ c, c ≠ e → (st.record e l).tokenMap c = st.tokenMap c :=
    fun c hc => Function.update_of_ne hc _ _
  have hsource : ∀ c, Source p c → (st.record e l).tokenMap c = st.tokenMap c := by
    intro c hc
    apply hother c
    intro heq
    exact hs (heq ▸ hc)
  constructor
  · refine ⟨fun c lc hc => ?_, fun c lc hsc hc => ?_, fun c c' lc lc' hsc hsc' hne hc hc' => ?_,
      fun c hc => ?_, fun c t i lc hnode hc => ?_⟩
    · by_cases hce : c = e
      · rw [hce] at hc ⊢
        have hself : (st.record e l).tokenMap e = some l := Function.update_self e _ _
        obtain rfl := Option.some.inj (hself.symm.trans hc)
        exact hl.mono hkeeps
      · rw [hother c hce] at hc
        exact (hr.derived c lc hc).mono hkeeps
    · rw [hsource c hsc] at hc
      exact hr.own c lc hsc hc
    · rw [hsource c hsc] at hc
      rw [hsource c' hsc'] at hc'
      exact hr.disjoint c c' lc lc' hsc hsc' hne hc hc'
    · obtain ⟨⟨lc, hlc⟩, hchildren⟩ := hr.visited c hc
      exact ⟨⟨lc, hkeeps _ lc hlc⟩, hchildren⟩
    · by_cases hce : c = e
      · rw [hce] at hnode ⊢
        exact hreach t i hnode
      · rw [hother c hce] at hc
        exact hr.reach c t i lc hnode hc
  · refine ⟨hkeeps, fun c hc => hc, fun c hcreated hnone hsome => ?_⟩
    rw [hsource c (Or.inl hcreated)] at hsome
    exact absurd hnone hsome

/-- Creating the tokens of an expression that has some of its own. -/
theorem Recorded.createToken (hr : Recorded p st) (hs : Source p e) (hnone : st.tokenMap e = none) :
    ∃ st', createToken p.toFunc e st = some st' ∧ Recorded p st' ∧ st'.visited = st.visited ∧
      (∃ l, st'.tokenMap e = some l) ∧ ∀ c, c ≠ e → st'.tokenMap c = st.tokenMap c := by
  unfold Plan.createToken
  rw [hnone]
  simp only
  refine ⟨_, rfl, ?_, rfl, ⟨_, Function.update_self _ _ _⟩, fun c hc => Function.update_of_ne hc _ _⟩
  set types := flattenTupleType (p.checkedType e) with htypes
  set tokens := List.range' st.arena.length types.length with htokens
  have hself : Function.update st.tokenMap e (some tokens) e = some tokens := Function.update_self _ _ _
  have hother : ∀ c, c ≠ e → Function.update st.tokenMap e (some tokens) c = st.tokenMap c :=
    fun c hc => Function.update_of_ne hc _ _
  have hkeeps : ∀ c lc, st.tokenMap c = some lc →
      Function.update st.tokenMap e (some tokens) c = some lc := by
    intro c lc hc
    rw [hother c, hc]
    intro heq
    rw [heq, hnone] at hc
    cases hc
  have hold : ∀ c lc, Source p c → st.tokenMap c = some lc → lc.Disjoint tokens := by
    intro c lc hsc hc token hmem hmem'
    have hlt := (hr.own c lc hsc hc).2.2 token hmem
    have hge := (List.mem_range'_1.mp hmem').1
    omega
  refine ⟨fun c lc hc => ?_, fun c lc hsc hc => ?_, fun c c' lc lc' hsc hsc' hne hc hc' => ?_,
    fun c hc => ?_, fun c t i lc hnode hc => ?_⟩
  · by_cases hce : c = e
    · rw [hce] at hc ⊢
      unfold Derived
      rcases hs with (hs | ⟨args, hs⟩ | ⟨b, hs⟩) | ⟨hs, hbound⟩
      · simp [hs]
      · simp [hs]
      · simp [hs]
      · simp [hs, hbound]
    · exact (hr.derived c lc ((hother c hce).symm.trans hc)).mono hkeeps
  · simp only [State.record, List.length_append, List.length_map]
    by_cases hce : c = e
    · rw [hce] at hc ⊢
      obtain rfl := Option.some.inj (hself.symm.trans hc)
      refine ⟨List.length_range', List.nodup_range', fun token hmem => ?_⟩
      exact (List.mem_range'_1.mp hmem).2
    · obtain ⟨hlength, hnodup, hlt⟩ := hr.own c lc hsc ((hother c hce).symm.trans hc)
      exact ⟨hlength, hnodup, fun token hmem => Nat.lt_add_right _ (hlt token hmem)⟩
  · by_cases hce : c = e
    · have hc'e : c' ≠ e := fun heq => hne (hce.trans heq.symm)
      rw [hce] at hc
      obtain rfl := Option.some.inj (hself.symm.trans hc)
      exact (hold c' lc' hsc' ((hother c' hc'e).symm.trans hc')).symm
    · by_cases hc'e : c' = e
      · rw [hc'e] at hc'
        obtain rfl := Option.some.inj (hself.symm.trans hc')
        exact hold c lc hsc ((hother c hce).symm.trans hc)
      · exact hr.disjoint c c' lc lc' hsc hsc' hne ((hother c hce).symm.trans hc)
          ((hother c' hc'e).symm.trans hc')
  · obtain ⟨⟨lc, hlc⟩, hchildren⟩ := hr.visited c hc
    exact ⟨⟨lc, hkeeps _ lc hlc⟩, hchildren⟩
  · apply hr.reach c t i lc hnode
    rw [← hother c]
    · exact hc
    · intro hce
      rw [hce] at hnode
      rcases hs with (hs | ⟨args, hs⟩ | ⟨b, hs⟩) | ⟨hs, -⟩ <;> simp [hs] at hnode

theorem length_charge (tokens : List Nat) (arena : List (StorageToken τ)) :
    (tokens.foldl (fun arena token => arena.modify token
      fun tok => { tok with refCounter := tok.refCounter + 1 }) arena).length = arena.length := by
  induction tokens generalizing arena with
  | nil => rfl
  | cons token tokens ih => rw [List.foldl_cons, ih, List.length_modify]

theorem Recorded.charge (hr : Recorded p st) (tokens : List Nat) : Recorded p (st.charge tokens) := by
  refine ⟨hr.derived, fun c lc hsc hc => ?_, hr.disjoint, hr.visited, hr.reach⟩
  show _ ∧ _ ∧ ∀ token ∈ lc, token < (List.foldl _ st.arena tokens).length
  rw [length_charge]
  exact hr.own c lc hsc hc

theorem Recorded.mark (hr : Recorded p st) (hreal : ∃ l, st.tokenMap (p.real e) = some l)
    (hchildren : ∀ c ∈ (p.node e).children, c ∈ st.visited) : Recorded p (st.mark e) := by
  refine ⟨hr.derived, hr.own, hr.disjoint, fun c hc => ?_, hr.reach⟩
  cases List.mem_cons.mp hc with
  | inl heq =>
    rw [heq]
    exact ⟨hreal, fun c' hc' => List.mem_cons_of_mem _ (hchildren c' hc')⟩
  | inr hc =>
    obtain ⟨hreal', hchildren'⟩ := hr.visited c hc
    exact ⟨hreal', fun c' hc' => List.mem_cons_of_mem _ (hchildren' c' hc')⟩

end StencilGraph.Plan

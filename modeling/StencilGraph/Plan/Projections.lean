import StencilGraph.Plan.Advance

namespace StencilGraph.Plan
open Framework

section Visits

variable {τ : Type} (p : Program τ)

/-- Every projection of the function is plain. -/
def AllPlain : Prop := ∀ e t i, Reach p.toFunc e → p.node e = .tupleGetItem t i → p.Plain e t i

/-- What holds after a visit. -/
structure Visited (st : State τ) (e : Nat) (st' : State τ) : Prop where
  recorded : Recorded p st'
  advance : Advance p st st'
  visited : e ∈ st'.visited

/-- The visit of a smaller expression keeps the invariant, and it fails only when some projection is
not plain. -/
def VisitSpec (visit : Nat → State τ → Option (State τ)) (bound : Nat) : Prop :=
  ∀ e, e < bound → ∀ st, Recorded p st → Ready p st e →
    Outcome (¬ AllPlain p) (visit e st) (Visited p st e)

variable {p} {visit : Nat → State τ → Option (State τ)} {bound : Nat} {st : State τ} {e : Nat}

theorem holdsAt_of_plain (hplain : AllPlain p) (hr : Recorded p st) (e : Nat) : HoldsAt p st e := by
  induction e using Nat.strong_induction_on with
  | h e ih =>
    apply holdsAt_step hr e ih
    intro t i types lt l hnode htypes hlt hl
    have ht : t < e := p.forward e t (by rw [hnode]; exact List.mem_singleton_self t)
    have hreach := hr.reach e t i l hnode hl
    apply slicedAt_of_plain hr _ t i types lt l hnode htypes hlt hl
    intro t' i' hnode'
    rw [hnode] at hnode'
    cases hnode'
    exact ⟨ih t ht, hplain e t i hreach hnode⟩

theorem getToken_spec (hvisit : VisitSpec p visit bound) (he : e < bound) (hr : Recorded p st)
    (hready : Ready p st e) : Outcome (¬ AllPlain p) (getToken p.toFunc visit e st)
      fun r => Visited p st e r.2 ∧ r.2.tokenMap (p.real e) = some r.1 := by
  unfold getToken
  simp only [Option.bind_eq_bind]
  apply (hvisit e he st hr hready).bind
  intro st₁ h₁
  have hreal : p.real e < bound := Nat.lt_of_le_of_lt (real_le e) he
  apply (hvisit (p.real e) hreal st₁ h₁.recorded (hready.advance h₁.advance).real).bind
  intro st₂ h₂
  have hvisited := h₂.advance.visited e h₁.visited
  obtain ⟨⟨l, hl⟩, -⟩ := h₂.recorded.visited e hvisited
  rw [hl]
  exact ⟨⟨h₂.recorded, h₁.advance.trans h₂.advance, hvisited⟩, hl⟩

theorem visitArgs_spec (hvisit : VisitSpec p visit bound) (args : List Nat)
    (hargs : ∀ arg ∈ args, arg < bound ∧ Ready p st arg) (hr : Recorded p st) :
    Outcome (¬ AllPlain p) (visitArgs p.toFunc visit args st)
      fun st' => Recorded p st' ∧ Advance p st st' ∧ ∀ arg ∈ args, arg ∈ st'.visited := by
  unfold visitArgs
  induction args generalizing st with
  | nil => exact ⟨hr, .refl st, fun _ h => absurd h List.not_mem_nil⟩
  | cons arg args ih =>
    rw [List.foldlM_cons]
    simp only [Option.bind_eq_bind, Option.bind_assoc]
    obtain ⟨hlt, hready⟩ := hargs arg List.mem_cons_self
    apply (getToken_spec hvisit hlt hr hready).bind
    intro r h
    obtain ⟨tokens, st₁⟩ := r
    obtain ⟨h, -⟩ := h
    rw [Option.bind_some]
    have hadvance : Advance p st (st₁.charge tokens) := ⟨h.advance.keeps, h.advance.visited,
      h.advance.created⟩
    apply (ih (fun arg' harg' => ?_) (h.recorded.charge tokens)).mono
    · intro st' h'
      obtain ⟨hr', hadvance', hvisited'⟩ := h'
      refine ⟨hr', hadvance.trans hadvance', fun arg' harg' => ?_⟩
      cases List.mem_cons.mp harg' with
      | inl heq =>
        rw [heq]
        exact hadvance'.visited arg h.visited
      | inr hmem => exact hvisited' arg' hmem
    · obtain ⟨hlt', hready'⟩ := hargs arg' (List.mem_cons_of_mem _ harg')
      exact ⟨hlt', hready'.advance hadvance⟩

theorem visitFields_spec (hvisit : VisitSpec p visit bound) (fields : List Nat) (acc : List Nat)
    (hfields : ∀ field ∈ fields, field < bound ∧ Ready p st field) (hr : Recorded p st) :
    Outcome (¬ AllPlain p) (visitFields p.toFunc visit fields (acc, st))
      fun r => Recorded p r.2 ∧ Advance p st r.2 ∧ (∀ field ∈ fields, field ∈ r.2.visited) ∧
        ∃ ls, List.Forall₂ (fun c l => r.2.tokenMap (p.real c) = some l) fields ls ∧
          r.1 = acc ++ ls.flatten := by
  unfold visitFields
  induction fields generalizing acc st with
  | nil => exact ⟨hr, .refl st, fun _ h => absurd h List.not_mem_nil, [], .nil, by simp⟩
  | cons field fields ih =>
    rw [List.foldlM_cons]
    simp only [Option.bind_eq_bind, Option.bind_assoc]
    obtain ⟨hlt, hready⟩ := hfields field List.mem_cons_self
    apply (getToken_spec hvisit hlt hr hready).bind
    intro r h
    obtain ⟨tokens, st₁⟩ := r
    obtain ⟨h, htokens⟩ := h
    rw [Option.bind_some]
    apply (ih (acc ++ tokens) (fun field' hfield' => ?_) h.recorded).mono
    · intro r h'
      obtain ⟨hr', hadvance', hvisited', ls, hls, heq⟩ := h'
      refine ⟨hr', h.advance.trans hadvance', fun field' hfield' => ?_, tokens :: ls,
        .cons (hadvance'.keeps _ _ htokens) hls, ?_⟩
      · cases List.mem_cons.mp hfield' with
        | inl heq =>
          rw [heq]
          exact hadvance'.visited field h.visited
        | inr hmem => exact hvisited' field' hmem
      · rw [heq, List.flatten_cons, List.append_assoc]
    · obtain ⟨hlt', hready'⟩ := hfields field' (List.mem_cons_of_mem _ hfield')
      exact ⟨hlt', hready'.advance h.advance⟩

/-- An expression whose tokens are those of another one. -/
theorem visitAlias_spec {target value : Nat} (hvisit : VisitSpec p visit bound) (hv : value < bound)
    (hr : Recorded p st) (hready : Ready p st value) (hs : ¬ Source p target)
    (hkind : (p.node target = .var ∧ p.binding target = some value) ∨
      ∃ w x, p.node target = .letIn w x value) :
    Outcome (¬ AllPlain p) (visitAlias p.toFunc visit target value st)
      fun st' => Visited p st value st' ∧ ∃ l, st'.tokenMap target = some l := by
  unfold visitAlias
  simp only [Option.bind_eq_bind]
  apply (getToken_spec hvisit hv hr hready).bind
  intro r h
  obtain ⟨tokens, st₁⟩ := r
  obtain ⟨h, htokens⟩ := h
  have hderived : Derived p st₁.tokenMap target tokens := by
    unfold Derived
    rcases hkind with ⟨hnode, hbound⟩ | ⟨w, x, hnode⟩
    · rw [hnode]
      intro x hx
      rw [hbound] at hx
      cases hx
      exact htokens
    · rw [hnode]
      exact htokens
  have hnode : (∀ b isFixed, p.node target ≠ .onDevice b isFixed) ∧
      ∀ t i, p.node target ≠ .tupleGetItem t i := by
    rcases hkind with ⟨hnode, -⟩ | ⟨w, x, hnode⟩ <;> simp [hnode]
  obtain ⟨hr', hadvance'⟩ := h.recorded.record hs hnode.1 hderived
    fun t i ht => absurd ht (hnode.2 t i)
  exact ⟨⟨hr', h.advance.trans hadvance', h.visited⟩, tokens, Function.update_self _ _ _⟩

theorem visitLet_spec (hvisit : VisitSpec p visit bound) (fuel e : Nat) (st : State τ)
    (hfuel : e < fuel) (hbound : e ≤ bound)
    (hlet : e < bound ∨ ∃ v x b, p.node e = .letIn v x b) (hr : Recorded p st)
    (hready : Ready p st e) : Outcome (¬ AllPlain p) (visitLet p.toFunc visit fuel e st)
      fun st' => Recorded p st' ∧ Advance p st st' ∧ (∃ l, st'.tokenMap (p.real e) = some l) ∧
        ∀ c ∈ (p.node e).children, c ∈ st'.visited := by
  induction fuel generalizing e st with
  | zero => omega
  | succ fuel ih =>
    unfold visitLet
    split
    · rename_i v x b hnode
      obtain ⟨hbinding, -⟩ := p.letIn e v x b hnode
      have hxmem : x ∈ (p.node e).children := by
        rw [hnode]
        exact List.mem_cons_self
      have hbmem : b ∈ (p.node e).children := by
        rw [hnode]
        exact List.mem_cons_of_mem _ (List.mem_singleton_self b)
      have hx := p.forward e x hxmem
      have hb := p.forward e b hbmem
      have hvar := (p.bound v x hbinding).2.1
      have hsv : ¬ Source p v := not_source_of_node (by simp [hvar]) (by simp [hvar]) (by simp [hvar])
        (by simp [hbinding])
      have hse : ¬ Source p e := not_source_of_node (by simp [hnode]) (by simp [hnode])
        (by simp [hnode]) (by simp [hnode])
      have hreadyx : Ready p st x := hready.child hxmem (by
        intro w x' b' hnode'
        rw [hnode] at hnode'
        cases hnode'
        rfl)
      simp only [Option.bind_eq_bind]
      apply (visitAlias_spec hvisit (by omega) hr hreadyx hsv (Or.inl ⟨hvar, hbinding⟩)).bind
      intro st₁ h₁
      obtain ⟨h₁, hv₁⟩ := h₁
      have hready₁ := (hready.advance h₁.advance).body hnode hv₁
      apply (ih b st₁ (by omega) (by omega) (Or.inl (by omega)) h₁.recorded hready₁).bind
      intro st₂ h₂
      obtain ⟨hr₂, hadvance₂, -, -⟩ := h₂
      apply (visitAlias_spec hvisit (by omega) hr₂ (hready₁.advance hadvance₂) hse
        (Or.inr ⟨v, x, hnode⟩)).mono
      intro st₃ h₃
      obtain ⟨h₃, hl⟩ := h₃
      refine ⟨h₃.recorded, (h₁.advance.trans hadvance₂).trans h₃.advance, ?_, fun c hc => ?_⟩
      · rw [real_of_ne (by simp [hnode])]
        exact hl
      · rw [hnode] at hc
        cases List.mem_cons.mp hc with
        | inl heq =>
          rw [heq]
          exact h₃.advance.visited x (hadvance₂.visited x h₁.visited)
        | inr hc =>
          rw [List.mem_singleton.mp hc]
          exact h₃.visited
    · rename_i hnode
      have hlt : e < bound := hlet.resolve_right fun ⟨v, x, b, h⟩ => hnode v x b h
      apply (hvisit e hlt st hr hready).mono
      intro st' h
      obtain ⟨hreal, hchildren⟩ := h.recorded.visited e h.visited
      exact ⟨h.recorded, h.advance, hreal, hchildren⟩

/-- A call, whose tokens are created before its arguments are visited. -/
theorem visitCall_spec (hvisit : VisitSpec p visit bound) (args : List Nat) (hbound : e ≤ bound)
    (hargs : (p.node e).children = args) (hcreated : Created p e)
    (hlet : ∀ w x b, p.node e ≠ .letIn w x b) (hnot : e ∉ st.visited) (hr : Recorded p st)
    (hready : Ready p st e) : Outcome (¬ AllPlain p) (visitCall p.toFunc visit e args st)
      fun st' => Recorded p st' ∧ Advance p st (st'.mark e) ∧ (∃ l, st'.tokenMap e = some l) ∧
        ∀ c ∈ (p.node e).children, c ∈ st'.visited := by
  unfold visitCall
  obtain ⟨st₁, hrun, hr₁, hvisited₁, ⟨l, hl⟩, hother⟩ := hr.createToken (Or.inl hcreated)
    (hready.fresh e (Nat.le_refl e) hcreated hnot)
  have hnone := hready.fresh e (Nat.le_refl e) hcreated hnot
  have hkeeps : ∀ c lc, st.tokenMap c = some lc → st₁.tokenMap c = some lc := by
    intro c lc hc
    rw [hother c, hc]
    intro heq
    rw [heq, hnone] at hc
    cases hc
  rw [hrun]
  simp only [Option.bind_eq_bind, Option.bind_some]
  have hready₁ : ∀ arg ∈ args, arg < bound ∧ Ready p st₁ arg := by
    intro arg harg
    rw [← hargs] at harg
    have hlt := p.forward e arg harg
    have hchild := hready.child harg fun w x b h => absurd h (hlet w x b)
    refine ⟨by omega, fun c hc hcc hcv => ?_, fun v hv => ?_, hchild.reach⟩
    · rw [hother c (by omega)]
      exact hchild.fresh c hc hcc (by rwa [← hvisited₁])
    · obtain ⟨lv, hlv⟩ := hchild.scope v hv
      exact ⟨lv, hkeeps v lv hlv⟩
  apply (visitArgs_spec hvisit args hready₁ hr₁).mono
  intro st' h
  obtain ⟨hr', hadvance, hvisited⟩ := h
  refine ⟨hr', ⟨fun c lc hc => hadvance.keeps c lc (hkeeps c lc hc), fun c hc => ?_,
    fun c hcc hnone' hsome => ?_⟩, ⟨l, hadvance.keeps e l hl⟩, by rwa [hargs]⟩
  · apply List.mem_cons_of_mem
    apply hadvance.visited c
    rwa [hvisited₁]
  · by_cases hce : c = e
    · rw [hce]
      exact List.mem_cons_self
    · apply List.mem_cons_of_mem
      apply hadvance.created c hcc _ hsome
      rw [hother c hce, hnone']

theorem Visited.of_mark {st' : State τ} (hr : Recorded p st')
    (hadvance : Advance p st (st'.mark e)) (hreal : ∃ l, st'.tokenMap (p.real e) = some l)
    (hchildren : ∀ c ∈ (p.node e).children, c ∈ st'.visited) : Visited p st e (st'.mark e) :=
  ⟨hr.mark hreal hchildren, hadvance, List.mem_cons_self⟩

theorem Advance.mark {st' : State τ} (h : Advance p st st') (e : Nat) : Advance p st (st'.mark e) :=
  ⟨h.keeps, fun c hc => List.mem_cons_of_mem _ (h.visited c hc),
    fun c hcc hnone hsome => List.mem_cons_of_mem _ (h.created c hcc hnone hsome)⟩

/-- The visit of an expression, by induction on the depth that is left. -/
theorem visitExpr_spec (fuel : Nat) : VisitSpec p (visitExpr p.toFunc fuel) fuel := by
  induction fuel with
  | zero => exact fun e he => absurd he (Nat.not_lt_zero e)
  | succ fuel ih =>
    intro e he st hr hready
    have hle : e ≤ fuel := Nat.le_of_lt_succ he
    have hsmall (c : Nat) (hc : c ∈ (p.node e).children) : c < fuel := by
      have hlt := p.forward e c hc
      omega
    unfold visitExpr
    by_cases hmem : e ∈ st.visited
    · rw [if_pos hmem]
      exact ⟨hr, .refl st, hmem⟩
    rw [if_neg hmem]
    simp only [Option.bind_eq_bind]
    cases hnode : p.node e with
    | var =>
      have hscope := hready.scope e (.var e hnode)
      have hreal : p.real e = e := real_of_ne (by simp [hnode])
      exact .of_mark hr ((Advance.refl st).mark e) (by rwa [hreal]) (by simp [hnode, Expr.children])
    | constant =>
      have hcreated : Created p e := Or.inl hnode
      have hnone := hready.fresh e (Nat.le_refl e) hcreated hmem
      obtain ⟨st₁, hrun, hr₁, hvisited₁, hl, hother⟩ := hr.createToken (Or.inl hcreated) hnone
      simp only [hrun, Option.bind_some]
      apply Visited.of_mark hr₁ _ (by rwa [real_of_ne (by simp [hnode])]) (by simp [hnode, Expr.children])
      refine ⟨fun c lc hc => ?_, fun c hc => ?_, fun c hcc hnone' hsome => ?_⟩
      · show st₁.tokenMap c = some lc
        rw [hother c, hc]
        intro heq
        rw [heq, hnone] at hc
        cases hc
      · apply List.mem_cons_of_mem
        rwa [hvisited₁]
      · by_cases hce : c = e
        · rw [hce]
          exact List.mem_cons_self
        · exact absurd ((hother c hce).trans hnone') hsome
    | call args =>
      have hcreated : Created p e := Or.inr (Or.inl ⟨args, hnode⟩)
      apply (visitCall_spec ih args hle (by rw [hnode]; rfl) hcreated (by simp [hnode]) hmem hr
        hready).bind
      intro st' h
      obtain ⟨hr', hadvance, hl, hchildren⟩ := h
      exact .of_mark hr' hadvance (by rwa [real_of_ne (by simp [hnode])]) hchildren
    | tuple fields =>
      unfold visitTuple
      simp only [Option.bind_eq_bind, Option.bind_assoc]
      have hchild : ∀ field ∈ fields, field < fuel ∧ Ready p st field := by
        intro field hfield
        have hfield' : field ∈ (p.node e).children := by
          rw [hnode]
          exact hfield
        exact ⟨hsmall field hfield', hready.child hfield' (by simp [hnode])⟩
      apply (visitFields_spec ih fields [] hchild hr).bind
      intro r h
      obtain ⟨tokens, st₁⟩ := r
      obtain ⟨hr₁, hadvance, hvisited, ls, hls, htokens⟩ := h
      have hs : ¬ Source p e := not_source_of_node (by simp [hnode]) (by simp [hnode])
        (by simp [hnode]) (by simp [hnode])
      have hderived : Derived p st₁.tokenMap e tokens := by
        unfold Derived
        rw [hnode]
        exact ⟨ls, hls, htokens⟩
      obtain ⟨hr₂, hadvance₂⟩ := hr₁.record hs (by simp [hnode]) hderived (by simp [hnode])
      apply Visited.of_mark hr₂ ((hadvance.trans hadvance₂).mark e)
      · rw [real_of_ne (by simp [hnode])]
        exact ⟨tokens, Function.update_self _ _ _⟩
      · rw [hnode]
        exact hvisited
    | tupleGetItem t i =>
      unfold visitTupleGetItem
      simp only [Option.bind_eq_bind, Option.bind_assoc]
      have ht : t ∈ (p.node e).children := by
        rw [hnode]
        exact List.mem_singleton_self t
      apply (getToken_spec ih (hsmall t ht) hr (hready.child ht (by simp [hnode]))).bind
      intro r h
      obtain ⟨tokens, st₁⟩ := r
      obtain ⟨h, htokens⟩ := h
      simp only at htokens ⊢
      cases htoken : tokens[i]? with
      | none =>
        intro hplain
        obtain ⟨leaf, hleaf, -⟩ := hplain e t i hready.reach hnode
        cases forall₂_getElem? (holdsAt_of_plain hplain h.recorded t tokens htokens) i with
        | inl hnone => simp [hleaf] at hnone
        | inr hsome => simp [htoken] at hsome
      | some token =>
        have hs : ¬ Source p e := not_source_of_node (by simp [hnode]) (by simp [hnode])
          (by simp [hnode]) (by simp [hnode])
        have hderived : Derived p st₁.tokenMap e [token] := by
          unfold Derived
          rw [hnode]
          exact ⟨tokens, token, htokens, htoken, rfl⟩
        obtain ⟨hr₂, hadvance₂⟩ := h.recorded.record hs (by simp [hnode]) hderived
          (fun _ _ _ => hready.reach)
        apply Visited.of_mark hr₂ ((h.advance.trans hadvance₂).mark e)
        · rw [real_of_ne (by simp [hnode])]
          exact ⟨[token], Function.update_self _ _ _⟩
        · intro c hc
          rw [hnode] at hc
          rw [List.mem_singleton.mp hc]
          exact h.visited
    | letIn v x b =>
      apply (visitLet_spec ih (fuel + 1) e st he hle (Or.inr ⟨v, x, b, hnode⟩) hr hready).bind
      intro st' h
      obtain ⟨hr', hadvance, hl, hchildren⟩ := h
      exact .of_mark hr' (hadvance.mark e) hl hchildren
    | onDevice b isFixed =>
      have hb : b ∈ (p.node e).children := by
        rw [hnode]
        exact List.mem_singleton_self b
      cases isFixed with
      | true =>
        apply (ih b (hsmall b hb) st hr (hready.child hb (by simp [hnode]))).bind
        intro st' h
        obtain ⟨hreal, -⟩ := h.recorded.visited b h.visited
        apply Visited.of_mark h.recorded (h.advance.mark e)
        · rw [← real_real, real_onDevice hnode]
          exact hreal
        · intro c hc
          rw [hnode] at hc
          rw [List.mem_singleton.mp hc]
          exact h.visited
      | false =>
        have hcreated : Created p e := Or.inr (Or.inr ⟨b, hnode⟩)
        apply (visitCall_spec ih [b] hle (by rw [hnode]; rfl) hcreated (by simp [hnode]) hmem hr
          hready).bind
        intro st' h
        obtain ⟨hr', hadvance, -, hchildren⟩ := h
        obtain ⟨hreal, -⟩ := hr'.visited b (hchildren b hb)
        apply Visited.of_mark hr' hadvance _ hchildren
        rw [← real_real, real_onDevice hnode]
        exact hreal

theorem recorded_empty : Recorded p (.empty : State τ) where
  derived := by simp [State.empty]
  own := by simp [State.empty]
  disjoint := by simp [State.empty]
  visited := by simp [State.empty]
  reach := by simp [State.empty]

/-- The tokens of the parameters. -/
theorem createParams_spec (params : List Nat) (hparams : ∀ v ∈ params, v ∈ p.params)
    (hnodup : params.Nodup) (hr : Recorded p st) (hnone : ∀ v ∈ params, st.tokenMap v = none) :
    ∃ st', params.foldlM (fun st param => createToken p.toFunc param st) st = some st' ∧
      Recorded p st' ∧ st'.visited = st.visited ∧ (∀ v ∈ params, ∃ l, st'.tokenMap v = some l) ∧
      ∀ e, e ∉ params → st'.tokenMap e = st.tokenMap e := by
  induction params generalizing st with
  | nil => exact ⟨st, rfl, hr, rfl, fun _ h => absurd h List.not_mem_nil, fun _ _ => rfl⟩
  | cons v params ih =>
    obtain ⟨hv, hnodup⟩ := List.nodup_cons.mp hnodup
    have hsource : Source p v := Or.inr (p.param v (hparams v List.mem_cons_self))
    obtain ⟨st₁, hrun, hr₁, hvisited₁, ⟨l, hl⟩, hother⟩ := hr.createToken hsource
      (hnone v List.mem_cons_self)
    have hne : ∀ w ∈ params, w ≠ v := fun w hw heq => hv (heq ▸ hw)
    obtain ⟨st₂, hrun₂, hr₂, hvisited₂, hrecorded, hother₂⟩ := ih
      (fun w hw => hparams w (List.mem_cons_of_mem _ hw)) hnodup hr₁
      (fun w hw => (hother w (hne w hw)).trans (hnone w (List.mem_cons_of_mem _ hw)))
    refine ⟨st₂, ?_, hr₂, hvisited₂.trans hvisited₁, fun w hw => ?_, fun e he => ?_⟩
    · rw [List.foldlM_cons, hrun]
      exact hrun₂
    · cases List.mem_cons.mp hw with
      | inl heq =>
        rw [heq]
        exact ⟨l, (hother₂ v hv).trans hl⟩
      | inr hw => exact hrecorded w hw
    · rw [List.mem_cons, not_or] at he
      rw [hother₂ e he.2, hother e he.1]

/-- After a run everything is visited; a run fails only when some projection is not plain. -/
theorem run_recorded (p : Program τ) : Outcome (¬ AllPlain p) (run p.toFunc)
    fun st => Recorded p st ∧ ∀ e, Reach p.toFunc e → e ∈ st.visited := by
  obtain ⟨st₀, hrun, hr, hvisited, hrecorded, hother⟩ := createParams_spec (p := p) p.params
    (fun _ h => h) p.nodup recorded_empty (fun _ _ => rfl)
  have hready : Ready p st₀ p.body := by
    refine ⟨fun c _ hcreated _ => ?_, fun v hv => hrecorded v (p.closed v hv), .body⟩
    apply hother c
    intro hc
    have hvar := (p.param c hc).1
    rcases hcreated with h | ⟨args, h⟩ | ⟨b, h⟩ <;> simp [h] at hvar
  unfold run
  rw [hrun]
  simp only [Option.bind_eq_bind, Option.bind_some]
  apply (getToken_spec (visitExpr_spec (p.body + 1)) (Nat.lt_succ_self _) hr hready).bind
  intro r h
  obtain ⟨tokens, st⟩ := r
  obtain ⟨h, -⟩ := h
  refine ⟨h.recorded.charge tokens, fun e he => ?_⟩
  induction he with
  | body => exact h.visited
  | child e c _ hc ih => exact (h.recorded.visited e ih).2 c hc

end Visits

/-- The planner records for every projection the tokens of the field, all of them and no others. -/
def ProjectionsRight {τ : Type} (p : Program τ) : Prop :=
  ∃ st, run p.toFunc = some st ∧
    ∀ e t i types, Reach p.toFunc e → p.node e = .tupleGetItem t i →
      p.checkedType t = .tuple types →
      ∃ tokens, st.tokenMap (ignoreOnDevice p.toFunc t) = some tokens ∧
        st.tokenMap e = some (fieldOf types i tokens)

theorem projectionsRight_of_plain {τ : Type} {p : Program τ} (hplain : AllPlain p) :
    ProjectionsRight p := by
  have hrun := run_recorded p
  cases hst : run p.toFunc with
  | none =>
    rw [hst] at hrun
    exact absurd hplain hrun
  | some st =>
    rw [hst] at hrun
    obtain ⟨hr, hvisited⟩ := hrun
    refine ⟨st, hst, fun e t i types he hnode htypes => ?_⟩
    obtain ⟨⟨l, hl⟩, -⟩ := hr.visited e (hvisited e he)
    rw [real_of_ne (by simp [hnode])] at hl
    have hderived := hr.derived e l hl
    unfold Derived at hderived
    rw [hnode] at hderived
    obtain ⟨lt, token, hlt, -, -⟩ := hderived
    refine ⟨lt, hlt, ?_⟩
    have hsliced : SlicedAt p st e := slicedAt_of_plain hr fun t' i' hnode' =>
      ⟨holdsAt_of_plain hplain hr t', hplain e t' i' he hnode'⟩
    rw [hl, hsliced t i types lt l hnode htypes hlt hl]

/-- It is enough that the projected fields and those before them are single tensors. -/
theorem projectionsRight_of_single {τ : Type} (p : Program τ)
    (hsingle : ∀ e t i types, Reach p.toFunc e → p.node e = .tupleGetItem t i →
      p.checkedType t = .tuple types →
      (∀ type ∈ types.take i, width type = 1) ∧ width (p.checkedType e) = 1) :
    ProjectionsRight p := by
  apply projectionsRight_of_plain
  intro e t i he hnode
  obtain ⟨types, htypes, -⟩ := p.tupleGetItem e t i hnode
  obtain ⟨hbefore, hwidth⟩ := hsingle e t i types he hnode htypes
  exact p.plain_of_single hnode htypes hbefore hwidth

/-- A projection names the storage of its field exactly when the field is one tensor and the tensor
at position `i` of the flattened tuple is the same one. -/
theorem projectionsRight_iff {τ : Type} (p : Program τ) :
    ProjectionsRight p ↔
      ∀ e t i, Reach p.toFunc e → p.node e = .tupleGetItem t i → p.Plain e t i := by
  constructor
  · intro hright e t i he hnode
    obtain ⟨st, hst, hright⟩ := hright
    have hrun := run_recorded p
    rw [hst] at hrun
    obtain ⟨hr, -⟩ := hrun
    have hsliced : ∀ e, SlicedAt p st e := by
      intro e t i types lt l hnode htypes hlt hl
      obtain ⟨tokens, htokens, hfield⟩ := hright e t i types (hr.reach e t i l hnode hl) hnode htypes
      obtain rfl := Option.some.inj (hlt.symm.trans htokens)
      exact Option.some.inj (hl.symm.trans hfield)
    obtain ⟨types, htypes, -⟩ := p.tupleGetItem e t i hnode
    obtain ⟨tokens, -, hfield⟩ := hright e t i types he hnode htypes
    exact plain_of_slicedAt hr hnode hfield (holdsAt_of_sliced hr hsliced t) (hsliced e)
  · exact projectionsRight_of_plain

/-- The projection `((a, b), c).1` as a function of `a`, `b` and `c`. -/
def nestedFunc : Func Unit where
  node e := [.var, .var, .var, .tuple [0, 1], .tuple [3, 2], .tupleGetItem 4 1].getD e .var
  checkedType e :=
    if e = 3 then .tuple [.tensor (), .tensor ()]
    else if e = 4 then .tuple [.tuple [.tensor (), .tensor ()], .tensor ()]
    else .tensor ()
  params := [0, 1, 2]
  body := 5

theorem nestedFunc_node (e : Nat) : nestedFunc.node e = .var ∨
    (e = 3 ∧ nestedFunc.node e = .tuple [0, 1]) ∨ (e = 4 ∧ nestedFunc.node e = .tuple [3, 2]) ∨
    (e = 5 ∧ nestedFunc.node e = .tupleGetItem 4 1) := by
  by_cases he : e < 6
  · interval_cases e <;> simp [nestedFunc]
  · left
    exact List.getD_eq_default _ _ (by simp; omega)

theorem nestedFunc_free (e v : Nat) (h : Free nestedFunc e v) (he : e ≤ 5) : v ∈ [0, 1, 2] := by
  induction h with
  | var v hv =>
    rcases nestedFunc_node v with hn | ⟨rfl, hn⟩ | ⟨rfl, hn⟩ | ⟨rfl, hn⟩
    · interval_cases v <;> first | simp; done | cases hv
    · cases hv
    · cases hv
    · cases hv
  | child e c v hc _ _ ih =>
    apply ih
    rcases nestedFunc_node e with hn | ⟨rfl, hn⟩ | ⟨rfl, hn⟩ | ⟨rfl, hn⟩ <;> rw [hn] at hc <;>
      simp [Expr.children] at hc <;> omega

def nested : Program Unit where
  toFunc := nestedFunc
  binding _ := none
  forward e c hc := by
    rcases nestedFunc_node e with hn | ⟨rfl, hn⟩ | ⟨rfl, hn⟩ | ⟨rfl, hn⟩ <;> rw [hn] at hc <;>
      simp [Expr.children] at hc <;> omega
  bound _ _ h := by cases h
  letIn e v x b h := by
    rcases nestedFunc_node e with hn | ⟨-, hn⟩ | ⟨-, hn⟩ | ⟨-, hn⟩ <;> rw [hn] at h <;> cases h
  tuple e fields h := by
    rcases nestedFunc_node e with hn | ⟨rfl, hn⟩ | ⟨rfl, hn⟩ | ⟨rfl, hn⟩ <;> rw [hn] at h <;> cases h <;> rfl
  tupleGetItem e t i h := by
    rcases nestedFunc_node e with hn | ⟨rfl, hn⟩ | ⟨rfl, hn⟩ | ⟨rfl, hn⟩ <;> rw [hn] at h <;> cases h
    exact ⟨_, rfl, rfl⟩
  onDevice e b isFixed h := by
    rcases nestedFunc_node e with hn | ⟨-, hn⟩ | ⟨-, hn⟩ | ⟨-, hn⟩ <;> rw [hn] at h <;> cases h
  param v hv := by
    simp only [nestedFunc, List.mem_cons, List.not_mem_nil, or_false] at hv
    rcases hv with rfl | rfl | rfl <;> exact ⟨rfl, rfl⟩
  nodup := by decide
  closed v hv := nestedFunc_free 5 v hv (Nat.le_refl 5)

/-- The planner records the token of `b` for `((a, b), c).1`. -/
theorem nested_projection_wrong : ¬ ProjectionsRight nested := by
  intro hright
  obtain ⟨st, hst, hright⟩ := hright
  have hrun : (run nestedFunc).map (fun st => (st.tokenMap 4, st.tokenMap 5)) =
      some (some [0, 1, 2], some [1]) := by decide
  have hst' : run nestedFunc = some st := hst
  rw [hst'] at hrun
  obtain ⟨htuple, hproj⟩ := Prod.mk.inj (Option.some.inj hrun)
  obtain ⟨tokens, htokens, hfield⟩ := hright 5 4 1 _ .body rfl rfl
  obtain rfl := Option.some.inj (htuple.symm.trans htokens)
  exact absurd (hproj.symm.trans hfield) (by decide)

end StencilGraph.Plan

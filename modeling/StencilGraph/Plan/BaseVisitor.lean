import StencilGraph.Plan.Projections

namespace StencilGraph.Plan

/-- `StorageAllocaBaseVisitor` with its virtual methods. `maps` reads the token map and the visit
counter of a state; no use is made of the arena there. -/
structure BaseVisitor (τ S : Type) where
  maps : S → State τ
  record : Nat → List Nat → S → S
  mark : Nat → S → S
  -- `CreateToken(op, false)`
  createToken : Nat → S → Option S
  visitCall : (Nat → S → Option S) → Nat → List Nat → S → Option S
  -- `tok->ref_counter += 1`
  charge : List Nat → S → S

namespace BaseVisitor

variable {τ S : Type}

section Lookup

variable (maps : S → State τ) (f : Func τ) (visit : Nat → S → Option S)

def getToken (e : Nat) (st : S) : Option (List Nat × S) := do
  let st ← visit e st
  let st ← visit (ignoreOnDevice f e) st
  let tokens ← (maps st).tokenMap (ignoreOnDevice f e)
  some (tokens, st)

def addTokens (st : List Nat × S) (e : Nat) : Option (List Nat × S) := do
  let (tokens, st') ← getToken maps f visit e st.2
  some (st.1 ++ tokens, st')

/-- The tokens of some expressions one after the other. -/
def getTokens (es : List Nat) (st : List Nat × S) : Option (List Nat × S) :=
  es.foldlM (addTokens maps f visit) st

end Lookup

variable (v : BaseVisitor τ S) (f : Func τ)

section Visit

variable (visit : Nat → S → Option S)

def visitTuple (e : Nat) (fields : List Nat) (st : S) : Option S := do
  let (tokens, st) ← getTokens v.maps f visit fields ([], st)
  some (v.record e tokens st)

def visitTupleGetItem (e tuple index : Nat) (st : S) : Option S := do
  let (tokens, st) ← getToken v.maps f visit tuple st
  let token ← tokens[index]?
  some (v.record e [token] st)

/-- `PreVisitLetBinding_` for the variable of a let, and `PostVisitLet_` for the let itself. -/
def visitAlias (e value : Nat) (st : S) : Option S := do
  let (tokens, st) ← getToken v.maps f visit value st
  some (v.record e tokens st)

def visitLet : Nat → Nat → S → Option S
  | 0, _, _ => none
  | fuel + 1, e, st =>
    match f.node e with
    | .letIn var value body => do
      let st ← v.visitAlias f visit var value st
      let st ← visitLet fuel body st
      v.visitAlias f visit e body st
    | _ => visit e st

end Visit

def visitExpr : Nat → Nat → S → Option S
  | 0, _, _ => none
  | fuel + 1, e, st =>
    if e ∈ (v.maps st).visited then some st
    else do
      let st ←
        match f.node e with
        | .var => some st
        | .constant => v.createToken e st
        | .call args => v.visitCall (visitExpr fuel) e args st
        | .tuple fields => v.visitTuple f (visitExpr fuel) e fields st
        | .tupleGetItem tuple index => v.visitTupleGetItem f (visitExpr fuel) e tuple index st
        | .letIn _ _ _ => v.visitLet f (visitExpr fuel) (fuel + 1) e st
        | .onDevice body true => visitExpr fuel body st
        | .onDevice body false => v.visitCall (visitExpr fuel) e [body] st
      some (v.mark e st)

/-- `Run`: the tokens of the parameters, of the body, and the body's tokens stay alive. -/
def run (st : S) : Option S := do
  let st ← f.params.foldlM (fun st param => v.createToken param st) st
  let (tokens, st) ← getToken v.maps f (v.visitExpr f (f.body + 1)) f.body st
  some (v.charge tokens st)

end BaseVisitor

variable {τ : Type} (p : Program τ)

/-- What every visitor keeps about the two maps. -/
structure Structural (st : State τ) : Prop where
  derived : ∀ e l, st.tokenMap e = some l → Derived p st.tokenMap e l
  own : ∀ e l, Source p e → st.tokenMap e = some l → l.length = width (p.checkedType e)
  visited : ∀ e ∈ st.visited, (∃ l, st.tokenMap (p.real e) = some l) ∧
    ∀ c ∈ (p.node e).children, c ∈ st.visited
  projected : ∀ e t i l, p.node e = .tupleGetItem t i → st.tokenMap e = some l → Reach p.toFunc e
  created : ∀ e ∈ st.visited, Created p e → ∃ l, st.tokenMap e = some l
  reach : ∀ e ∈ st.visited, Reach p.toFunc e
  nodup : st.visited.Nodup

/-- What a visit of `e` does to the maps. -/
structure VisitedBelow (st : State τ) (e : Nat) (st' : State τ) : Prop where
  structural : Structural p st'
  advance : Advance p st st'
  visited : e ∈ st'.visited
  below : ∀ c ∈ st'.visited, c ∈ st.visited ∨ c ≤ e

variable {S X : Type} (v : BaseVisitor τ S) (G : X → S → Prop)

/-- The visit of a smaller expression ends and keeps the invariant. -/
def Visits (visit : Nat → S → Option S) (bound : Nat) : Prop :=
  ∀ e, e < bound → ∀ x st, Structural p (v.maps st) → G x st → Ready p (v.maps st) e →
    ∃ st', visit e st = some st' ∧ VisitedBelow p (v.maps st) e (v.maps st') ∧ G x st'

/-- What the methods of a subclass have to keep. -/
structure Keeps : Prop where
  maps_record : ∀ e l st, v.maps (v.record e l st) = (v.maps st).record e l
  maps_mark : ∀ e st, v.maps (v.mark e st) = (v.maps st).mark e
  record : ∀ x st e l, Structural p (v.maps st) → G x st → ¬ Source p e → G x (v.record e l st)
  mark : ∀ x st e, Structural p (v.maps st) → G x st → ¬ Created p e → G x (v.mark e st)
  constant : ∀ x st e, Structural p (v.maps st) → G x st → p.node e = .constant →
    Reach p.toFunc e → (v.maps st).tokenMap e = none → e ∉ (v.maps st).visited →
    ∃ st' l, v.createToken e st = some st' ∧ l.length = width (p.checkedType e) ∧
      (v.maps st').tokenMap = Function.update (v.maps st).tokenMap e (some l) ∧
      (v.maps st').visited = (v.maps st).visited ∧ G x (v.mark e st')
  param : ∀ x st e, Structural p (v.maps st) → G x st → e ∈ p.params →
    (v.maps st).tokenMap e = none → (v.maps st).visited = [] →
    ∃ st' l, v.createToken e st = some st' ∧ l.length = width (p.checkedType e) ∧
      (v.maps st').tokenMap = Function.update (v.maps st).tokenMap e (some l) ∧
      (v.maps st').visited = (v.maps st).visited ∧ G x st'
  call : ∀ visit bound e args x st, Visits p v G visit bound → e ≤ bound →
    (p.node e = .call args ∨ ∃ b, p.node e = .onDevice b false ∧ args = [b]) →
    Structural p (v.maps st) → G x st → Ready p (v.maps st) e → e ∉ (v.maps st).visited →
    ∃ st', v.visitCall visit e args st = some st' ∧ Structural p (v.maps st') ∧
      Advance p (v.maps st) ((v.maps st').mark e) ∧ (∃ l, (v.maps st').tokenMap e = some l) ∧
      (∀ c ∈ args, c ∈ (v.maps st').visited) ∧
      (∀ c ∈ (v.maps st').visited, c ∈ (v.maps st).visited ∨ c < e) ∧ G x (v.mark e st')

variable {p} {v} {G} {st st' : State τ} {e c : Nat} {l : List Nat}

/-- Recording the tokens of an expression that has none of its own. -/
theorem Structural.record (h : Structural p st) (hs : ¬ Source p e)
    (hdevice : ∀ b isFixed, p.node e ≠ .onDevice b isFixed) (hl : Derived p st.tokenMap e l)
    (hreach : ∀ t i, p.node e = .tupleGetItem t i → Reach p.toFunc e) :
    Structural p (st.record e l) ∧ Advance p st (st.record e l) := by
  have hother : ∀ c, c ≠ e → (st.record e l).tokenMap c = st.tokenMap c :=
    fun c hc => Function.update_of_ne hc _ _
  have hself : (st.record e l).tokenMap e = some l := Function.update_self e _ _
  have hkeeps : ∀ c lc, st.tokenMap c = some lc → (st.record e l).tokenMap c = some lc := by
    intro c lc hc
    by_cases hce : c = e
    · rw [hce] at hc ⊢
      rw [hself, Derived.unique hs hdevice hl (h.derived e lc hc)]
    · rw [hother c hce, hc]
  constructor
  · refine ⟨fun c lc hc => ?_, fun c lc hsc hc => ?_, fun c hc => ?_, fun c t i lc hnode hc => ?_,
      fun c hc hcc => ?_, h.reach, h.nodup⟩
    · by_cases hce : c = e
      · rw [hce] at hc ⊢
        obtain rfl := Option.some.inj (hself.symm.trans hc)
        exact hl.mono hkeeps
      · rw [hother c hce] at hc
        exact (h.derived c lc hc).mono hkeeps
    · rw [hother c fun hce => hs (hce ▸ hsc)] at hc
      exact h.own c lc hsc hc
    · obtain ⟨⟨lc, hlc⟩, hchildren⟩ := h.visited c hc
      exact ⟨⟨lc, hkeeps _ lc hlc⟩, hchildren⟩
    · by_cases hce : c = e
      · rw [hce] at hnode ⊢
        exact hreach t i hnode
      · rw [hother c hce] at hc
        exact h.projected c t i lc hnode hc
    · obtain ⟨lc, hlc⟩ := h.created c hc hcc
      exact ⟨lc, hkeeps c lc hlc⟩
  · refine ⟨hkeeps, fun c hc => hc, fun c hcreated hnone hsome => ?_⟩
    rw [hother c fun hce => hs (hce ▸ Or.inl hcreated)] at hsome
    exact absurd hnone hsome

/-- Recording the first tokens of an expression that has some of its own. -/
theorem Structural.create (h : Structural p st) (hs : Source p e) (hnone : st.tokenMap e = none)
    (hlength : l.length = width (p.checkedType e))
    (hmap : st'.tokenMap = Function.update st.tokenMap e (some l))
    (hvisited : st'.visited = st.visited) :
    Structural p st' ∧ (∀ c lc, st.tokenMap c = some lc → st'.tokenMap c = some lc) ∧
      st'.tokenMap e = some l ∧ ∀ c, c ≠ e → st'.tokenMap c = st.tokenMap c := by
  have hother : ∀ c, c ≠ e → st'.tokenMap c = st.tokenMap c := by
    intro c hc
    rw [hmap, Function.update_of_ne hc]
  have hkeeps : ∀ c lc, st.tokenMap c = some lc → st'.tokenMap c = some lc := by
    intro c lc hc
    rw [hother c, hc]
    intro heq
    rw [heq, hnone] at hc
    cases hc
  have hself : st'.tokenMap e = some l := by
    rw [hmap, Function.update_self]
  refine ⟨⟨fun c lc hc => ?_, fun c lc hsc hc => ?_, fun c hc => ?_, fun c t i lc hnode hc => ?_,
    fun c hc hcc => ?_, ?_, ?_⟩, hkeeps, hself, hother⟩
  · by_cases hce : c = e
    · rw [hce]
      unfold Derived
      rcases hs with (hs | ⟨args, hs⟩ | ⟨b, hs⟩) | ⟨hs, hbound⟩
      · simp [hs]
      · simp [hs]
      · simp [hs]
      · simp [hs, hbound]
    · exact (h.derived c lc ((hother c hce).symm.trans hc)).mono hkeeps
  · by_cases hce : c = e
    · rw [hce] at hc ⊢
      rw [← Option.some.inj (hself.symm.trans hc)]
      exact hlength
    · exact h.own c lc hsc ((hother c hce).symm.trans hc)
  · rw [hvisited] at hc ⊢
    obtain ⟨⟨lc, hlc⟩, hchildren⟩ := h.visited c hc
    exact ⟨⟨lc, hkeeps _ lc hlc⟩, hchildren⟩
  · apply h.projected c t i lc hnode
    rw [← hother c, hc]
    intro hce
    rw [hce] at hnode
    rcases hs with (hs | ⟨args, hs⟩ | ⟨b, hs⟩) | ⟨hs, -⟩ <;> simp [hs] at hnode
  · rw [hvisited] at hc
    obtain ⟨lc, hlc⟩ := h.created c hc hcc
    exact ⟨lc, hkeeps c lc hlc⟩
  · rw [hvisited]
    exact h.reach
  · rw [hvisited]
    exact h.nodup

theorem Structural.mark (h : Structural p st) (hreal : ∃ l, st.tokenMap (p.real e) = some l)
    (hchildren : ∀ c ∈ (p.node e).children, c ∈ st.visited)
    (hcreated : Created p e → ∃ l, st.tokenMap e = some l) (hreach : Reach p.toFunc e)
    (hnot : e ∉ st.visited) : Structural p (st.mark e) := by
  refine ⟨h.derived, h.own, fun c hc => ?_, h.projected, fun c hc hcc => ?_, fun c hc => ?_,
    List.nodup_cons.mpr ⟨hnot, h.nodup⟩⟩
  · cases List.mem_cons.mp hc with
    | inl heq =>
      rw [heq]
      exact ⟨hreal, fun c' hc' => List.mem_cons_of_mem _ (hchildren c' hc')⟩
    | inr hc =>
      obtain ⟨hreal', hchildren'⟩ := h.visited c hc
      exact ⟨hreal', fun c' hc' => List.mem_cons_of_mem _ (hchildren' c' hc')⟩
  · cases List.mem_cons.mp hc with
    | inl heq =>
      rw [heq] at hcc ⊢
      exact hcreated hcc
    | inr hc => exact h.created c hc hcc
  · cases List.mem_cons.mp hc with
    | inl heq =>
      rw [heq]
      exact hreach
    | inr hc => exact h.reach c hc

/-- What relates the tensors of the sources to their tokens relates those of every expression. -/
theorem Structural.forall₂_leaves (h : Structural p st) (hplain : AllPlain p) {Q : Leaf → Nat → Prop}
    (hQ : ∀ e l, Source p e → st.tokenMap e = some l → List.Forall₂ Q (p.own e) l) (e : Nat) :
    ∀ l, st.tokenMap (p.real e) = some l → List.Forall₂ Q (p.leaves e) l := by
  induction e using Nat.strong_induction_on with
  | h e ih =>
    intro l hl
    have hchild (c : Nat) (hc : c ∈ (p.node e).children) := ih c (p.forward e c hc)
    have hderived := h.derived _ l hl
    rw [p.leaves_eq]
    cases hnode : p.node e with
    | onDevice b isFixed =>
      apply hchild b (by rw [hnode]; exact List.mem_singleton_self b) l
      have hreal := real_onDevice hnode
      rwa [← hreal, real_real]
    | var =>
      rw [real_of_ne (by simp [hnode])] at hl hderived
      unfold Derived at hderived
      rw [hnode] at hderived
      cases hbound : p.binding e with
      | none => exact hQ e l (Or.inr ⟨hnode, hbound⟩) hl
      | some x => exact ih x (p.bound e x hbound).1 l (hderived x hbound)
    | constant =>
      rw [real_of_ne (by simp [hnode])] at hl
      exact hQ e l (Or.inl (Or.inl hnode)) hl
    | call args =>
      rw [real_of_ne (by simp [hnode])] at hl
      exact hQ e l (Or.inl (Or.inr (Or.inl ⟨args, hnode⟩))) hl
    | tuple fields =>
      rw [real_of_ne (by simp [hnode])] at hderived
      unfold Derived at hderived
      rw [hnode] at hderived hchild
      obtain ⟨ls, hls, rfl⟩ := hderived
      have hall : ∀ c ∈ fields, ∀ l, st.tokenMap (p.real c) = some l →
          List.Forall₂ Q (p.leaves c) l := hchild
      clear hchild hnode hl ih
      induction hls with
      | nil => exact .nil
      | cons hc _ ihls =>
        exact List.rel_append (hall _ List.mem_cons_self _ hc)
          (ihls fun c hc => hall c (List.mem_cons_of_mem _ hc))
    | tupleGetItem t i =>
      rw [real_of_ne (by simp [hnode])] at hl hderived
      unfold Derived at hderived
      rw [hnode] at hderived
      obtain ⟨lt, token, hlt, htoken, rfl⟩ := hderived
      -- the field is the tensor at the index itself
      obtain ⟨leaf, hleaf, hleaves⟩ := hplain e t i (h.projected e t i _ hnode hl) hnode
      have ht := hchild t (by rw [hnode]; exact List.mem_singleton_self t) lt hlt
      rw [p.leaves_eq, hnode] at hleaves
      rw [hleaves]
      refine .cons ?_ .nil
      cases forall₂_getElem? ht i with
      | inl hnone => simp [hleaf] at hnone
      | inr hsome =>
        obtain ⟨leaf', token', hleaf', htoken', hQ'⟩ := hsome
        rw [Option.some.inj (hleaf.symm.trans hleaf'), Option.some.inj (htoken.symm.trans htoken')]
        exact hQ'
    | letIn v x b =>
      rw [real_of_ne (by simp [hnode])] at hderived
      unfold Derived at hderived
      rw [hnode] at hderived
      exact hchild b (by rw [hnode]; exact List.mem_cons_of_mem _ (List.mem_singleton_self b)) l hderived

theorem Structural.length_leaves (h : Structural p st) (hplain : AllPlain p) (e : Nat)
    (hl : st.tokenMap (p.real e) = some l) : l.length = (p.leaves e).length := by
  refine (h.forall₂_leaves hplain (Q := fun _ _ => True) (fun e l hs hl => ?_) e l hl).length_eq.symm
  rw [List.forall₂_iff_get]
  exact ⟨(p.length_own e).trans (h.own e l hs hl).symm, fun _ _ _ => trivial⟩

namespace Visits

variable {visit : Nat → S → Option S} {bound : Nat} {x : X} {s : S}

theorem getToken (hvisit : Visits p v G visit bound) (he : e < bound)
    (hs : Structural p (v.maps s)) (hG : G x s) (hready : Ready p (v.maps s) e) :
    ∃ tokens s', BaseVisitor.getToken v.maps p.toFunc visit e s = some (tokens, s') ∧
      VisitedBelow p (v.maps s) e (v.maps s') ∧
      (v.maps s').tokenMap (p.real e) = some tokens ∧ G x s' := by
  obtain ⟨s₁, hrun₁, h₁, hG₁⟩ := hvisit e he x s hs hG hready
  have hreal : p.real e < bound := Nat.lt_of_le_of_lt (real_le e) he
  obtain ⟨s₂, hrun₂, h₂, hG₂⟩ :=
    hvisit (p.real e) hreal x s₁ h₁.structural hG₁ (hready.advance h₁.advance).real
  have hvisited := h₂.advance.visited e h₁.visited
  obtain ⟨⟨l, hl⟩, -⟩ := h₂.structural.visited e hvisited
  refine ⟨l, s₂, ?_, ⟨h₂.structural, h₁.advance.trans h₂.advance, hvisited, fun c hc => ?_⟩, hl, hG₂⟩
  · simp only [BaseVisitor.getToken, hrun₁, Option.bind_eq_bind, Option.bind_some]
    rw [hrun₂, Option.bind_some, hl]
    rfl
  · cases h₂.below c hc with
    | inl hc => exact h₁.below c hc
    | inr hle => exact Or.inr (hle.trans (real_le e))

theorem getTokens (hvisit : Visits p v G visit bound) (es acc : List Nat)
    (hes : ∀ e ∈ es, e < bound ∧ Ready p (v.maps s) e) (hs : Structural p (v.maps s)) (hG : G x s) :
    ∃ ls s', BaseVisitor.getTokens v.maps p.toFunc visit es (acc, s) = some (acc ++ ls.flatten, s') ∧
      Structural p (v.maps s') ∧ Advance p (v.maps s) (v.maps s') ∧
      (∀ e ∈ es, e ∈ (v.maps s').visited) ∧
      (∀ c ∈ (v.maps s').visited, c ∈ (v.maps s).visited ∨ ∃ e ∈ es, c ≤ e) ∧
      List.Forall₂ (fun e l => (v.maps s').tokenMap (p.real e) = some l) es ls ∧ G x s' := by
  unfold BaseVisitor.getTokens
  induction es generalizing acc s with
  | nil => exact ⟨[], s, by simp, hs, .refl _, by simp, fun c hc => Or.inl hc, .nil, hG⟩
  | cons e es ih =>
    obtain ⟨hlt, hready⟩ := hes e List.mem_cons_self
    obtain ⟨tokens, s₁, hrun₁, h₁, htokens, hG₁⟩ := hvisit.getToken hlt hs hG hready
    obtain ⟨ls, s₂, hrun₂, hs₂, hadvance, hvisited, hbelow, hls, hG₂⟩ := ih (acc ++ tokens)
      (fun e' he' => by
        obtain ⟨hlt', hready'⟩ := hes e' (List.mem_cons_of_mem _ he')
        exact ⟨hlt', hready'.advance h₁.advance⟩) h₁.structural hG₁
    refine ⟨tokens :: ls, s₂, ?_, hs₂, h₁.advance.trans hadvance, fun e' he' => ?_, fun c hc => ?_,
      .cons (hadvance.keeps _ _ htokens) hls, hG₂⟩
    · have hstep : BaseVisitor.addTokens v.maps p.toFunc visit (acc, s) e = some (acc ++ tokens, s₁) := by
        simp only [BaseVisitor.addTokens, Option.bind_eq_bind, hrun₁, Option.bind_some]
      rw [List.foldlM_cons, hstep, Option.bind_eq_bind, Option.bind_some, hrun₂, List.flatten_cons,
        List.append_assoc]
    · cases List.mem_cons.mp he' with
      | inl heq =>
        rw [heq]
        exact hadvance.visited e h₁.visited
      | inr he' => exact hvisited e' he'
    · cases hbelow c hc with
      | inl hc =>
        cases h₁.below c hc with
        | inl hc => exact Or.inl hc
        | inr hle => exact Or.inr ⟨e, List.mem_cons_self, hle⟩
      | inr hc =>
        obtain ⟨e', he', hle⟩ := hc
        exact Or.inr ⟨e', List.mem_cons_of_mem _ he', hle⟩

/-- An expression whose tokens are those of another one. -/
theorem visitAlias (hkeeps : Keeps p v G) (hvisit : Visits p v G visit bound) {target value : Nat}
    (hv : value < bound) (hs : Structural p (v.maps s)) (hG : G x s)
    (hready : Ready p (v.maps s) value) (hnot : ¬ Source p target)
    (hkind : (p.node target = .var ∧ p.binding target = some value) ∨
      ∃ w y, p.node target = .letIn w y value) :
    ∃ s' l, v.visitAlias p.toFunc visit target value s = some s' ∧
      VisitedBelow p (v.maps s) value (v.maps s') ∧ (v.maps s').tokenMap target = some l ∧ G x s' := by
  obtain ⟨tokens, s₁, hrun₁, h₁, htokens, hG₁⟩ := hvisit.getToken hv hs hG hready
  have hderived : Derived p (v.maps s₁).tokenMap target tokens := by
    unfold Derived
    rcases hkind with ⟨hnode, hbound⟩ | ⟨w, y, hnode⟩
    · rw [hnode]
      intro y hy
      rw [hbound] at hy
      cases hy
      exact htokens
    · rw [hnode]
      exact htokens
  have hnode : (∀ b isFixed, p.node target ≠ .onDevice b isFixed) ∧
      ∀ t i, p.node target ≠ .tupleGetItem t i := by
    rcases hkind with ⟨hnode, -⟩ | ⟨w, y, hnode⟩ <;> simp [hnode]
  obtain ⟨hs', hadvance⟩ := h₁.structural.record hnot hnode.1 hderived
    fun t i ht => absurd ht (hnode.2 t i)
  refine ⟨v.record target tokens s₁, tokens, ?_, ?_, ?_,
    hkeeps.record x s₁ target tokens h₁.structural hG₁ hnot⟩
  · simp only [BaseVisitor.visitAlias, hrun₁, Option.bind_eq_bind, Option.bind_some]
  · rw [hkeeps.maps_record]
    exact ⟨hs', h₁.advance.trans hadvance, h₁.visited, h₁.below⟩
  · rw [hkeeps.maps_record]
    exact Function.update_self _ _ _

/-- What holds after the bindings and the body of a let. -/
structure LetDone (p : Program τ) (st : State τ) (e : Nat) (st' : State τ) : Prop where
  structural : Structural p st'
  advance : Advance p st st'
  real : ∃ l, st'.tokenMap (p.real e) = some l
  children : ∀ c ∈ (p.node e).children, c ∈ st'.visited

theorem visitLet (hkeeps : Keeps p v G) (hvisit : Visits p v G visit bound) (fuel e : Nat)
    (hfuel : e < fuel) (hbound : e ≤ bound) (hlet : e < bound ∨ ∃ w y b, p.node e = .letIn w y b)
    (hs : Structural p (v.maps s)) (hG : G x s) (hready : Ready p (v.maps s) e) :
    ∃ s', v.visitLet p.toFunc visit fuel e s = some s' ∧ LetDone p (v.maps s) e (v.maps s') ∧
      (∀ c ∈ (v.maps s').visited, c ∈ (v.maps s).visited ∨ c ≤ e) ∧
      ((∃ w y b, p.node e = .letIn w y b) → ∀ c ∈ (v.maps s').visited,
        c ∈ (v.maps s).visited ∨ c < e) ∧ G x s' := by
  induction fuel generalizing e s with
  | zero => omega
  | succ fuel ih =>
    unfold BaseVisitor.visitLet
    cases hnode : p.node e with
    | letIn w y b =>
      obtain ⟨hbinding, -⟩ := p.letIn e w y b hnode
      have hymem : y ∈ (p.node e).children := by
        rw [hnode]
        exact List.mem_cons_self
      have hbmem : b ∈ (p.node e).children := by
        rw [hnode]
        exact List.mem_cons_of_mem _ (List.mem_singleton_self b)
      have hy := p.forward e y hymem
      have hb := p.forward e b hbmem
      have hvar := (p.bound w y hbinding).2.1
      have hsw : ¬ Source p w := not_source_of_node (by simp [hvar]) (by simp [hvar]) (by simp [hvar])
        (by simp [hbinding])
      have hse : ¬ Source p e := not_source_of_node (by simp [hnode]) (by simp [hnode])
        (by simp [hnode]) (by simp [hnode])
      have hreadyy : Ready p (v.maps s) y := hready.child hymem (by
        intro w' y' b' hnode'
        rw [hnode] at hnode'
        cases hnode'
        rfl)
      obtain ⟨s₁, lw, hrun₁, h₁, hlw, hG₁⟩ := hvisit.visitAlias hkeeps (by omega) hs hG hreadyy hsw
        (Or.inl ⟨hvar, hbinding⟩)
      have hready₁ := (hready.advance h₁.advance).body hnode ⟨lw, hlw⟩
      obtain ⟨s₂, hrun₂, h₂, hbelow₂, -, hG₂⟩ := ih b (by omega) (by omega) (Or.inl (by omega))
        h₁.structural hG₁ hready₁
      obtain ⟨s₃, le, hrun₃, h₃, hle, hG₃⟩ := hvisit.visitAlias hkeeps (by omega) h₂.structural hG₂
        (hready₁.advance h₂.advance) hse (Or.inr ⟨w, y, hnode⟩)
      have hbelow : ∀ c ∈ (v.maps s₃).visited, c ∈ (v.maps s).visited ∨ c < e := by
        intro c hc
        rcases h₃.below c hc with hc | hc
        · rcases hbelow₂ c hc with hc | hc
          · rcases h₁.below c hc with hc | hc
            · exact Or.inl hc
            · exact Or.inr (by omega)
          · exact Or.inr (by omega)
        · exact Or.inr (by omega)
      refine ⟨s₃, ?_, ⟨h₃.structural, (h₁.advance.trans h₂.advance).trans h₃.advance, ?_, fun c hc => ?_⟩,
        fun c hc => (hbelow c hc).imp id Nat.le_of_lt, fun _ => hbelow, hG₃⟩
      · simp only [hrun₁, hrun₂, hrun₃, Option.bind_eq_bind, Option.bind_some]
      · rw [real_of_ne (by simp [hnode])]
        exact ⟨le, hle⟩
      · rw [hnode] at hc
        cases List.mem_cons.mp hc with
        | inl heq =>
          rw [heq]
          exact h₃.advance.visited y (h₂.advance.visited y h₁.visited)
        | inr hc =>
          rw [List.mem_singleton.mp hc]
          exact h₃.visited
    | _ =>
      have hlt : e < bound := hlet.resolve_right fun hlet => by
        obtain ⟨w, y, b, h⟩ := hlet
        rw [hnode] at h
        cases h
      obtain ⟨s', hrun, h, hG'⟩ := hvisit e hlt x s hs hG hready
      obtain ⟨hreal, hchildren⟩ := h.structural.visited e h.visited
      refine ⟨s', hrun, ⟨h.structural, h.advance, hreal, hchildren⟩, h.below, fun hlet => ?_, hG'⟩
      obtain ⟨w, y, b, hlet⟩ := hlet
      cases hlet

end Visits

theorem Advance.created_mark
    (hkeeps : ∀ c lc, st.tokenMap c = some lc → st'.tokenMap c = some lc)
    (hother : ∀ c, c ≠ e → st'.tokenMap c = st.tokenMap c) (hvisited : st'.visited = st.visited) :
    Advance p st (st'.mark e) := by
  refine ⟨hkeeps, fun c hc => ?_, fun c hcc hnone hsome => ?_⟩
  · apply List.mem_cons_of_mem
    rwa [hvisited]
  · by_cases hce : c = e
    · rw [hce]
      exact List.mem_cons_self
    · exact absurd ((hother c hce).trans hnone) hsome

/-- The visit of an expression is over. -/
theorem VisitedBelow.of_mark (hs : Structural p st') (hadvance : Advance p st (st'.mark e))
    (hbelow : ∀ c ∈ st'.visited, c ∈ st.visited ∨ c < e) (hnot : e ∉ st.visited)
    (hreach : Reach p.toFunc e) (hreal : ∃ l, st'.tokenMap (p.real e) = some l)
    (hchildren : ∀ c ∈ (p.node e).children, c ∈ st'.visited)
    (hcreated : Created p e → ∃ l, st'.tokenMap e = some l) : VisitedBelow p st e (st'.mark e) := by
  have hnot' : e ∉ st'.visited := fun hc => (hbelow e hc).elim hnot (Nat.lt_irrefl e)
  refine ⟨hs.mark hreal hchildren hcreated hreach hnot', hadvance, List.mem_cons_self, fun c hc => ?_⟩
  cases List.mem_cons.mp hc with
  | inl heq => exact Or.inr (le_of_eq heq)
  | inr hc => exact (hbelow c hc).imp id Nat.le_of_lt

/-- The visit of an expression, by induction on the depth that is left. -/
theorem Keeps.visitExpr (hkeeps : Keeps p v G) (hplain : AllPlain p) (fuel : Nat) :
    Visits p v G (v.visitExpr p.toFunc fuel) fuel := by
  induction fuel with
  | zero => exact fun e he => absurd he (Nat.not_lt_zero e)
  | succ fuel ih =>
    intro e he x s hs hG hready
    have hle : e ≤ fuel := Nat.le_of_lt_succ he
    have hsmall (c : Nat) (hc : c ∈ (p.node e).children) : c < fuel := by
      have hlt := p.forward e c hc
      omega
    unfold BaseVisitor.visitExpr
    by_cases hmem : e ∈ (v.maps s).visited
    · rw [if_pos hmem]
      exact ⟨s, rfl, ⟨hs, .refl _, hmem, fun c hc => Or.inl hc⟩, hG⟩
    rw [if_neg hmem]
    have hreach := hready.reach
    cases hnode : p.node e with
    | var =>
      have hncreated : ¬ Created p e := by simp [Created, hnode]
      refine ⟨v.mark e s, rfl, ?_, hkeeps.mark x s e hs hG hncreated⟩
      rw [hkeeps.maps_mark]
      apply VisitedBelow.of_mark hs ((Advance.refl _).mark e) (fun c hc => Or.inl hc) hmem hreach _
        (by simp [hnode, Expr.children]) fun h => absurd h hncreated
      rw [real_of_ne (by simp [hnode])]
      exact hready.scope e (.var e hnode)
    | constant =>
      have hcreated : Created p e := Or.inl hnode
      have hnone := hready.fresh e (Nat.le_refl e) hcreated hmem
      obtain ⟨s', l, hrun, hlength, hmap, hvisited, hG'⟩ :=
        hkeeps.constant x s e hs hG hnode hreach hnone hmem
      obtain ⟨hs', hkeep, hself, hother⟩ :=
        hs.create (Or.inl hcreated) hnone hlength hmap hvisited
      refine ⟨v.mark e s', by simp only [hrun]; rfl, ?_, hG'⟩
      rw [hkeeps.maps_mark]
      apply VisitedBelow.of_mark hs' (.created_mark hkeep hother hvisited) _ hmem hreach _
        (by simp [hnode, Expr.children]) fun _ => ⟨l, hself⟩
      · intro c hc
        rw [hvisited] at hc
        exact Or.inl hc
      · rw [real_of_ne (by simp [hnode])]
        exact ⟨l, hself⟩
    | call args =>
      obtain ⟨s', hrun, hs', hadvance, hl, hargs, hbelow, hG'⟩ :=
        hkeeps.call _ fuel e args x s ih hle (Or.inl hnode) hs hG hready hmem
      refine ⟨v.mark e s', by simp only [hrun]; rfl, ?_, hG'⟩
      rw [hkeeps.maps_mark]
      apply VisitedBelow.of_mark hs' hadvance hbelow hmem hreach _ (by rwa [hnode]) fun _ => hl
      rwa [real_of_ne (by simp [hnode])]
    | tuple fields =>
      have hchild : ∀ field ∈ fields, field < fuel ∧ Ready p (v.maps s) field := by
        intro field hfield
        have hfield' : field ∈ (p.node e).children := by
          rw [hnode]
          exact hfield
        exact ⟨hsmall field hfield', hready.child hfield' (by simp [hnode])⟩
      obtain ⟨ls, s₁, hrun, hs₁, hadvance, hvisited, hbelow, hls, hG₁⟩ := ih.getTokens fields [] hchild hs hG
      have hncreated : ¬ Created p e := by simp [Created, hnode]
      have hns : ¬ Source p e := not_source_of_node (by simp [hnode]) (by simp [hnode])
        (by simp [hnode]) (by simp [hnode])
      have hderived : Derived p (v.maps s₁).tokenMap e ls.flatten := by
        unfold Derived
        rw [hnode]
        exact ⟨ls, hls, rfl⟩
      obtain ⟨hs₂, hadvance₂⟩ := hs₁.record hns (by simp [hnode]) hderived (by simp [hnode])
      have hG₂ := hkeeps.record x s₁ e ls.flatten hs₁ hG₁ hns
      refine ⟨v.mark e (v.record e ls.flatten s₁), ?_, ?_, hkeeps.mark x _ e ?_ hG₂ hncreated⟩
      · simp only [BaseVisitor.visitTuple, hrun, Option.bind_eq_bind, Option.bind_some, List.nil_append]
      · rw [hkeeps.maps_mark, hkeeps.maps_record]
        apply VisitedBelow.of_mark hs₂ ((hadvance.trans hadvance₂).mark e) _ hmem hreach _
          (by rwa [hnode]) fun h => absurd h hncreated
        · intro c hc
          refine (hbelow c hc).imp id fun hfield => ?_
          obtain ⟨field, hfield, hle⟩ := hfield
          have hlt := p.forward e field (by rw [hnode]; exact hfield)
          omega
        · rw [real_of_ne (by simp [hnode])]
          exact ⟨_, Function.update_self _ _ _⟩
      · rw [hkeeps.maps_record]
        exact hs₂
    | tupleGetItem t i =>
      have ht : t ∈ (p.node e).children := by
        rw [hnode]
        exact List.mem_singleton_self t
      obtain ⟨tokens, s₁, hrun, h₁, htokens, hG₁⟩ :=
        ih.getToken (hsmall t ht) hs hG (hready.child ht (by simp [hnode]))
      obtain ⟨leaf, hleaf, -⟩ := hplain e t i hreach hnode
      have hlt : i < tokens.length := by
        rw [h₁.structural.length_leaves hplain t htokens]
        exact (List.getElem?_eq_some_iff.mp hleaf).1
      have htoken := List.getElem?_eq_getElem hlt
      have hncreated : ¬ Created p e := by simp [Created, hnode]
      have hns : ¬ Source p e := not_source_of_node (by simp [hnode]) (by simp [hnode])
        (by simp [hnode]) (by simp [hnode])
      have hderived : Derived p (v.maps s₁).tokenMap e [tokens[i]] := by
        unfold Derived
        rw [hnode]
        exact ⟨tokens, tokens[i], htokens, htoken, rfl⟩
      obtain ⟨hs₂, hadvance₂⟩ := h₁.structural.record hns (by simp [hnode]) hderived
        (fun _ _ _ => hreach)
      have hG₂ := hkeeps.record x s₁ e [tokens[i]] h₁.structural hG₁ hns
      refine ⟨v.mark e (v.record e [tokens[i]] s₁), ?_, ?_, hkeeps.mark x _ e ?_ hG₂ hncreated⟩
      · simp only [BaseVisitor.visitTupleGetItem, hrun, htoken, Option.bind_eq_bind, Option.bind_some]
      · rw [hkeeps.maps_mark, hkeeps.maps_record]
        apply VisitedBelow.of_mark hs₂ ((h₁.advance.trans hadvance₂).mark e) _ hmem hreach _ _
          fun h => absurd h hncreated
        · intro c hc
          have hlt := p.forward e t ht
          exact (h₁.below c hc).imp id fun hle => by omega
        · rw [real_of_ne (by simp [hnode])]
          exact ⟨_, Function.update_self _ _ _⟩
        · intro c hc
          rw [hnode] at hc
          rw [List.mem_singleton.mp hc]
          exact h₁.visited
      · rw [hkeeps.maps_record]
        exact hs₂
    | letIn w y b =>
      obtain ⟨s', hrun, h, -, hbelow, hG'⟩ :=
        ih.visitLet hkeeps (fuel + 1) e he hle (Or.inr ⟨w, y, b, hnode⟩) hs hG hready
      have hncreated : ¬ Created p e := by simp [Created, hnode]
      refine ⟨v.mark e s', by simp only [hrun]; rfl, ?_,
        hkeeps.mark x s' e h.structural hG' hncreated⟩
      rw [hkeeps.maps_mark]
      exact .of_mark h.structural (h.advance.mark e) (hbelow ⟨w, y, b, hnode⟩) hmem hreach h.real
        h.children fun h => absurd h hncreated
    | onDevice b isFixed =>
      have hb : b ∈ (p.node e).children := by
        rw [hnode]
        exact List.mem_singleton_self b
      cases isFixed with
      | true =>
        obtain ⟨s', hrun, h, hG'⟩ := ih b (hsmall b hb) x s hs hG (hready.child hb (by simp [hnode]))
        have hncreated : ¬ Created p e := by simp [Created, hnode]
        refine ⟨v.mark e s', by simp only [hrun]; rfl, ?_,
          hkeeps.mark x s' e h.structural hG' hncreated⟩
        rw [hkeeps.maps_mark]
        apply VisitedBelow.of_mark h.structural (h.advance.mark e) _ hmem hreach _ _
          fun h => absurd h hncreated
        · intro c hc
          have hlt := p.forward e b hb
          exact (h.below c hc).imp id fun hle => by omega
        · rw [← real_real, real_onDevice hnode]
          exact (h.structural.visited b h.visited).1
        · intro c hc
          rw [hnode] at hc
          rw [List.mem_singleton.mp hc]
          exact h.visited
      | false =>
        obtain ⟨s', hrun, hs', hadvance, hl, hargs, hbelow, hG'⟩ :=
          hkeeps.call _ fuel e [b] x s ih hle (Or.inr ⟨b, hnode, rfl⟩) hs hG hready hmem
        refine ⟨v.mark e s', by simp only [hrun]; rfl, ?_, hG'⟩
        rw [hkeeps.maps_mark]
        apply VisitedBelow.of_mark hs' hadvance hbelow hmem hreach _ (by rwa [hnode]) fun _ => hl
        rw [← real_real, real_onDevice hnode]
        exact (hs'.visited b (hargs b (List.mem_singleton_self b))).1

section Run

variable {x : X} {s : S}

/-- The tokens of the parameters. -/
theorem Keeps.createParams (hkeeps : Keeps p v G) (params : List Nat)
    (hparams : ∀ e ∈ params, e ∈ p.params) (hnodup : params.Nodup) (hs : Structural p (v.maps s))
    (hG : G x s) (hnone : ∀ e ∈ params, (v.maps s).tokenMap e = none) (hvisited : (v.maps s).visited = []) :
    ∃ s', params.foldlM (fun st param => v.createToken param st) s = some s' ∧
      Structural p (v.maps s') ∧ (v.maps s').visited = [] ∧
      (∀ e ∈ params, ∃ l, (v.maps s').tokenMap e = some l) ∧
      (∀ e, e ∉ params → (v.maps s').tokenMap e = (v.maps s).tokenMap e) ∧ G x s' := by
  induction params generalizing s with
  | nil => exact ⟨s, rfl, hs, hvisited, by simp, fun _ _ => rfl, hG⟩
  | cons e params ih =>
    obtain ⟨he, hnodup⟩ := List.nodup_cons.mp hnodup
    have hmem := hparams e List.mem_cons_self
    obtain ⟨s₁, l, hrun, hlength, hmap, hvisited₁, hG₁⟩ :=
      hkeeps.param x s e hs hG hmem (hnone e List.mem_cons_self) hvisited
    obtain ⟨hs₁, -, hself, hother⟩ :=
      hs.create (Or.inr (p.param e hmem)) (hnone e List.mem_cons_self) hlength hmap hvisited₁
    have hne : ∀ e' ∈ params, e' ≠ e := fun e' he' heq => he (heq ▸ he')
    obtain ⟨s₂, hrun₂, hs₂, hvisited₂, hrecorded, hother₂, hG₂⟩ := ih
      (fun e' he' => hparams e' (List.mem_cons_of_mem _ he')) hnodup hs₁ hG₁
      (fun e' he' => (hother e' (hne e' he')).trans (hnone e' (List.mem_cons_of_mem _ he')))
      (hvisited₁.trans hvisited)
    refine ⟨s₂, ?_, hs₂, hvisited₂, fun e' he' => ?_, fun e' he' => ?_, hG₂⟩
    · rw [List.foldlM_cons, hrun]
      exact hrun₂
    · cases List.mem_cons.mp he' with
      | inl heq =>
        rw [heq]
        exact ⟨l, (hother₂ e he).trans hself⟩
      | inr he' => exact hrecorded e' he'
    · rw [List.mem_cons, not_or] at he'
      rw [hother₂ e' he'.2, hother e' he'.1]

/-- The run up to the tokens of the result, from an empty map. -/
theorem Keeps.run (hkeeps : Keeps p v G) (hplain : AllPlain p) (hmap : ∀ e, (v.maps s).tokenMap e = none)
    (hvisited : (v.maps s).visited = []) (hG : G x s) :
    ∃ tokens s', v.run p.toFunc s = some (v.charge tokens s') ∧ Structural p (v.maps s') ∧
      (v.maps s').tokenMap (p.real p.body) = some tokens ∧
      (∀ e, e ∈ (v.maps s').visited ↔ Reach p.toFunc e) ∧
      (∀ e ∈ p.params, ∃ l, (v.maps s').tokenMap e = some l) ∧ G x s' := by
  have hempty : Structural p (v.maps s) := by
    refine ⟨?_, ?_, ?_, ?_, ?_, ?_, ?_⟩ <;> simp [hmap, hvisited]
  obtain ⟨s₁, hrun₁, hs₁, hvisited₁, hparams, hother, hG₁⟩ := hkeeps.createParams p.params
    (fun _ h => h) p.nodup hempty hG (fun e _ => hmap e) hvisited
  have hready : Ready p (v.maps s₁) p.body := by
    refine ⟨fun c _ hcreated _ => ?_, fun e he => hparams e (p.closed e he), .body⟩
    rw [hother c, hmap]
    intro hc
    have hvar := (p.param c hc).1
    rcases hcreated with h | ⟨args, h⟩ | ⟨b, h⟩ <;> simp [h] at hvar
  obtain ⟨tokens, s₂, hrun₂, h₂, htokens, hG₂⟩ :=
    (hkeeps.visitExpr hplain (p.body + 1)).getToken (Nat.lt_succ_self _) hs₁ hG₁ hready
  refine ⟨tokens, s₂, ?_, h₂.structural, htokens, fun e => ⟨h₂.structural.reach e, fun he => ?_⟩,
    fun e he => ?_, hG₂⟩
  · unfold BaseVisitor.run
    simp only [hrun₁, hrun₂, Option.bind_eq_bind, Option.bind_some]
  · induction he with
    | body => exact h₂.visited
    | child e c _ hc ih => exact (h₂.structural.visited e ih).2 c hc
  · obtain ⟨l, hl⟩ := hparams e he
    exact ⟨l, h₂.advance.keeps e l hl⟩

end Run

end StencilGraph.Plan

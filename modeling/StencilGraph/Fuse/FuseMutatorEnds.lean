import Mathlib.Data.List.GetD
import Mathlib.Tactic.IntervalCases
import StencilGraph.Fuse.FuseMutator

namespace StencilGraph.Fuse.FuseMutator
open Framework

/-- A heap whose expressions are built from earlier ones. -/
structure DataflowFunction extends Heap where
  children_lt : ∀ r, ∀ c ∈ (kind r).children, c < r
  root_function : ∃ params body primitive, kind root = .function params body primitive

section Depth

variable {h : Heap} {gmap : GroupMap} {linkParams : Bool}

theorem approx_getNewArguments {visit visit' : Nat → M NewExpr}
    (hvisit : ∀ r, Traced.Approx (visit r) (visit' r)) (r : Nat) (args : List Nat) (group : Nat) :
    Traced.Approx (getNewArguments h gmap linkParams visit r args group)
      (getNewArguments h gmap linkParams visit' r args group) := by
  apply Traced.Approx.traverse
  intro arg
  apply (Traced.Approx.refl _).bind
  intro argGroup
  apply (Traced.Approx.refl _).bind
  intro _
  exact (hvisit arg).bind fun _ => .refl _

theorem approx_superVisit {rewrite rewrite' : Nat → M NewExpr}
    (hrewrite : ∀ r, Traced.Approx (rewrite r) (rewrite' r)) (r arg : Nat) :
    Traced.Approx (superVisit rewrite r arg) (superVisit rewrite' r arg) :=
  (Traced.Approx.refl _).bind fun _ => hrewrite arg

theorem approx_rewriteCall {visit visit' rewrite rewrite' : Nat → M NewExpr}
    (hvisit : ∀ r, Traced.Approx (visit r) (visit' r))
    (hrewrite : ∀ r, Traced.Approx (rewrite r) (rewrite' r)) (r : Nat) (callee : Callee)
    (args : List Nat) :
    Traced.Approx (rewriteCall h gmap linkParams visit rewrite r callee args)
      (rewriteCall h gmap linkParams visit' rewrite' r callee args) := by
  cases callee with
  | expr r' => exact approx_superVisit hrewrite r r
  | op op =>
    unfold rewriteCall
    by_cases hnon : op.nonComputational
    · simp only [hnon, if_true]
      exact approx_superVisit hrewrite r r
    · simp only [hnon]
      apply (Traced.Approx.refl _).bind
      intro group
      by_cases hstop : op.stopFusion
      · simp only [hstop, if_true]
        cases args with
        | nil => exact .refl _
        | cons arg args => exact approx_superVisit hrewrite r arg
      · simp only [hstop]
        exact (approx_getNewArguments hvisit r args group).bind fun _ => .refl _

theorem approx_rewriteTuple {visit visit' rewrite rewrite' : Nat → M NewExpr}
    (hvisit : ∀ r, Traced.Approx (visit r) (visit' r))
    (hrewrite : ∀ r, Traced.Approx (rewrite r) (rewrite' r)) (r : Nat) (fields : List Nat) :
    Traced.Approx (rewriteTuple h gmap linkParams visit rewrite r fields)
      (rewriteTuple h gmap linkParams visit' rewrite' r fields) := by
  unfold rewriteTuple
  apply (Traced.Approx.refl _).bind
  intro group
  by_cases hroot : gmap.rootRef group = r
  · simp only [hroot, if_true]
    exact approx_superVisit hrewrite r r
  · simp only [hroot, if_false]
    exact (approx_getNewArguments hvisit r fields group).bind fun _ => .refl _

theorem approx_visitFunction {visit visit' : Nat → M NewExpr}
    (hvisit : ∀ r, Traced.Approx (visit r) (visit' r)) (r : Nat) (params : List Nat) (body : Nat)
    (primitive : Bool) : Traced.Approx (visitFunction visit r params body primitive)
      (visitFunction visit' r params body primitive) := by
  unfold visitFunction
  split
  · exact .refl _
  · apply Traced.Approx.bind
    · exact .traverse params fun param => (Traced.Approx.refl _).bind fun _ => hvisit param
    · intro newParams
      exact (Traced.Approx.refl _).bind fun _ => (hvisit body).bind fun _ => .refl _

/-- A greater depth goes on where a smaller one stops. -/
theorem approx_succ (depth : Nat) :
    (∀ r, Traced.Approx (visit h gmap linkParams depth r) (visit h gmap linkParams (depth + 1) r)) ∧
    ∀ r, Traced.Approx (rewrite h gmap linkParams depth r)
      (rewrite h gmap linkParams (depth + 1) r) := by
  induction depth with
  | zero =>
    constructor
    · intro r
      rw [visit]
      exact .timeout _
    · intro r
      rw [rewrite]
      exact .timeout _
  | succ depth ih =>
    obtain ⟨hvisit, hrewrite⟩ := ih
    constructor
    · intro r
      rw [visit, visit]
      apply (Traced.Approx.refl _).bind
      intro s
      cases s.memoMap r with
      | some res => exact .refl _
      | none =>
        refine Traced.Approx.bind ?_ fun _ => .refl _
        unfold dispatch
        cases h.kind r with
        | var tensor => exact .refl _
        | constant => exact .refl _
        | function params body primitive => exact approx_visitFunction hvisit r params body primitive
        | call callee args => exact hrewrite r
        | tuple fields => exact hrewrite r
        | tupleGetItem t i => exact hrewrite r
    · intro r
      rw [rewrite, rewrite]
      cases h.kind r with
      | var tensor => exact .refl _
      | constant => exact .refl _
      | function params body primitive => exact .refl _
      | call callee args => exact approx_rewriteCall hvisit hrewrite r callee args
      | tuple fields => exact approx_rewriteTuple hvisit hrewrite r fields
      | tupleGetItem t i => exact .refl _

theorem approx_le {depth depth' : Nat} (hle : depth ≤ depth') (r : Nat) :
    Traced.Approx (visit h gmap linkParams depth r) (visit h gmap linkParams depth' r) := by
  induction hle with
  | refl => exact .refl _
  | step _ ih => exact ih.trans ((approx_succ _).1 r)

end Depth

section Spinning

variable (h : Heap) (gmap : GroupMap)

/-- The expressions whose rewriting comes back to themselves: calls of a non-computational operator,
calls of a function, and tuples that are the root of their group. -/
def Spins (r : Nat) : Prop :=
  match h.kind r with
  | .call (.op op) _ => op.nonComputational = true
  | .call (.expr _) _ => True
  | .tuple _ => ∃ g, gmap.group r = some g ∧ gmap.rootRef g = r
  | _ => False

/-- The memo table has no expression that spins. -/
def Unfinished (s : State) : Prop := ∀ r, Spins h gmap r → s.memoMap r = none

/-- The depth runs out exactly when an expression that spins is visited; all other visits are of
subexpressions. -/
def Descends (out : Prop) (log : List (Nat × Nat)) : Prop :=
  (out ↔ ∃ v ∈ log, Spins h gmap v.2) ∧
    ∀ v ∈ log, v.2 ∈ (h.kind v.1).children ∨ Spins h gmap v.2

theorem composable_descends : Traced.Composable (Descends h gmap) where
  nil := by simp [Descends]
  append b l l' hl hl' := by
    obtain ⟨hout, hgood⟩ := hl
    obtain ⟨hout', hgood'⟩ := hl'
    constructor
    · rw [hout']
      constructor
      · intro hex
        obtain ⟨v, hv, hspins⟩ := hex
        exact ⟨v, List.mem_append_right _ hv, hspins⟩
      · intro hex
        obtain ⟨v, hv, hspins⟩ := hex
        cases List.mem_append.mp hv with
        | inl hv => exact absurd (hout.mpr ⟨v, hv, hspins⟩) id
        | inr hv => exact ⟨v, hv, hspins⟩
    · intro v hv
      cases List.mem_append.mp hv with
      | inl hv => exact hgood v hv
      | inr hv => exact hgood' v hv

variable {h gmap} {linkParams : Bool}

theorem pure_bind {α β : Type} (a : α) (f : α → M β) : ((pure a : M α) >>= f) = f a := by
  funext s
  have hpure : (pure a : M α) s = ⟨.value a, [], s⟩ := rfl
  rw [Traced.bind_value hpure, List.nil_append]

theorem raise_bind {α β : Type} (e : Error) (f : α → M β) :
    ((Traced.raise e : M α) >>= f) = Traced.raise e := rfl

theorem rewrite_spins {r : Nat} (hspins : Spins h gmap r) (depth : Nat) :
    rewrite h gmap linkParams (depth + 1) r = superVisit (rewrite h gmap linkParams depth) r r := by
  unfold Spins at hspins
  rw [rewrite]
  cases hkind : h.kind r with
  | call callee args =>
    cases callee with
    | op op =>
      rw [hkind] at hspins
      have hnon : op.nonComputational = true := hspins
      simp only [rewriteCall, hnon, if_true]
    | expr r' => rfl
  | tuple fields =>
    rw [hkind] at hspins
    obtain ⟨g, hg, hroot⟩ := hspins
    simp only [rewriteTuple, hg]
    show ((pure g : M Nat) >>= _) = _
    rw [pure_bind, if_pos hroot]
  | var tensor => simp [hkind] at hspins
  | constant => simp [hkind] at hspins
  | tupleGetItem t i => simp [hkind] at hspins
  | function params body primitive => simp [hkind] at hspins

/-- The rewriting of an expression that spins ends at no depth. -/
theorem rewrite_timeout {r : Nat} (hspins : Spins h gmap r) (depth : Nat) (s : State) :
    ∃ log, rewrite h gmap linkParams depth r s = ⟨.timeout, log, s⟩ ∧
      ∀ v ∈ log, Spins h gmap v.2 := by
  induction depth with
  | zero => exact ⟨[], by rw [rewrite]; rfl, by simp⟩
  | succ depth ih =>
    obtain ⟨log, hrun, hlog⟩ := ih
    refine ⟨(r, r) :: log, ?_, ?_⟩
    · rw [rewrite_spins hspins]
      have htell : (Traced.tell (r, r) : M Unit) s = ⟨.value (), [(r, r)], s⟩ := rfl
      unfold superVisit
      rw [Traced.bind_value htell, hrun]
      rfl
    · intro v hv
      cases List.mem_cons.mp hv with
      | inl heq =>
        rw [heq]
        exact hspins
      | inr hv => exact hlog v hv

theorem visit_timeout {r : Nat} (hspins : Spins h gmap r) (depth : Nat) (s : State)
    (hs : Unfinished h gmap s) :
    ∃ log, visit h gmap linkParams depth r s = ⟨.timeout, log, s⟩ ∧ ∀ v ∈ log, Spins h gmap v.2 := by
  cases depth with
  | zero => exact ⟨[], by rw [visit]; rfl, by simp⟩
  | succ depth =>
    obtain ⟨log, hrun, hlog⟩ := @rewrite_timeout h gmap linkParams r hspins depth s
    refine ⟨log, ?_, hlog⟩
    have hget : (Traced.get : M State) s = ⟨.value s, [], s⟩ := rfl
    rw [visit, Traced.bind_value hget]
    simp only [hs r hspins, List.nil_append]
    have hbody : dispatch h (visit h gmap linkParams depth) (rewrite h gmap linkParams depth) r =
        rewrite h gmap linkParams depth r := by
      unfold dispatch
      unfold Spins at hspins
      cases hkind : h.kind r with
      | call callee args => rfl
      | tuple fields => rfl
      | var tensor => simp [hkind] at hspins
      | constant => simp [hkind] at hspins
      | tupleGetItem t i => simp [hkind] at hspins
      | function params body primitive => simp [hkind] at hspins
    rw [hbody, Traced.bind_timeout hrun]

/-- A recursive visit of a subexpression. -/
theorem respects_tell {α : Type} {r c : Nat} {x : M α} (hc : c ∈ (h.kind r).children)
    (hgood : ¬ Spins h gmap c → Traced.Respects (Unfinished h gmap) (Descends h gmap) x)
    (hbad : Spins h gmap c → ∀ s, Unfinished h gmap s →
      ∃ log, x s = ⟨.timeout, log, s⟩ ∧ ∀ v ∈ log, Spins h gmap v.2) :
    Traced.Respects (Unfinished h gmap) (Descends h gmap)
      ((Traced.tell (r, c) : M Unit) >>= fun _ => x) := by
  intro s hs
  have htell : (Traced.tell (r, c) : M Unit) s = ⟨.value (), [(r, c)], s⟩ := rfl
  rw [Traced.bind_value htell]
  by_cases hspins : Spins h gmap c
  · obtain ⟨log, hrun, hlog⟩ := hbad hspins s hs
    rw [hrun]
    refine ⟨hs, ⟨fun _ => ⟨(r, c), List.mem_cons_self, hspins⟩, fun _ => rfl⟩, fun v hv => ?_⟩
    cases List.mem_cons.mp hv with
    | inl heq =>
      rw [heq]
      exact Or.inl hc
    | inr hv => exact Or.inr (hlog v hv)
  · obtain ⟨hinv, hlog⟩ := hgood hspins s hs
    refine ⟨hinv, (composable_descends h gmap).append _ _ _ ?_ hlog⟩
    refine ⟨⟨False.elim, fun hex => ?_⟩, fun v hv => ?_⟩
    · obtain ⟨v, hv, hv'⟩ := hex
      rw [List.mem_singleton.mp hv] at hv'
      exact hspins hv'
    · rw [List.mem_singleton.mp hv]
      exact Or.inl hc

/-- What the methods need of `visit` and `rewrite` below a bound. -/
structure Recursive (h : Heap) (gmap : GroupMap) (x : Nat → M NewExpr) (bound : Nat) : Prop where
  good : ∀ r, r < bound → ¬ Spins h gmap r →
    Traced.Respects (Unfinished h gmap) (Descends h gmap) (x r)
  bad : ∀ r, Spins h gmap r → ∀ s, Unfinished h gmap s →
    ∃ log, x r s = ⟨.timeout, log, s⟩ ∧ ∀ v ∈ log, Spins h gmap v.2

theorem Recursive.tell {x : Nat → M NewExpr} {bound r c : Nat} (hx : Recursive h gmap x bound)
    (hc : c ∈ (h.kind r).children) (hlt : c < bound) :
    Traced.Respects (Unfinished h gmap) (Descends h gmap)
      ((Traced.tell (r, c) : M Unit) >>= fun _ => x c) :=
  respects_tell hc (hx.good c hlt) (hx.bad c)

/-- A change of the state that leaves the memo table alone. -/
theorem respects_newObject (make : Nat → NewExpr) :
    Traced.Respects (Unfinished h gmap) (Descends h gmap) (newObject make) := by
  apply Traced.Respects.step (composable_descends h gmap)
  intro s hs
  refine ⟨hs, ?_, rfl⟩
  intro hend
  cases hend

theorem respects_makeNewFunction (group : Nat) (body : NewExpr) :
    Traced.Respects (Unfinished h gmap) (Descends h gmap) (makeNewFunction h group body) := by
  have hR := composable_descends h gmap
  apply Traced.Respects.bind hR (Traced.Respects.require hR _ _)
  intro reshapeOnly
  apply Traced.Respects.bind hR
  · apply Traced.Respects.step hR
    intro s hs
    refine ⟨hs, ?_, rfl⟩
    intro hend
    cases hend
  · intro s
    exact respects_newObject _

theorem respects_getOrAllocParam (group : Nat) (expr : NewExpr) (tensor : Bool) :
    Traced.Respects (Unfinished h gmap) (Descends h gmap) (getOrAllocParam group expr tensor) := by
  have hR := composable_descends h gmap
  apply Traced.Respects.step hR
  intro s hs
  have hget : (Traced.get : M State) s = ⟨.value s, [], s⟩ := rfl
  unfold getOrAllocParam
  rw [Traced.bind_value hget]
  cases (s.ginfo group).find? fun known => known.1.sameAs expr with
  | some known =>
    refine ⟨hs, ?_, rfl⟩
    intro hend
    cases hend
  | none =>
    refine ⟨hs, ?_, rfl⟩
    intro hend
    cases hend

theorem respects_getNewArguments {visit : Nat → M NewExpr} {bound r : Nat}
    (hvisit : Recursive h gmap visit bound) (args : List Nat) (group : Nat)
    (hargs : ∀ arg ∈ args, arg ∈ (h.kind r).children ∧ arg < bound) :
    Traced.Respects (Unfinished h gmap) (Descends h gmap)
      (getNewArguments h gmap linkParams visit r args group) := by
  have hR := composable_descends h gmap
  apply Traced.Respects.traverse hR
  intro arg harg
  obtain ⟨hchild, hlt⟩ := hargs arg harg
  apply Traced.Respects.bind hR (Traced.Respects.require hR _ _)
  intro argGroup
  apply respects_tell hchild
  · intro hspins
    apply Traced.Respects.bind hR (hvisit.good arg hlt hspins)
    intro newArg
    split
    · exact respects_getOrAllocParam _ _ _
    · exact .pure hR _
  · intro hspins s hs
    obtain ⟨log, hrun, hlog⟩ := hvisit.bad arg hspins s hs
    exact ⟨log, Traced.bind_timeout hrun, hlog⟩

theorem respects_rewriteCall {visit rewrite : Nat → M NewExpr} {bound r : Nat}
    (hvisit : Recursive h gmap visit bound) (hrewrite : Recursive h gmap rewrite bound)
    {callee : Callee} {args : List Nat} (hkind : h.kind r = .call callee args)
    (hlt : ∀ c ∈ (h.kind r).children, c < bound) (hspins : ¬ Spins h gmap r) :
    Traced.Respects (Unfinished h gmap) (Descends h gmap)
      (rewriteCall h gmap linkParams visit rewrite r callee args) := by
  have hR := composable_descends h gmap
  unfold Spins at hspins
  rw [hkind] at hspins
  cases callee with
  | expr r' => exact absurd trivial hspins
  | op op =>
    have hnon : ¬ op.nonComputational = true := hspins
    have hargs : ∀ arg ∈ args, arg ∈ (h.kind r).children ∧ arg < bound := by
      intro arg harg
      have hchild : arg ∈ (h.kind r).children := by
        rw [hkind]
        exact List.mem_append_right _ harg
      exact ⟨hchild, hlt arg hchild⟩
    simp only [rewriteCall, hnon]
    apply Traced.Respects.bind hR (Traced.Respects.require hR _ _)
    intro group
    by_cases hstop : op.stopFusion = true
    · simp only [hstop, if_true]
      cases args with
      | nil => exact .raise hR _
      | cons arg args =>
        obtain ⟨hchild, hlt⟩ := hargs arg List.mem_cons_self
        exact hrewrite.tell hchild hlt
    · simp only [hstop]
      apply Traced.Respects.bind hR (respects_getNewArguments hvisit args group hargs)
      intro newArgs
      apply Traced.Respects.bind hR (respects_newObject _)
      intro newCall
      by_cases hroot : gmap.rootRef group = r
      · simp only [hroot, if_true]
        exact respects_makeNewFunction _ _
      · simp only [hroot, if_false]
        exact .pure hR _

theorem respects_rewriteTuple {visit rewrite : Nat → M NewExpr} {bound r : Nat}
    (hvisit : Recursive h gmap visit bound) {fields : List Nat} (hkind : h.kind r = .tuple fields)
    (hlt : ∀ c ∈ (h.kind r).children, c < bound) (hspins : ¬ Spins h gmap r) :
    Traced.Respects (Unfinished h gmap) (Descends h gmap)
      (rewriteTuple h gmap linkParams visit rewrite r fields) := by
  have hR := composable_descends h gmap
  unfold Spins at hspins
  rw [hkind] at hspins
  unfold rewriteTuple
  cases hgroup : gmap.group r with
  | none =>
    show Traced.Respects _ _ ((Traced.raise Error.keyError : M Nat) >>= _)
    rw [raise_bind]
    exact .raise hR _
  | some group =>
    have hroot : gmap.rootRef group ≠ r := fun heq => hspins ⟨group, hgroup, heq⟩
    show Traced.Respects _ _ ((pure group : M Nat) >>= _)
    rw [pure_bind, if_neg hroot]
    apply Traced.Respects.bind hR
    · apply respects_getNewArguments hvisit
      intro field hfield
      have hchild : field ∈ (h.kind r).children := by
        rw [hkind]
        exact hfield
      exact ⟨hchild, hlt field hchild⟩
    · exact fun _ => .raise hR _

theorem respects_visitFunction {visit : Nat → M NewExpr} {bound r : Nat}
    (hvisit : Recursive h gmap visit bound) {params : List Nat} {body : Nat} {primitive : Bool}
    (hkind : h.kind r = .function params body primitive)
    (hlt : ∀ c ∈ (h.kind r).children, c < bound) :
    Traced.Respects (Unfinished h gmap) (Descends h gmap)
      (visitFunction visit r params body primitive) := by
  have hR := composable_descends h gmap
  unfold visitFunction
  split
  · exact .pure hR _
  · have hchild : ∀ c ∈ params ++ [body], c ∈ (h.kind r).children := by
      intro c hc
      rw [hkind]
      exact hc
    apply Traced.Respects.bind hR
    · apply Traced.Respects.traverse hR
      intro param hparam
      have hmem := hchild param (List.mem_append_left _ hparam)
      exact hvisit.tell hmem (hlt param hmem)
    · intro newParams
      have hmem := hchild body (List.mem_append_right _ (List.mem_singleton_self body))
      apply respects_tell hmem
      · intro hspins
        apply Traced.Respects.bind hR (hvisit.good body (hlt body hmem) hspins)
        exact fun newBody => respects_newObject _
      · intro hspins s hs
        obtain ⟨log, hrun, hlog⟩ := hvisit.bad body hspins s hs
        exact ⟨log, Traced.bind_timeout hrun, hlog⟩

theorem respects_remember {r : Nat} (hspins : ¬ Spins h gmap r) (res : NewExpr) :
    Traced.Respects (Unfinished h gmap) (Descends h gmap) (remember r res) := by
  apply Traced.Respects.step (composable_descends h gmap)
  intro s hs
  refine ⟨fun r' hr' => ?_, ?_, rfl⟩
  · show Function.update s.memoMap r (some res) r' = none
    rw [Function.update_of_ne]
    · exact hs r' hr'
    · intro heq
      exact hspins (heq ▸ hr')
  · intro hend
    cases hend

end Spinning

section Run

variable (f : DataflowFunction) (gmap : GroupMap) (linkParams : Bool)

/-- Two levels of depth for each level of the expression are enough. -/
theorem descends_of_depth (depth : Nat) :
    (∀ r, 2 * r + 2 ≤ depth → ¬ Spins f.toHeap gmap r →
      Traced.Respects (Unfinished f.toHeap gmap) (Descends f.toHeap gmap)
        (visit f.toHeap gmap linkParams depth r)) ∧
    ∀ r, 2 * r + 1 ≤ depth → ¬ Spins f.toHeap gmap r →
      Traced.Respects (Unfinished f.toHeap gmap) (Descends f.toHeap gmap)
        (rewrite f.toHeap gmap linkParams depth r) := by
  have hR := composable_descends f.toHeap gmap
  induction depth with
  | zero =>
    constructor
    · intro r hr
      omega
    · intro r hr
      omega
  | succ depth ih =>
    obtain ⟨ihvisit, ihrewrite⟩ := ih
    have hvisit (r : Nat) (hr : 2 * r ≤ depth) :
        Recursive f.toHeap gmap (visit f.toHeap gmap linkParams depth) r :=
      ⟨fun c hc => ihvisit c (by omega), fun c hc s hs => visit_timeout hc depth s hs⟩
    have hrewrite (r : Nat) (hr : 2 * r ≤ depth) :
        Recursive f.toHeap gmap (rewrite f.toHeap gmap linkParams depth) r :=
      ⟨fun c hc => ihrewrite c (by omega), fun c hc s _ => rewrite_timeout hc depth s⟩
    constructor
    · intro r hr hspins
      rw [visit]
      apply Traced.Respects.bind hR
      · apply Traced.Respects.step hR
        intro s hs
        refine ⟨hs, ?_, rfl⟩
        intro hend
        cases hend
      · intro s
        cases s.memoMap r with
        | some res => exact .pure hR res
        | none =>
          apply Traced.Respects.bind hR _ (respects_remember hspins)
          unfold dispatch
          cases hkind : f.kind r with
          | var tensor => exact .pure hR _
          | constant => exact .pure hR _
          | function params body primitive =>
            exact respects_visitFunction (hvisit r (by omega)) hkind (f.children_lt r)
          | call callee args => exact ihrewrite r (by omega) hspins
          | tuple fields => exact ihrewrite r (by omega) hspins
          | tupleGetItem t i => exact ihrewrite r (by omega) hspins
    · intro r hr hspins
      rw [rewrite]
      cases hkind : f.kind r with
      | var tensor => exact .pure hR _
      | constant => exact .pure hR _
      | function params body primitive => exact .pure hR _
      | call callee args =>
        exact respects_rewriteCall (hvisit r (by omega)) (hrewrite r (by omega)) hkind
          (f.children_lt r) hspins
      | tuple fields =>
        exact respects_rewriteTuple (hvisit r (by omega)) hkind (f.children_lt r) hspins
      | tupleGetItem t i =>
        exact Traced.Respects.bind hR (.require hR _ _) fun _ => .raise hR _

theorem root_not_spins : ¬ Spins f.toHeap gmap f.root := by
  obtain ⟨params, body, primitive, hkind⟩ := f.root_function
  unfold Spins
  rw [hkind]
  exact id

/-- At a sufficient depth the run is out of depth exactly when it visits an expression that spins. -/
theorem transform_descends (depth : Nat) (hdepth : 2 * f.root + 2 ≤ depth) :
    Descends f.toHeap gmap ((transform f.toHeap gmap linkParams depth).ending = .timeout)
      (transform f.toHeap gmap linkParams depth).log :=
  ((descends_of_depth f gmap linkParams depth).1 f.root hdepth (root_not_spins f gmap) initial
    fun _ _ => rfl).2

theorem transform_log_le {depth depth' : Nat} (hle : depth ≤ depth') :
    (transform f.toHeap gmap linkParams depth).log <+:
      (transform f.toHeap gmap linkParams depth').log := by
  cases @approx_le f.toHeap gmap linkParams _ _ hle f.root initial with
  | inl heq => simp [transform, heq]
  | inr hout => exact hout.2

theorem transform_eq_of_ends {depth depth' : Nat} (hle : depth ≤ depth')
    (hend : (transform f.toHeap gmap linkParams depth).ending ≠ .timeout) :
    transform f.toHeap gmap linkParams depth' = transform f.toHeap gmap linkParams depth := by
  cases @approx_le f.toHeap gmap linkParams _ _ hle f.root initial with
  | inl heq => exact heq.symm
  | inr hout => exact absurd hout.1 hend

/-- The recursion ends, by a value or an exception, and every recursive visit is of a subexpression. -/
def Ends : Prop :=
  (∃ depth, (transform f.toHeap gmap linkParams depth).ending ≠ .timeout) ∧
    ∀ depth, ∀ v ∈ (transform f.toHeap gmap linkParams depth).log, v.2 ∈ (f.kind v.1).children

theorem ends_of_visits
    (hvisits : ∀ depth, ∀ v ∈ (transform f.toHeap gmap linkParams depth).log,
      ¬ Spins f.toHeap gmap v.2) : Ends f gmap linkParams := by
  constructor
  · refine ⟨2 * f.root + 2, fun hend => ?_⟩
    obtain ⟨hout, -⟩ := transform_descends f gmap linkParams (2 * f.root + 2) (Nat.le_refl _)
    obtain ⟨v, hv, hspins⟩ := hout.mp hend
    exact hvisits _ v hv hspins
  · intro depth v hv
    obtain ⟨-, hgood⟩ := transform_descends f gmap linkParams (2 * f.root + 2 + depth) (by omega)
    have hmem := (transform_log_le f gmap linkParams
      (Nat.le_add_left depth (2 * f.root + 2))).subset hv
    exact (hgood v hmem).resolve_right (hvisits _ v hmem)

/-- A function without expressions that spin. -/
theorem ends_of_no_spins (hspins : ∀ r, ¬ Spins f.toHeap gmap r) : Ends f gmap linkParams :=
  ends_of_visits f gmap linkParams fun _ v _ => hspins v.2

end Run

/-- The function `fn (x) { (x,) }`. -/
def tupleHeap : Heap where
  kind r := [.var true, .tuple [0], .function [0] 1 false].getD r .constant
  tensorTyped r := r = 0
  root := 2

def tupleFunction : DataflowFunction where
  toHeap := tupleHeap
  children_lt r c hc := by
    by_cases hr : r < 3
    · interval_cases r <;> simp [tupleHeap, ExprKind.children] at hc <;> omega
    · have hkind : tupleHeap.kind r = .constant := List.getD_eq_default _ _ (by simp; omega)
      rw [hkind] at hc
      cases hc
  root_function := ⟨[0], 1, false, rfl⟩

/-- The groups of `InitGroup`, which `Partition` returns at optimisation level 0: each expression of
the graph is a group of its own. -/
def ownGroups : GroupMap where
  group r := if r < 2 then some r else none
  rootRef g := g

end StencilGraph.Fuse.FuseMutator

import StencilGraph.Plan.BaseVisitor

namespace StencilGraph.Plan

variable {τ : Type}

/-- The arguments of a call, as the visitors see it. -/
def callArgs (f : Func τ) (e : Nat) : List Nat :=
  match f.node e with
  | .call args => args
  | .onDevice body false => [body]
  | _ => []

/-- How often a call reads a tensor. -/
def Program.uses (p : Program τ) (e : Nat) (leaf : Leaf) : Nat :=
  ((callArgs p.toFunc e).flatMap p.leaves).count leaf

def Program.usesOf (p : Program τ) (visited : List Nat) (leaf : Leaf) : Nat :=
  (visited.map fun e => p.uses e leaf).sum

/-- `StorageAllocaInit` as a subclass of the base visitor. -/
def initVisitor (f : Func τ) : BaseVisitor τ (State τ) where
  maps := id
  record e tokens st := st.record e tokens
  mark e st := st.mark e
  createToken := createToken f
  visitCall := visitCall f
  charge tokens st := st.charge tokens

theorem initVisitor_visitExpr (f : Func τ) (fuel : Nat) :
    (initVisitor f).visitExpr f fuel = visitExpr f fuel := by
  have hlet (visit : Nat → State τ → Option (State τ)) (fuel : Nat) :
      (initVisitor f).visitLet f visit fuel = visitLet f visit fuel := by
    induction fuel with
    | zero => rfl
    | succ fuel ih =>
      funext e st
      unfold BaseVisitor.visitLet visitLet
      rw [ih]
      rfl
  induction fuel with
  | zero => rfl
  | succ fuel ih =>
    funext e st
    unfold BaseVisitor.visitExpr visitExpr
    rw [ih, hlet]
    rfl

/-- The tokens of the sources are their own and of the right types. Their counters hold the reads of
the visited calls, and those of the calls in progress. -/
structure Tallied (p : Program τ) (pending : Leaf → Nat) (st : State τ) : Prop where
  injective : ∀ leaf leaf' token, Source p leaf.1 → Source p leaf'.1 → Holds st leaf token →
    Holds st leaf' token → leaf = leaf'
  token : ∀ leaf token, Source p leaf.1 → Holds st leaf token → ∃ tok, st.arena[token]? = some tok ∧
    (flattenTupleType (p.checkedType leaf.1))[leaf.2]? = some tok.ttype ∧
    tok.refCounter = p.usesOf st.visited leaf + pending leaf
  recorded : ∀ leaf, pending leaf ≠ 0 → st.tokenMap leaf.1 ≠ none

variable {p : Program τ} {st st' : State τ} {pending : Leaf → Nat} {e token : Nat} {leaf : Leaf}

/-- A tensor that a visited call reads has a token. -/
theorem recorded_of_uses (h : Structural p st) (hplain : AllPlain p) (he : e ∈ st.visited)
    (hu : p.uses e leaf ≠ 0) : st.tokenMap leaf.1 ≠ none := by
  have hmem : leaf ∈ (callArgs p.toFunc e).flatMap p.leaves := by
    rw [← List.count_pos_iff]
    exact Nat.pos_of_ne_zero hu
  obtain ⟨c, hc, hleaf⟩ := List.mem_flatMap.mp hmem
  have hchild : c ∈ (p.node e).children := by
    unfold callArgs at hc
    split at hc <;> rename_i hnode
    · rw [hnode]
      exact hc
    · rw [hnode]
      exact hc
    · cases hc
  obtain ⟨⟨l, hl⟩, -⟩ := h.visited c ((h.visited e he).2 c hchild)
  have hall := h.forall₂_leaves hplain (Q := fun leaf _ => st.tokenMap leaf.1 ≠ none)
    (fun e l hs hl => by
      rw [List.forall₂_iff_get]
      refine ⟨(p.length_own e).trans (h.own e l hs hl).symm, fun k _ _ => ?_⟩
      simp [Program.own, hl]) c l hl
  obtain ⟨k, hk, rfl⟩ := List.getElem_of_mem hleaf
  rw [List.forall₂_iff_get] at hall
  exact hall.2 k hk (hall.1 ▸ hk)

theorem usesOf_eq_zero (h : Structural p st) (hplain : AllPlain p)
    (hnone : st.tokenMap leaf.1 = none) : p.usesOf st.visited leaf = 0 := by
  unfold Program.usesOf
  apply List.sum_eq_zero
  intro n hn
  obtain ⟨e, he, rfl⟩ := List.mem_map.mp hn
  by_contra hu
  exact recorded_of_uses h hplain he hu hnone

theorem charge_getElem? (tokens : List Nat) (token : Nat) :
    (st.charge tokens).arena[token]? = st.arena[token]?.map fun tok =>
      { tok with refCounter := tok.refCounter + tokens.count token } := by
  unfold State.charge
  generalize st.arena = arena
  induction tokens generalizing arena with
  | nil => simp
  | cons t tokens ih =>
    rw [List.foldl_cons, ih, List.getElem?_modify, List.count_cons]
    cases harena : arena[token]? with
    | none => split <;> simp
    | some tok =>
      by_cases ht : t = token <;> simp [ht, Nat.add_comm, Nat.add_left_comm]

theorem count_of_forall₂ {α β : Type} [BEq α] [LawfulBEq α] [BEq β] [LawfulBEq β] {R : α → β → Prop}
    {x : α} {y : β}
    {xs : List α} {ys : List β} (h : List.Forall₂ R xs ys)
    (hR : ∀ x' y', R x' y' → (x' = x ↔ y' = y)) :
    ys.count y = xs.count x := by
  induction h with
  | nil => rfl
  | @cons x' y' xs ys hx _ ih =>
    rw [List.count_cons, List.count_cons, ih]
    congr 1
    by_cases heq : x' = x
    · simp [heq, (hR x' y' hx).mp heq]
    · simp [heq, mt (hR x' y' hx).mpr heq]

/-- The tokens of an expression hold its tensors. -/
theorem Structural.holds (h : Structural p st) (hplain : AllPlain p) {l : List Nat}
    (hl : st.tokenMap (p.real e) = some l) :
    List.Forall₂ (fun leaf token => Source p leaf.1 ∧ Holds st leaf token) (p.leaves e) l := by
  apply h.forall₂_leaves hplain _ e l hl
  intro e l hs hl
  rw [List.forall₂_iff_get]
  refine ⟨(p.length_own e).trans (h.own e l hs hl).symm, fun k _ _ => ⟨?_, l, ?_, ?_⟩⟩
  · simpa [Program.own] using hs
  · simpa [Program.own] using hl
  · simp [Program.own]

namespace Tallied

theorem record (h : Tallied p pending st) (hs : ¬ Source p e) (l : List Nat) :
    Tallied p pending (st.record e l) := by
  have hother (c : Nat) (hc : Source p c) : (st.record e l).tokenMap c = st.tokenMap c :=
    Function.update_of_ne (fun heq : c = e => hs (heq ▸ hc)) _ _
  have hholds {leaf : Leaf} {token : Nat} (hs : Source p leaf.1) (h : Holds (st.record e l) leaf token) :
      Holds st leaf token := by
    obtain ⟨lt, hlt, htoken⟩ := h
    exact ⟨lt, (hother _ hs).symm.trans hlt, htoken⟩
  refine ⟨fun leaf leaf' token hs hs' hl hl' => ?_, fun leaf token hs hl => ?_, fun leaf hp => ?_⟩
  · exact h.injective leaf leaf' token hs hs' (hholds hs hl) (hholds hs' hl')
  · exact h.token leaf token hs (hholds hs hl)
  · show Function.update st.tokenMap e (some l) leaf.1 ≠ none
    by_cases he : leaf.1 = e
    · simp [he]
    · rw [Function.update_of_ne he]
      exact h.recorded leaf hp

/-- A visit is over: the reads of the expression are no longer in progress. -/
theorem mark {pending' : Leaf → Nat} (h : Tallied p pending' st)
    (hpending : ∀ leaf, pending' leaf = p.uses e leaf + pending leaf) :
    Tallied p pending (st.mark e) := by
  refine ⟨h.injective, fun leaf token hs hl => ?_, fun leaf hp => ?_⟩
  · obtain ⟨tok, htok, htype, hcount⟩ := h.token leaf token hs hl
    refine ⟨tok, htok, htype, ?_⟩
    rw [hcount, hpending, ← Nat.add_assoc, Nat.add_comm (p.usesOf _ _)]
    rfl
  · apply h.recorded leaf
    rw [hpending]
    omega

theorem createToken (h : Tallied p pending st) (hstruct : Structural p st) (hplain : AllPlain p)
    (hnone : st.tokenMap e = none) :
    ∃ st' l, Plan.createToken p.toFunc e st = some st' ∧ l.length = width (p.checkedType e) ∧
      st'.tokenMap = Function.update st.tokenMap e (some l) ∧ st'.visited = st.visited ∧
      Tallied p pending st' := by
  unfold Plan.createToken
  rw [hnone]
  simp only
  set types := flattenTupleType (p.checkedType e) with htypes
  refine ⟨_, _, rfl, List.length_range', rfl, rfl, ?_⟩
  set created : List (StorageToken τ) := types.map fun ttype => ⟨ttype, 0⟩
  -- a token is an old one, or a new one of the expression
  have hholds {leaf : Leaf} {token : Nat} (hl : Holds (State.record
      { st with arena := st.arena ++ created } e (List.range' st.arena.length types.length)) leaf token) :
      (leaf.1 ≠ e ∧ Holds st leaf token) ∨
        (leaf.1 = e ∧ leaf.2 < types.length ∧ token = st.arena.length + leaf.2) := by
    obtain ⟨l, hl, htoken⟩ := hl
    by_cases he : leaf.1 = e
    · right
      rw [he] at hl
      obtain rfl := Option.some.inj ((Function.update_self e _ _).symm.trans hl)
      obtain ⟨hlt, rfl⟩ := List.getElem?_eq_some_iff.mp htoken
      rw [List.length_range'] at hlt
      exact ⟨he, hlt, by simp⟩
    · left
      exact ⟨he, l, (Function.update_of_ne he _ _).symm.trans hl, htoken⟩
  have hlt {leaf : Leaf} {token : Nat} (hs : Source p leaf.1) (hl : Holds st leaf token) :
      token < st.arena.length := by
    obtain ⟨tok, htok, -⟩ := h.token leaf token hs hl
    exact (List.getElem?_eq_some_iff.mp htok).1
  refine ⟨fun leaf leaf' token hs hs' hl hl' => ?_, fun leaf token hs hl => ?_, fun leaf hp => ?_⟩
  · rcases hholds hl with ⟨-, hl⟩ | ⟨he, -, htoken⟩ <;> rcases hholds hl' with ⟨-, hl'⟩ | ⟨he', -, htoken'⟩
    · exact h.injective leaf leaf' token hs hs' hl hl'
    · have hlt := hlt hs hl
      omega
    · have hlt := hlt hs' hl'
      omega
    · exact Prod.ext (he.trans he'.symm) (by omega)
  · rcases hholds hl with ⟨-, hl⟩ | ⟨he, hk, rfl⟩
    · obtain ⟨tok, htok, hrest⟩ := h.token leaf token hs hl
      exact ⟨tok, (List.getElem?_append_left (hlt hs hl)).trans htok, hrest⟩
    · have hpending : pending leaf = 0 := by
        by_contra hp
        exact h.recorded leaf hp (he ▸ hnone)
      refine ⟨⟨types[leaf.2], 0⟩, ?_, ?_, ?_⟩
      · show (st.arena ++ created)[st.arena.length + leaf.2]? = _
        rw [List.getElem?_append_right (Nat.le_add_right _ _), Nat.add_sub_cancel_left]
        simp [created, hk]
      · rw [he]
        exact List.getElem?_eq_getElem hk
      · rw [hpending, Nat.add_zero]
        exact (usesOf_eq_zero hstruct hplain (he ▸ hnone)).symm
  · show Function.update st.tokenMap e _ leaf.1 ≠ none
    by_cases he : leaf.1 = e
    · simp [he]
    · rw [Function.update_of_ne he]
      exact h.recorded leaf hp

theorem charge (h : Tallied p pending st) (hstruct : Structural p st) (hplain : AllPlain p)
    {tokens : List Nat} (htokens : st.tokenMap (p.real e) = some tokens) :
    Tallied p (fun leaf => pending leaf + (p.leaves e).count leaf) (st.charge tokens) := by
  have hholds := hstruct.holds hplain htokens
  refine ⟨h.injective, fun leaf token hs hl => ?_, fun leaf hp => ?_⟩
  · obtain ⟨tok, htok, htype, hcount⟩ := h.token leaf token hs hl
    refine ⟨{ tok with refCounter := tok.refCounter + tokens.count token }, ?_, htype, ?_⟩
    · rw [charge_getElem?, htok]
      rfl
    · have hcounts : tokens.count token = (p.leaves e).count leaf := by
        apply count_of_forall₂ hholds
        intro leaf' token' hl'
        obtain ⟨hs', hl'⟩ := hl'
        constructor
        · intro heq
          rw [heq] at hl'
          exact hl'.unique hl
        · intro heq
          rw [heq] at hl'
          exact h.injective leaf' leaf token hs' hs hl' hl
      show tok.refCounter + tokens.count token = p.usesOf st.visited leaf + _
      rw [hcount, hcounts, Nat.add_assoc]
  · by_cases hp' : pending leaf = 0
    · rw [hp', Nat.zero_add, ← Nat.pos_iff_ne_zero, List.count_pos_iff] at hp
      obtain ⟨k, hk, rfl⟩ := List.getElem_of_mem hp
      rw [List.forall₂_iff_get] at hholds
      obtain ⟨-, l, hl, -⟩ := hholds.2 k hk (hholds.1 ▸ hk)
      show st.tokenMap _ ≠ none
      exact fun hnone => Option.some_ne_none l (hl.symm.trans hnone)
    · exact h.recorded leaf hp'

end Tallied

section Run

variable {visit : Nat → State τ → Option (State τ)} {bound : Nat}

theorem visitArgs_tallied (hvisit : Visits p (initVisitor p.toFunc) (Tallied p) visit bound)
    (hplain : AllPlain p) (args : List Nat) (hargs : ∀ arg ∈ args, arg < bound ∧ Ready p st arg)
    (hs : Structural p st) (h : Tallied p pending st) :
    ∃ st', visitArgs p.toFunc visit args st = some st' ∧ Structural p st' ∧ Advance p st st' ∧
      (∀ arg ∈ args, arg ∈ st'.visited) ∧
      (∀ c ∈ st'.visited, c ∈ st.visited ∨ ∃ arg ∈ args, c ≤ arg) ∧
      Tallied p (fun leaf => pending leaf + (args.flatMap p.leaves).count leaf) st' := by
  unfold visitArgs
  induction args generalizing st pending with
  | nil => exact ⟨st, rfl, hs, .refl st, by simp, fun c hc => Or.inl hc, by simpa using h⟩
  | cons arg args ih =>
    obtain ⟨hlt, hready⟩ := hargs arg List.mem_cons_self
    obtain ⟨tokens, st₁, hrun₁, h₁, htokens, ht₁⟩ := hvisit.getToken hlt hs h hready
    have hcharged : Structural p (st₁.charge tokens) := ⟨h₁.structural.derived, h₁.structural.own,
      h₁.structural.visited, h₁.structural.projected, h₁.structural.created,
      h₁.structural.reach, h₁.structural.nodup⟩
    have hadvance₁ : Advance p st (st₁.charge tokens) :=
      ⟨h₁.advance.keeps, h₁.advance.visited, h₁.advance.created⟩
    obtain ⟨st₂, hrun₂, hs₂, hadvance₂, hvisited, hbelow, ht₂⟩ := ih (fun arg' harg' => by
      obtain ⟨hlt', hready'⟩ := hargs arg' (List.mem_cons_of_mem _ harg')
      exact ⟨hlt', hready'.advance hadvance₁⟩) hcharged (ht₁.charge h₁.structural hplain htokens)
    refine ⟨st₂, ?_, hs₂, hadvance₁.trans hadvance₂, fun arg' harg' => ?_, fun c hc => ?_, ?_⟩
    · rw [List.foldlM_cons]
      have hrun : getToken p.toFunc visit arg st = some (tokens, st₁) := hrun₁
      simp only [hrun, Option.bind_eq_bind, Option.bind_some]
      exact hrun₂
    · cases List.mem_cons.mp harg' with
      | inl heq =>
        rw [heq]
        exact hadvance₂.visited arg h₁.visited
      | inr harg' => exact hvisited arg' harg'
    · cases hbelow c hc with
      | inl hc =>
        cases h₁.below c hc with
        | inl hc => exact Or.inl hc
        | inr hle => exact Or.inr ⟨arg, List.mem_cons_self, hle⟩
      | inr hc =>
        obtain ⟨arg', harg', hle⟩ := hc
        exact Or.inr ⟨arg', List.mem_cons_of_mem _ harg', hle⟩
    · simpa [List.flatMap_cons, List.count_append, Nat.add_assoc] using ht₂

/-- The children of a call are ready when its tokens have been created. -/
theorem Ready.arg {l : List Nat} (hready : Ready p st e) (hnone : st.tokenMap e = none)
    (hlet : ∀ w x b, p.node e ≠ .letIn w x b) (hmap : st'.tokenMap = Function.update st.tokenMap e (some l))
    (hvisited : st'.visited = st.visited) {c : Nat} (hc : c ∈ (p.node e).children) : Ready p st' c := by
  have hlt := p.forward e c hc
  have hchild := hready.child hc fun w x b h => absurd h (hlet w x b)
  refine ⟨fun c' hc' hcc hcv => ?_, fun v hv => ?_, hchild.reach⟩
  · rw [hmap, Function.update_of_ne (by omega)]
    exact hchild.fresh c' hc' hcc (by rwa [← hvisited])
  · obtain ⟨lv, hlv⟩ := hchild.scope v hv
    refine ⟨lv, ?_⟩
    rw [hmap, Function.update_of_ne, hlv]
    intro heq
    rw [heq, hnone] at hlv
    cases hlv

/-- The methods of `StorageAllocaInit` keep the counters right. -/
theorem initVisitor_keeps (hplain : AllPlain p) : Keeps p (initVisitor p.toFunc) (Tallied p) where
  maps_record _ _ _ := rfl
  maps_mark _ _ := rfl
  record x st e l _ h hs := h.record hs l
  mark x st e _ h hc := by
    apply Tallied.mark h
    intro leaf
    have hargs : callArgs p.toFunc e = [] := by
      unfold callArgs
      split
      · rename_i args hnode
        exact absurd (Or.inr (Or.inl ⟨args, hnode⟩)) hc
      · rename_i b hnode
        exact absurd (Or.inr (Or.inr ⟨b, hnode⟩)) hc
      · rfl
    simp [Program.uses, hargs]
  constant x st e hs h hnode _ hnone _ := by
    obtain ⟨st', l, hrun, hlength, hmap, hvisited, h'⟩ := Tallied.createToken h hs hplain hnone
    refine ⟨st', l, hrun, hlength, hmap, hvisited, h'.mark fun leaf => ?_⟩
    simp [Program.uses, callArgs, hnode]
  param x st e hs h he hnone _ := by
    obtain ⟨st', l, hrun, hlength, hmap, hvisited, h'⟩ := Tallied.createToken h hs hplain hnone
    exact ⟨st', l, hrun, hlength, hmap, hvisited, h'⟩
  call visit bound e args x st hvisit hbound hkind hs h hready hnot := by
    have hcreated : Created p e := by
      rcases hkind with hnode | ⟨b, hnode, -⟩
      · exact Or.inr (Or.inl ⟨args, hnode⟩)
      · exact Or.inr (Or.inr ⟨b, hnode⟩)
    have hargs : callArgs p.toFunc e = args ∧ (p.node e).children = args := by
      rcases hkind with hnode | ⟨b, hnode, rfl⟩ <;> simp [callArgs, hnode, Expr.children]
    have hlet : ∀ w x b, p.node e ≠ .letIn w x b := by
      rcases hkind with hnode | ⟨b, hnode, -⟩ <;> simp [hnode]
    have hnone := hready.fresh e (Nat.le_refl e) hcreated hnot
    obtain ⟨st₁, l, hrun₁, hlength, hmap, hvisited₁, h₁⟩ := Tallied.createToken h hs hplain hnone
    obtain ⟨hs₁, hkeep, hself, hother⟩ := Structural.create hs (Or.inl hcreated) hnone hlength hmap hvisited₁
    obtain ⟨st₂, hrun₂, hs₂, hadvance, hvisited, hbelow, h₂⟩ := visitArgs_tallied hvisit hplain args
      (fun arg harg => by
        rw [← hargs.2] at harg
        have hlt := p.forward e arg harg
        exact ⟨by omega, hready.arg hnone hlet hmap hvisited₁ harg⟩) hs₁ h₁
    refine ⟨st₂, ?_, hs₂, ?_, ⟨l, hadvance.keeps e l hself⟩, hvisited, fun c hc => ?_, ?_⟩
    · show Plan.visitCall p.toFunc visit e args st = some st₂
      unfold Plan.visitCall
      have hrun : Plan.createToken p.toFunc e st = some st₁ := hrun₁
      rw [hrun]
      exact hrun₂
    · have hmark : Advance p st (st₁.mark e) := .created_mark hkeep hother hvisited₁
      refine hmark.trans ?_
      exact ⟨hadvance.keeps, fun c hc => List.mem_cons.mpr ((List.mem_cons.mp hc).imp id (hadvance.visited c)),
        fun c hcc hnone hsome => List.mem_cons_of_mem _ (hadvance.created c hcc hnone hsome)⟩
    · rcases hbelow c hc with hc | ⟨arg, harg, hle⟩
      · rw [hvisited₁] at hc
        exact Or.inl hc
      · right
        have hlt := p.forward e arg (hargs.2 ▸ harg)
        omega
    · apply h₂.mark
      intro leaf
      simp only [Program.uses, hargs.1]
      exact Nat.add_comm _ _

/-- After the first pass the counter of a token is the number of the reads of its tensor, with those
of the caller. -/
theorem run_tallied (hplain : AllPlain p) : ∃ st, run p.toFunc = some st ∧ Structural p st ∧
    (∀ e, e ∈ st.visited ↔ Reach p.toFunc e) ∧ (∀ e ∈ p.params, ∃ l, st.tokenMap e = some l) ∧
    Tallied p (fun leaf => (p.leaves p.body).count leaf) st := by
  have hempty : Tallied p (fun _ => 0) (.empty : State τ) := by
    refine ⟨?_, ?_, ?_⟩ <;> simp [Holds, State.empty]
  obtain ⟨tokens, st, hrun, hs, htokens, hvisited, hparams, h⟩ :=
    (initVisitor_keeps hplain).run hplain (s := .empty) (fun _ => rfl) rfl hempty
  have hcharged := Tallied.charge h hs hplain htokens
  refine ⟨st.charge tokens, ?_, ⟨hs.derived, hs.own, hs.visited, hs.projected, hs.created, hs.reach,
    hs.nodup⟩, hvisited, hparams, ?_⟩
  · unfold BaseVisitor.run at hrun
    rw [initVisitor_visitExpr] at hrun
    exact hrun
  · simpa using hcharged

end Run

end StencilGraph.Plan

import StencilGraph.Plan.StorageSharing

namespace StencilGraph.Plan
open Framework.RefCount

variable {δ : Type} {p : LoweredProgram δ} {proto : State TensorType}

theorem created_not_param {e : Nat} (hc : Created p.toProgram e) : e ∉ p.params := by
  intro he
  have hvar := (p.param e he).1
  rcases hc with h | ⟨args, h⟩ | ⟨b, h⟩ <;> simp [h] at hvar

theorem usesOf_mark_of_no_args {τ : Type} {p : Program τ} {e : Nat} (h : callArgs p.toFunc e = [])
    (visited : List Nat) : p.usesOf visited = p.usesOf (e :: visited) := by
  funext leaf
  have huses : p.uses e leaf = 0 := by simp [Program.uses, h]
  show _ = p.uses e leaf + p.usesOf visited leaf
  rw [huses, Nat.zero_add]

/-- The invariant of the second pass. -/
def Planned (hf : FirstPass p proto) (_ : Unit) (st : Allocation δ) : Prop :=
  ∃ placed, Allocated p.toProgram (p.demand hf.tallied) placed st

/-- A parameter or a constant gets storage that is never given back. -/
theorem Planned.createToken [DecidableEq δ] (hf : FirstPass p proto) (hplain : AllPlain p.toProgram) {st : Allocation δ}
    {e : Nat} (hs : Structural p.toProgram st.maps) (hnone : st.tokenMap e = none)
    (hsource : Source p.toProgram e) (hrecorded : ∃ l, proto.tokenMap e = some l)
    (hpinned : p.node e = .var ∨ p.node e = .constant) {placed : List (Entry Leaf Nat (List Nat))}
    (h : Allocated p.toProgram (p.demand hf.tallied) placed st) :
    ∃ tokens entries st', (p.lowered proto).createToken false e st = some st' ∧
      Extended p.toProgram (p.demand hf.tallied) placed entries e tokens st st' :=
  h.createToken hf hs hplain hsource hnone hrecorded false fun _ => if_pos hpinned

theorem allocator_call [DecidableEq δ] (hf : FirstPass p proto) (hplain : AllPlain p.toProgram)
    {visit : Nat → Allocation δ → Option (Allocation δ)} {bound e : Nat} {args : List Nat} {st : Allocation δ}
    (hvisit : Visits p.toProgram (p.lowered proto).allocator (Planned hf) visit bound) (hbound : e ≤ bound)
    (hkind : p.node e = .call args ∨ ∃ b, p.node e = .onDevice b false ∧ args = [b])
    (hs : Structural p.toProgram st.maps) (hG : Planned hf () st) (hready : Ready p.toProgram st.maps e)
    (hnot : e ∉ st.visited) :
    ∃ st', (p.lowered proto).visitCall visit e args st = some st' ∧ Structural p.toProgram st'.maps ∧
      Advance p.toProgram st.maps (st'.maps.mark e) ∧ (∃ l, st'.tokenMap e = some l) ∧
      (∀ c ∈ args, c ∈ st'.visited) ∧ (∀ c ∈ st'.visited, c ∈ st.visited ∨ c < e) ∧
      Planned hf () (st'.mark e) := by
  have hcreated : Created p.toProgram e := by
    rcases hkind with hnode | ⟨b, hnode, -⟩
    · exact Or.inr (Or.inl ⟨args, hnode⟩)
    · exact Or.inr (Or.inr ⟨b, hnode⟩)
  have hargs : callArgs p.toFunc e = args ∧ (p.node e).children = args := by
    rcases hkind with hnode | ⟨b, hnode, rfl⟩ <;> simp [callArgs, hnode, Expr.children]
  have hconst : p.node e ≠ .constant := by
    rcases hkind with hnode | ⟨b, hnode, -⟩ <;> simp [hnode]
  have hlet : ∀ w x b, p.node e ≠ .letIn w x b := by
    rcases hkind with hnode | ⟨b, hnode, -⟩ <;> simp [hnode]
  obtain ⟨ls, st₁, hrun₁, hs₁, hadvance, hvisited, hbelow, hls, placed, h₁⟩ :=
    hvisit.getTokens args [] (fun arg harg => by
      rw [← hargs.2] at harg
      have hlt := p.forward e arg harg
      exact ⟨by omega, hready.child harg fun w x b h => absurd h (hlet w x b)⟩) hs hG
  have hbelow₁ : ∀ c ∈ st₁.visited, c ∈ st.visited ∨ c < e := by
    intro c hc
    refine (hbelow c hc).imp id fun harg => ?_
    obtain ⟨arg, harg, hle⟩ := harg
    have hlt := p.forward e arg (hargs.2 ▸ harg)
    omega
  have hnot₁ : e ∉ st₁.visited := fun hc => (hbelow₁ e hc).elim hnot (Nat.lt_irrefl e)
  have hnone₁ := (hready.advance hadvance).fresh e (Nat.le_refl e) hcreated hnot₁
  rw [← hargs.1] at hls
  obtain ⟨tokens, entries, st₂, hrun₂, hx⟩ :=
    h₁.createOutput hf hs₁ hplain hcreated hconst hnone₁ hready.reach hnot₁ hls
  obtain ⟨pool₃, hrun₃, h₃⟩ := hx.pooled.releaseOutputs tokens hx.distinct hx.stored hx.busy
  have hargTokens := (h₁.argTokens hs₁ hplain hls).imp fun leaf tok hleaf =>
    hleaf.imp fun t hmem => List.mem_append_right entries hmem
  obtain ⟨pool₄, hrun₄, h₄⟩ := h₃.releaseArgs hargTokens fun leaf => by
    have hle := uses_le hf hs₁ hready.reach hnot₁ leaf
    have hcount : ((callArgs p.toFunc e).flatMap p.leaves).count leaf = p.uses e leaf := rfl
    omega
  let st₄ : Allocation δ := { st₂ with toPool := pool₄ }
  have hmap₂ : st₄.maps.tokenMap = Function.update st₁.maps.tokenMap e (some tokens) := hx.tokenMap
  have hself : st₂.tokenMap e = some tokens := by
    rw [hx.tokenMap, Function.update_self]
  have hvisited₂ : st₄.maps.visited = st₁.maps.visited := hx.visited
  obtain ⟨hs₄, hkeep, -, hother⟩ :=
    Structural.create hs₁ (Or.inl hcreated) hnone₁ hx.length hmap₂ hvisited₂
  have hvisited₄ : st₄.visited = st₁.visited := hx.visited
  refine ⟨st₄, ?_, hs₄, ?_, ⟨tokens, hself⟩, fun c hc => ?_, fun c hc => ?_, entries ++ placed, ?_⟩
  · unfold Lowered.visitCall
    have hrun₁' : BaseVisitor.getTokens Allocation.maps p.toFunc visit args ([], st) =
        some (ls.flatten, st₁) := hrun₁
    have htoFunc : (p.lowered proto).toFunc = p.toFunc := rfl
    simp only [htoFunc, hrun₁', hrun₂, hself, hrun₃, hrun₄, Option.bind_eq_bind, Option.bind_some]
    rfl
  · exact hadvance.trans (Advance.created_mark hkeep hother hvisited₄)
  · rw [hvisited₄]
    exact hvisited c hc
  · rw [hvisited₄] at hc
    exact hbelow₁ c hc
  · have hmark : (st₄.mark e).visited = e :: st₁.visited := congrArg _ hvisited₄
    have hmap : (st₄.mark e).tokenMap = st₂.tokenMap := rfl
    apply hx.allocated h₁ (Or.inl hcreated) hnone₁ hmap h₄
    · funext leaf
      rw [hmark]
      exact Nat.add_comm _ _
    · rw [hmark]
      exact List.suffix_cons e st₁.visited
    · rw [hmark]
      exact Or.inr ⟨created_not_param hcreated, List.suffix_refl _⟩

/-- The methods of `StorageAllocator` keep the invariant, and none of their checks fails. -/
theorem allocator_keeps [DecidableEq δ] (hf : FirstPass p proto) (hplain : AllPlain p.toProgram) :
    Keeps p.toProgram (p.lowered proto).allocator (Planned hf) where
  maps_record _ _ _ := rfl
  maps_mark _ _ := rfl
  record _ _ _ l _ h hs := h.imp fun _ h => h.record hs l
  mark _ st e _ h hc := by
    apply h.imp
    intro placed h
    apply h.mark
    intro leaf
    have hargs : callArgs p.toFunc e = [] := by
      unfold callArgs
      split
      · rename_i args hnode
        exact absurd (Or.inr (Or.inl ⟨args, hnode⟩)) hc
      · rename_i b hnode
        exact absurd (Or.inr (Or.inr ⟨b, hnode⟩)) hc
      · rfl
    simp [Program.uses, hargs]
  constant _ st e hs h hnode hreach hnone hnot := by
    obtain ⟨placed, h⟩ := h
    have hcreated : Created p.toProgram e := Or.inl hnode
    obtain ⟨tokens, entries, st', hrun, hx⟩ := Planned.createToken hf hplain hs hnone (Or.inl hcreated)
      (hf.recorded hcreated hreach) (Or.inr hnode) h
    refine ⟨st', tokens, hrun, hx.length, hx.tokenMap, hx.visited, entries ++ placed, ?_⟩
    have hmark : (st'.mark e).visited = e :: st.visited := congrArg _ hx.visited
    have hmap : (st'.mark e).tokenMap = st'.tokenMap := rfl
    apply hx.allocated h (Or.inl hcreated) hnone hmap hx.pooled
    · rw [hmark]
      exact usesOf_mark_of_no_args (by simp [callArgs, hnode]) _
    · rw [hmark]
      exact List.suffix_cons e st.visited
    · rw [hmark]
      exact Or.inr ⟨created_not_param hcreated, List.suffix_refl _⟩
  param _ st e hs h he hnone hvisited := by
    obtain ⟨placed, h⟩ := h
    have hvar := p.param e he
    obtain ⟨tokens, entries, st', hrun, hx⟩ := Planned.createToken hf hplain hs hnone (Or.inr hvar)
      (hf.params e he) (Or.inl hvar.1) h
    refine ⟨st', tokens, hrun, hx.length, hx.tokenMap, hx.visited, entries ++ placed, ?_⟩
    apply hx.allocated h (Or.inr hvar) hnone rfl hx.pooled
    · rw [hx.visited]
    · rw [hx.visited]
    · exact Or.inl ⟨he, hvisited⟩
  call _ _ _ _ _ st hvisit hbound hkind hs h hready hnot :=
    allocator_call hf hplain hvisit hbound hkind hs h hready hnot

/-- Keeping the result alive changes nothing else. -/
theorem Allocation.charge_same (tokens : List Nat) (st : Allocation δ) (tok : Nat) :
    ((st.charge tokens).arena tok).storageId = (st.arena tok).storageId ∧
      ((st.charge tokens).arena tok).maxBytes = (st.arena tok).maxBytes ∧
      ((st.charge tokens).arena tok).ttype = (st.arena tok).ttype := by
  unfold Allocation.charge
  generalize st.toPool = pool
  induction tokens generalizing pool with
  | nil => exact ⟨rfl, rfl, rfl⟩
  | cons tok' tokens ih =>
    rw [List.foldl_cons]
    obtain ⟨hid, hbytes, htype⟩ := ih (pool.modify tok' fun tok => { tok with refCounter := tok.refCounter + 1 })
    rw [hid, hbytes, htype]
    by_cases hne : tok = tok'
    · rw [hne, Pool.modify_self]
      exact ⟨rfl, rfl, rfl⟩
    · rw [Pool.modify_of_ne _ hne]
      exact ⟨rfl, rfl, rfl⟩

theorem pooled_empty (hf : FirstPass p proto) :
    Pooled (p.demand hf.tallied) [] (p.usesOf []) ⟨initialArena proto.arena, [], []⟩ where
  accounted := ⟨List.nodup_nil, fun _ => Nat.zero_le _, by simp, by simp, .nil⟩
  stored := by simp
  ids tok k := by
    have hnone : (initialArena proto.arena tok : Storage δ).storageId = none :=
      (p.demand hf.tallied).unallocated tok
    simp [hnone]
  untouched _ _ := rfl
  ttype _ := rfl
  own := by simp
  first := by simp
  largest := by simp
  roomy := by simp
  nodup := List.nodup_nil
  free := by simp

/-- Planning never fails. -/
theorem plan_allocated [DecidableEq δ] (p : LoweredProgram δ) (hplain : AllPlain p.toProgram) :
    ∃ (proto : State TensorType) (hf : FirstPass p proto) (st : Allocation δ) (tokens : List Nat)
      (placed : List (Entry Leaf Nat (List Nat))),
      plan p.toFunc p.virtualDevice p.reshapeOnly = some (st.charge tokens) ∧
      Allocated p.toProgram (p.demand hf.tallied) placed st ∧ Structural p.toProgram st.maps ∧
      ∀ e, e ∈ st.visited ↔ Reach p.toFunc e := by
  obtain ⟨proto, hrun, hs, hvisited, hparams, htally⟩ := run_tallied hplain
  have hf : FirstPass p proto := ⟨hs, hvisited, hparams, htally⟩
  have hempty : Planned hf () ⟨⟨initialArena proto.arena, [], []⟩, fun _ => none, []⟩ := by
    refine ⟨[], pooled_empty hf, ⟨by simp, by simp, .nil⟩, ?_, ?_⟩ <;> simp [Holds, Allocation.maps]
  obtain ⟨tokens, st, hrun', hs', -, hvisited', -, placed, h⟩ :=
    (allocator_keeps hf hplain).run hplain (fun _ => rfl) rfl hempty
  refine ⟨proto, hf, st, tokens, placed, ?_, h, hs', hvisited'⟩
  unfold plan
  rw [hrun]
  exact hrun'

/-- The tensor is in the storage with the id. -/
def Allocation.Stored (st : Allocation δ) (leaf : Leaf) (id : Nat) : Prop :=
  ∃ tok, Holds st.maps leaf tok ∧ (st.arena tok).storageId = some id

/-- A tensor at the moment where an expression is evaluated, after those in `before` and before those
in `after`. The expression computes it, or it is there already and is read now or later, returned, or
kept for good. -/
def Live (p : Program TensorType) (before : List Nat) (e : Nat) (after : List Nat) (leaf : Leaf) : Prop :=
  Source p leaf.1 ∧ (leaf.1 = e ∨ ((leaf.1 ∈ p.params ∨ leaf.1 ∈ before) ∧
    (leaf ∈ p.leaves p.body ∨ p.node leaf.1 = .var ∨ p.node leaf.1 = .constant ∨
      ∃ c ∈ e :: after, p.uses c leaf ≠ 0)))

/-- What was visited before an expression of the first part of a list. -/
theorem mem_of_suffix {α : Type} {after before time : List α} {e x c : α}
    (hnodup : (after ++ e :: before).Nodup) (hsuffix : x :: time <:+ after ++ e :: before)
    (hx : x = e ∨ x ∈ before) (hc : c ∈ time) : c ∈ before := by
  cases List.suffix_or_suffix_of_suffix hsuffix (List.suffix_append after (e :: before)) with
  | inl h =>
    cases List.suffix_cons_iff.mp h with
    | inl heq =>
      rw [← (List.cons.inj heq).2]
      exact hc
    | inr h => exact h.subset (List.mem_cons_of_mem _ hc)
  | inr h =>
    cases List.suffix_cons_iff.mp h with
    | inl heq =>
      rw [(List.cons.inj heq).2]
      exact hc
    | inr h =>
      have hmem : x ∈ time := by
        cases hx with
        | inl heq =>
          rw [heq]
          exact h.subset List.mem_cons_self
        | inr hx => exact h.subset (List.mem_cons_of_mem _ hx)
      exact absurd hmem (List.nodup_cons.mp (hnodup.sublist hsuffix.sublist)).1

/-- Two tensors in one block that are live together are related: the later one took the block. -/
theorem related_of_live (hf : FirstPass p proto) {placed : List (Entry Leaf Nat (List Nat))}
    {st : Allocation δ} (h : Allocated p.toProgram (p.demand hf.tallied) placed st)
    (hs : Structural p.toProgram st.maps) (hvisited : ∀ e, e ∈ st.visited ↔ Reach p.toFunc e)
    {before after : List Nat} {e : Nat} (hsplit : st.visited = after ++ e :: before)
    {new old : Entry Leaf Nat (List Nat)} (hnew : new ∈ placed) (hold : old ∈ placed) (hne : new ≠ old)
    (hblock : new.block = old.block) (hlive : Live p.toProgram before e after new.value)
    (hlive' : Live p.toProgram before e after old.value)
    (hordered : old.value.1 ∈ p.params ∨ old.value.1 = new.value.1 ∨ old.value.1 ∈ new.time)
    (hdead : (p.demand hf.tallied).refs old.value ≤ p.usesOf new.time old.value) :
    p.SameOrigin new.value old.value := by
  have hnodup : (after ++ e :: before).Nodup := hsplit ▸ hs.nodup
  have hperm : proto.visited.Perm st.visited := by
    apply (List.perm_ext_iff_of_nodup hf.structural.nodup hs.nodup).mpr
    intro c
    exact (hf.visited c).trans (hvisited c).symm
  have htotal : p.usesOf proto.visited old.value = p.usesOf st.visited old.value := (hperm.map _).sum_eq
  have hrefs : p.usesOf st.visited old.value + (p.leaves p.body).count old.value + p.pinned old.value ≤
      p.usesOf new.time old.value := by
    rw [← htotal]
    exact hdead
  have htime : new.time.Nodup ∧ ∀ c ∈ new.time, c ∈ st.visited := by
    rcases h.timed.evaluated new hnew with ⟨-, htime⟩ | ⟨-, hsuffix⟩
    · rw [htime]
      exact ⟨List.nodup_nil, by simp⟩
    · exact ⟨(List.nodup_cons.mp (hs.nodup.sublist hsuffix.sublist)).2,
        fun c hc => hsuffix.subset (List.mem_cons_of_mem _ hc)⟩
  have hle := p.usesOf_le htime.1 htime.2 old.value
  have hfree : p.node old.value.1 ≠ .var ∧ p.node old.value.1 ≠ .constant := by
    have hpinned : p.pinned old.value = 0 := by omega
    unfold LoweredProgram.pinned at hpinned
    rw [← not_or]
    intro hkept
    rw [if_pos hkept] at hpinned
    cases hpinned
  have hparam : old.value.1 ∉ p.params := fun hmem => hfree.1 (p.param _ hmem).1
  rcases hordered with hmem | hsame | hmem
  · exact absurd hmem hparam
  · -- two tensors of one expression have different tokens
    exfalso
    obtain ⟨l, hl, htok⟩ := (h.holds new.value new.block hlive.1).mpr ⟨new.time, hnew⟩
    obtain ⟨l', hl', htok'⟩ := (h.holds old.value old.block hlive'.1).mpr ⟨old.time, hold⟩
    rw [hsame] at hl'
    obtain rfl := Option.some.inj (hl.symm.trans hl')
    obtain ⟨hk, hget⟩ := List.getElem?_eq_some_iff.mp htok
    obtain ⟨hk', hget'⟩ := List.getElem?_eq_some_iff.mp htok'
    have hidx := ((h.distinct _ l hlive.1 hl).getElem_inj_iff).mp (hget.trans (hblock.trans hget'.symm))
    exact hne (List.inj_on_of_nodup_map h.pooled.accounted.nodup hnew hold (Prod.ext hsame.symm hidx))
  · -- the reads of the older tensor were over when the newer one got the block
    exfalso
    have hsub : ∀ c ∈ new.time, c ∈ before := by
      intro c hc
      rcases h.timed.evaluated new hnew with ⟨-, htime⟩ | ⟨hnparam, hsuffix⟩
      · rw [htime] at hc
        cases hc
      · rw [hsplit] at hsuffix
        apply mem_of_suffix hnodup hsuffix _ hc
        rcases hlive.2 with heq | ⟨hmem | hmem, -⟩
        · exact Or.inl heq
        · exact absurd hmem hnparam
        · exact Or.inr hmem
    have hbefore := p.usesOf_le htime.1 hsub old.value
    have happend : p.usesOf st.visited old.value =
        p.usesOf after old.value + p.usesOf (e :: before) old.value := by
      rw [hsplit, p.usesOf_append]
    have hcons : p.usesOf (e :: before) old.value = p.uses e old.value + p.usesOf before old.value := rfl
    have hdisjoint := List.nodup_append.mp hnodup
    have holde : old.value.1 ≠ e := by
      intro heq
      exact (List.nodup_cons.mp hdisjoint.2.1).1 (heq ▸ hsub _ hmem)
    rcases hlive'.2.resolve_left holde with ⟨-, hresult | hvar | hconst | ⟨c, hc, huses⟩⟩
    · have hpos := List.count_pos_iff.mpr hresult
      omega
    · exact hfree.1 hvar
    · exact hfree.2 hconst
    · cases List.mem_cons.mp hc with
      | inl heq =>
        rw [heq] at huses
        omega
      | inr hc =>
        have hpos : p.uses c old.value ≤ p.usesOf after old.value :=
          List.le_sum_of_mem (List.mem_map_of_mem hc)
        omega

/-- Three calls in a row and a reshape of the last result. -/
def chainFunc : Func TensorType where
  node e := [.var, .call [0], .call [1], .call [2], .tuple [3], .call [4]].getD e .var
  checkedType e :=
    if e = 4 then .tuple [.tensor ⟨[some 25], 32, 1⟩]
    else .tensor ⟨[[some 1], [some 2], [some 4], [some 25], [], [some 5, some 5]].getD e [], 32, 1⟩
  params := [0]
  body := 5

theorem chainFunc_node (e : Nat) : chainFunc.node e = .var ∨
    (∃ c, c + 1 = e ∧ chainFunc.node e = .call [c]) ∨ (e = 4 ∧ chainFunc.node e = .tuple [3]) := by
  by_cases he : e < 6
  · interval_cases e <;> simp [chainFunc]
  · left
    exact List.getD_eq_default _ _ (by simp; omega)

theorem chainFunc_free (e v : Nat) (h : Free chainFunc e v) (he : e ≤ 5) : v ∈ [0] := by
  induction h with
  | var v hv =>
    interval_cases v <;> first | simp; done | cases hv
  | child e c v hc _ _ ih =>
    apply ih
    rcases chainFunc_node e with hn | ⟨c', rfl, hn⟩ | ⟨rfl, hn⟩ <;> rw [hn] at hc <;>
      simp [Expr.children] at hc <;> omega

def chain : LoweredProgram Unit where
  toFunc := chainFunc
  binding _ := none
  forward e c hc := by
    rcases chainFunc_node e with hn | ⟨c', rfl, hn⟩ | ⟨rfl, hn⟩ <;> rw [hn] at hc <;>
      simp [Expr.children] at hc <;> omega
  bound _ _ h := by cases h
  letIn e v x b h := by
    rcases chainFunc_node e with hn | ⟨c', -, hn⟩ | ⟨-, hn⟩ <;> rw [hn] at h <;> cases h
  tuple e fields h := by
    rcases chainFunc_node e with hn | ⟨c', -, hn⟩ | ⟨rfl, hn⟩ <;> rw [hn] at h <;> cases h
    rfl
  tupleGetItem e t i h := by
    rcases chainFunc_node e with hn | ⟨c', -, hn⟩ | ⟨-, hn⟩ <;> rw [hn] at h <;> cases h
  onDevice e b isFixed h := by
    rcases chainFunc_node e with hn | ⟨c', -, hn⟩ | ⟨-, hn⟩ <;> rw [hn] at h <;> cases h
  param v hv := by
    rw [List.mem_singleton.mp hv]
    exact ⟨rfl, rfl⟩
  nodup := by decide
  closed v hv := chainFunc_free 5 v hv (Nat.le_refl 5)
  virtualDevice _ := ()
  reshapeOnly e := e == 5
  sized e ttype h := by
    by_cases he : e < 6
    · interval_cases e <;> rw [List.mem_singleton.mp h] <;> exact ⟨_, rfl⟩
    · have hshape : chainFunc.checkedType e = .tensor ⟨[], 32, 1⟩ := by
        have hget : [[some 1], [some 2], [some 4], [some 25], [], [some 5, some 5]].getD e [] =
            ([] : List (Option Int)) := List.getD_eq_default _ _ (by simp; omega)
        simp only [chainFunc, if_neg (show e ≠ 4 by omega), hget]
      rw [hshape] at h
      rw [List.mem_singleton.mp h]
      exact ⟨_, rfl⟩
  reshape e h := by
    rw [beq_iff_eq] at h
    rw [h]
    exact ⟨4, 3, _, _, rfl, rfl, rfl, rfl, rfl⟩

theorem chain_plain : AllPlain chain.toProgram := by
  intro e t i _ hnode
  have hnode' : chainFunc.node e = .tupleGetItem t i := hnode
  rcases chainFunc_node e with hn | ⟨c', -, hn⟩ | ⟨-, hn⟩ <;> rw [hn] at hnode' <;> cases hnode'

/-- What `Plan` reports of an expression: the storage ids of its tensors and their sizes. -/
def Allocation.storageInfo (st : Allocation δ) (e : Nat) : Option (List (Option Nat × Option Nat)) :=
  (st.tokenMap e).map fun tokens =>
    tokens.map fun tok => ((st.arena tok).storageId, getMemorySize (st.arena tok).ttype)

def Allocation.Reported (st : Allocation δ) (id size : Nat) : Prop :=
  ∃ e info, st.storageInfo e = some info ∧ (some id, some size) ∈ info

-- the third call gets the block of the first one, which is reported with the size of that one
example : (plan chain.toFunc chain.virtualDevice chain.reshapeOnly).map
    (fun st => (st.storageInfo 1, st.storageInfo 3,
      (st.tokenMap 3).map fun tokens => tokens.map fun tok => (st.arena tok).maxBytes)) =
    some (some [(some 1, some 8)], some [(some 1, some 8)], some [100]) := rfl

end StencilGraph.Plan

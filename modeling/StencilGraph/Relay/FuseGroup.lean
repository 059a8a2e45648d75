import StencilGraph.Relay.CastParam

namespace StencilGraph.Relay

variable {h h' : Heap} {ps A : List Nat} {a b c x : Nat}

/-- The call of the function that a group was fused into. Its results are those of `outs`, and the
function consists of new objects. -/
structure Fused (h hf : Heap) (ps A outs : List Nat) (tag : List String) (fc : Nat) : Prop where
  ext : Extends h hf
  new : h.length ≤ fc
  call : ∃ f params body, hf[fc]? = some (.call (.func f) A) ∧
    FuncOk hf f A.length params body tag ∧ ∀ x, InFunc hf f x → h.length ≤ x
  type : typeOf hf fc = match outs with
    | [c] => typeOf h c
    | _ => .tuple ((outs.map fun x => (typeOf h x).width).sum)
  value : ∀ (V : Type) (I : Interp V) (σ : Env V), Binds h ps σ →
    value I hf σ fc = outs.flatMap (value I h σ)

theorem tagNames_ext {names : List String} (he : h <+: h')
    (ht : GroupOp.tagNames h x = some names) : GroupOp.tagNames h' x = some names := by
  unfold GroupOp.tagNames at ht ⊢
  cases hx : h[x]? with
  | none => simp [hx] at ht
  | some n =>
    rw [get_ext he hx]
    rw [hx] at ht
    cases n with
    | call callee args =>
      cases callee with
      | op => exact ht
      | func f =>
        simp only at ht ⊢
        cases hf : h[f]? with
        | none => simp [hf] at ht
        | some m =>
          rw [get_ext he hf]
          rw [hf] at ht
          exact ht
    | _ => simp at ht

theorem tagNames_call {callable : Nat → Nat → Prop} {item : Nat → Prop}
    (ht : Typed h callable item ps x) (hc : IsCall h x)
    (hcallable : ∀ f n, callable f n → Callable h f n) : ∃ names, GroupOp.tagNames h x = some names := by
  obtain ⟨callee, args, hx⟩ := hc
  cases callee with
  | op name outputs => exact ⟨[name], by simp [GroupOp.tagNames, hx]⟩
  | func f =>
    obtain ⟨qs, body, tag, hok⟩ := hcallable f _ ((ht.call hx).1 f rfl)
    exact ⟨tag, by simp [GroupOp.tagNames, hx, hok.node]⟩

/-- Allocating the fused function and its call. -/
theorem fused_of_body {h₂ h₃ : Heap} {params : List Nat} {a' c' body : Nat} {outs : List Nat}
    (hg : Group h ps b A a c) (he₂ : Extends h h₂) (hcast : Cast h h₂ ps A params a c a' c')
    (hb : FusedBody h₂ h₃ params body) (tag : List String)
    (htype : typeOf h₃ body = match outs with
      | [c] => typeOf h c
      | _ => .tuple ((outs.map fun x => (typeOf h x).width).sum))
    (hvalue : ∀ (V : Type) (I : Interp V) (σ : Env V), Binds h ps σ →
      Binds h₂ params (bindParams params (A.map (value I h σ))) →
      value I h₃ (bindParams params (A.map (value I h σ))) body = outs.flatMap (value I h σ)) :
    Fused h (h₃ ++ [.function params body tag] ++ [.call (.func h₃.length) A]) ps A outs tag
      (h₃.length + 1) := by
  have hm := hg.main
  have he₃ := he₂.trans hb.ext
  have hle₂ := he₂.ext.length_le
  have hle₃ := hb.ext.ext.length_le
  have hwf : Wf (h₃ ++ [.function params body tag]) := wf_append hb.ext.wf (by
    intro y hy
    rcases List.mem_append.mp hy with hy | hy
    · obtain ⟨name, hv⟩ := (hcast.pair.vars y hy).ext hb.ext.ext
      exact lt_of_get hv
    · obtain rfl : y = body := by simpa using hy
      exact hb.typed.lt)
  have hAlt {y : Nat} (hy : y ∈ A) : y < h.length := (hm.typed (hg.outside y hy).1).lt
  have hwf' : Wf (h₃ ++ [.function params body tag] ++ [.call (.func h₃.length) A]) :=
    wf_append hwf (by
      intro y hy
      simp only [List.length_append, List.length_singleton]
      rcases List.mem_append.mp hy with hy | hy
      · obtain rfl : y = h₃.length := by simpa [Callee.refs] using hy
        omega
      · have := hAlt hy
        omega)
  have hext : h₃ <+: h₃ ++ [.function params body tag] ++ [.call (.func h₃.length) A] := by
    rw [List.append_assoc]
    exact List.prefix_append _ _
  generalize hhf : h₃ ++ [Node.function params body tag] ++ [Node.call (.func h₃.length) A] = hf
    at hwf' hext
  have hfunc : hf[h₃.length]? = some (.function params body tag) := by simp [← hhf]
  have hcall : hf[h₃.length + 1]? = some (.call (.func h₃.length) A) := by
    rw [← hhf, List.getElem?_append_right (by simp)]
    simp
  have hok : FuncOk hf h₃.length A.length params body tag :=
    ⟨hfunc, hcast.length, hcast.nodup,
      fun p hp => (hcast.pair.vars p hp).ext (hb.ext.ext.trans hext),
      hb.typed.mono hb.ext.wf hext (fun _ _ hno => hno) (fun _ hc => hc.ext hext) (fun _ hp => hp)⟩
  have hef : h <+: hf := he₃.ext.trans hext
  refine ⟨⟨hef, hwf'⟩, by omega, ⟨h₃.length, params, body, hcall, hok, fun x hx => ?_⟩, ?_,
    fun V I σ hσ => ?_⟩
  · rcases hx with rfl | ⟨qs, bd, tag', hnode, hx⟩
    · omega
    · obtain ⟨rfl, rfl, -⟩ : qs = params ∧ bd = body ∧ tag' = tag := by simpa [hnode] using hfunc
      rcases hx with hx | hx
      · exact hcast.new x hx
      · rcases hb.own x (hx.of_ext hb.ext.wf hext hb.typed.lt) with hp | hle
        · exact hcast.new x hp
        · omega
  · rw [typeOf_func hwf' hcall hfunc, typeOf_ext hb.ext.wf hext hb.typed.lt, htype]
  · rw [value_func hwf' (((hσ.ext hef).vars).none_of_call hcall) hcall hfunc,
      List.map_congr_left fun y hy => value_ext hm.wf hef (hAlt hy) σ,
      value_ext hb.ext.wf hext hb.typed.lt]
    refine hvalue V I σ hσ (binds_bindParams hcast.pair.vars hcast.nodup
      (by simpa using hcast.length) fun v hv => ?_)
    obtain ⟨y, hy, rfl⟩ := List.mem_map.mp hv
    obtain ⟨hr, hty, -⟩ := hg.outside y hy
    rw [value_length hm.wf hσ (hm.typed hr) (fun _ _ hf => hf), hty]
    rfl

/-- A run of `GroupOp.fuse` on two calls, producer first, with the tag it writes. -/
structure Fuses (h hf : Heap) (A outs : List Nat) (tag : List String) (a c fc : Nat) : Prop where
  args : A = GroupOp.initArgs h [a, c]
  run : GroupOp.fuse [a, c] outs h = some (fc, hf)
  outs : outs = [c] ∧ Uses h a c ∨ outs = [a, c]
  tag : ∃ na nc, GroupOp.tagNames h a = some na ∧ GroupOp.tagNames h c = some nc ∧
    tag = GroupOp.fuseTag (na ++ nc)

/-- `GroupOp.fuse` on two calls of `main`, producer first. -/
theorem fuse_spec (hg : Group h ps b A a c) (hA : A = GroupOp.initArgs h [a, c]) {outs : List Nat}
    (houts : outs = [c] ∧ Uses h a c ∨ outs = [a, c]) :
    ∃ fc hf na nc, GroupOp.tagNames h a = some na ∧ GroupOp.tagNames h c = some nc ∧
      GroupOp.fuse [a, c] outs h = some (fc, hf) ∧
      Fused h hf ps A outs (GroupOp.fuseTag (na ++ nc)) fc := by
  have hm := hg.main
  obtain ⟨na, hna⟩ := tagNames_call (hm.typed hg.reachA) hg.callA (fun _ _ hf => hf)
  obtain ⟨nc, hnc⟩ := tagNames_call (hm.typed hg.reachC) hg.callC (fun _ _ hf => hf)
  rcases houts with ⟨rfl, hu⟩ | rfl
  · obtain ⟨params, r, a', c', h₂, hcastrun, he₂, hcast, hcase⟩ :=
      castParam_spec hg (Extends.refl hm.wf) (Or.inl ⟨rfl, hu⟩)
    obtain ⟨-, rfl⟩ : c = c ∧ r = c' := by
      rcases hcase with hcase | ⟨hle, -⟩
      · exact hcase
      · have := (hm.typed hg.reachC).lt
        omega
    obtain ⟨body, h₃, hflat, hb, hsame⟩ := flattenExpr_serial hcast.pair he₂.wf
    refine ⟨_, _, na, nc, hna, hnc, ?_, fused_of_body hg he₂ hcast hb _ ?_ ?_⟩
    · have he₃ := (he₂.trans hb.ext).ext
      simp [GroupOp.fuse, ← hA, GroupOp.alloc, hcastrun, hflat, tagNames_ext he₃ hna,
        tagNames_ext he₃ hnc]
    · rw [hsame.type, hcast.typeC]
    · intro V I σ hσ hσ'
      rw [hsame.value V I _ hσ', (hcast.value V I σ hσ).2]
      simp
  · have hw₁ : Wf (h ++ [.tuple [a, c]]) := wf_append hm.wf (by
      intro y hy
      obtain rfl | rfl : y = a ∨ y = c := by simpa [Node.refs] using hy
      · exact (hm.typed hg.reachA).lt
      · exact (hm.typed hg.reachC).lt)
    have he₁ : Extends h (h ++ [.tuple [a, c]]) := ⟨List.prefix_append _ _, hw₁⟩
    obtain ⟨params, r, a', c', h₂, hcastrun, he₂, hcast, hcase⟩ :=
      castParam_spec hg he₁ (Or.inr ⟨le_rfl, by simp⟩)
    have hr : h₂[r]? = some (.tuple [a', c']) := by
      rcases hcase with ⟨heq, -⟩ | ⟨-, hr⟩
      · have := (hm.typed hg.reachC).lt
        omega
      · exact hr
    obtain ⟨body, h₃, hflat, hb, hj⟩ := flattenExpr_tuple hcast.pair he₂.wf hr
    refine ⟨_, _, na, nc, hna, hnc, ?_, fused_of_body hg (he₁.trans he₂) hcast hb _ ?_ ?_⟩
    · have he₃ := ((he₁.trans he₂).trans hb.ext).ext
      simp [GroupOp.fuse, ← hA, GroupOp.alloc, hcastrun, hflat, tagNames_ext he₃ hna,
        tagNames_ext he₃ hnc]
    · rw [hj.type, hcast.typeA, hcast.typeC]
      simp
    · intro V I σ hσ hσ'
      rw [hj.value V I _ hσ', (hcast.value V I σ hσ).1, (hcast.value V I σ hσ).2]
      simp

end StencilGraph.Relay

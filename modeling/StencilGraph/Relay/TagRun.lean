import StencilGraph.Relay.Tags

namespace StencilGraph.Relay
open Framework Relation NodeAutoFusion

variable {h h' hf h₁ : Heap} {ps A outs params : List Nat} {a b c fc f x y ret body : Nat}
  {name : String} {T T' Ta Tc tag : List String}

@[simp] theorem mem_fuseTag {names : List String} : name ∈ GroupOp.fuseTag names ↔ name ∈ names := by
  unfold GroupOp.fuseTag
  rw [List.mem_mergeSort, List.mem_dedup]

theorem Tagged.mono (ht : Tagged h x T) (hT : T ⊆ T') : Tagged h x T' :=
  ⟨fun name c hc => hT (ht.names name c hc), ht.unique⟩

/-- The rewriting that puts parameters for the outside arguments keeps the stencils of the pair. -/
theorem castParam_tagged (hg : Group h ps b A a c) (he : Extends h h₁)
    (hret : ret = c ∧ Uses h a c ∨ h.length ≤ ret ∧ h₁[ret]? = some (.tuple [a, c]))
    (hta : Tagged h a Ta) (htc : Tagged h c Tc) :
    ∃ params r a' c' h', GroupOp.castParam A ret h₁ = some (params, r, h') ∧ Extends h h' ∧
      Pair h' params a' c' ∧ Tagged h' a' Ta ∧ Tagged h' c' Tc ∧
      (ret = c ∧ r = c' ∨ h.length ≤ ret ∧ h'[r]? = some (.tuple [a', c'])) := by
  obtain ⟨params, r, a', c', h₂, s, hrun, hi, hs, ha, hc, hcase⟩ := castParam_run hg he hret
  have hm := hg.main
  have he₂ := hi.ext₁.trans hi.ext₂
  have hkept {x : Nat} (hx : x ∉ A) : ReplaceMap.get (A.zip params) x = none :=
    not_not.mp (mt (replaced_iff (x := x) hi hg.nodup).mp hx)
  have hcopy {x x' : Nat} {T : List String} (hx : Reach h b x) (hcall : IsCall h x) (hxA : x ∉ A)
      (hxx' : s.memo x = some x') (ht : Tagged h x T) : Tagged s.heap x' T :=
    (cast_region hg hi).tagged he₂.wf (by simp) hs (Or.inl hx) (hcall.ext he₂.ext) (hkept hxA) rfl
      hxx' (ht.ext hm.wf he₂.ext (hm.typed hx).lt)
  refine ⟨params, r, a', c', s.heap, hrun, ⟨he₂.ext.trans hs.ext, hs.wf⟩, cast_pair hg hi hs ha hc, ?_, ?_, hcase⟩
  · exact hcopy hg.reachA hg.callA (fun hA => (hg.outside a hA).2.2.1 rfl) ha hta
  · exact hcopy hg.reachC hg.callC (fun hA => (hg.outside c hA).2.2.2.1 rfl) hc htc

/-- The stencils of a call of a new function are those below its body. -/
theorem tagged_call (hw : Wf h) (hcall : h'[x]? = some (.call (.func f) A))
    (hfunc : h'[f]? = some (.function params body tag)) (he : h <+: h')
    (hps : ∀ p ∈ params, IsVar h p) (hbody : body < h.length) (hd : Distinct h [body] T) :
    Tagged h' x T := by
  have hdown {name : String} {d : Nat} (hs : OwnStencil h' x name d) : StencilOf h body name d := by
    cases hs with
    | op hop =>
      obtain ⟨outputs, args, hop⟩ := hop
      cases hcall.symm.trans hop
    | func hcall' hs =>
      cases hcall.symm.trans hcall'
      cases hs.cases hfunc with
      | inl heq =>
        obtain ⟨outputs, args, hop⟩ := hs.op
        rw [heq, hfunc] at hop
        cases hop
      | inr hsub =>
        obtain ⟨y, hy, hs⟩ := hsub
        cases List.mem_append.mp hy with
        | inl hy => exact absurd hs (not_stencilOf_var ((hps y hy).ext he))
        | inr hy =>
          rw [List.mem_singleton.mp hy] at hs
          exact hs.of_ext hw he hbody
  have hmem := List.mem_singleton.mpr (rfl : body = body)
  exact ⟨fun name d hs => hd.names body hmem name d (hdown hs),
    fun name d d' hs hs' => hd.unique body hmem body hmem name d d' (hdown hs) (hdown hs')⟩

/-- Allocating the fused function and its call. -/
theorem tagged_of_body {h₂ h₃ : Heap} {a' c' : Nat} (hp : Pair h₂ params a' c')
    (hb : FusedBody h₂ h₃ params body) (hd : Distinct h₃ [body] T) :
    Tagged (h₃ ++ [.function params body tag] ++ [.call (.func h₃.length) A]) (h₃.length + 1) T := by
  have hext : h₃ <+: h₃ ++ [.function params body tag] ++ [.call (.func h₃.length) A] := by
    rw [List.append_assoc]
    exact List.prefix_append _ _
  generalize hhf : h₃ ++ [Node.function params body tag] ++ [Node.call (.func h₃.length) A] = hf
    at hext
  have hfunc : hf[h₃.length]? = some (.function params body tag) := by simp [← hhf]
  have hcall : hf[h₃.length + 1]? = some (.call (.func h₃.length) A) := by
    rw [← hhf, List.getElem?_append_right (by simp)]
    simp
  exact tagged_call hb.ext.wf hcall hfunc hext (fun p hps => (hp.vars p hps).ext hb.ext.ext)
    hb.typed.lt hd

/-- The stencils of a fused call are those of the two calls. -/
theorem fuse_tagged (hg : Group h ps b A a c) (hF : Fuses h hf A outs tag a c fc)
    (hta : Tagged h a Ta) (htc : Tagged h c Tc)
    (hT : ∀ name ∈ Tc, name ∉ Ta) : Tagged hf fc (Tc ++ Ta) := by
  have hm := hg.main
  have hA := hF.args
  have hrun := hF.run
  obtain ⟨na, nc, hna, hnc, -⟩ := hF.tag
  cases hF.outs with
  | inl hsingle =>
    obtain ⟨rfl, hu⟩ := hsingle
    obtain ⟨params, r, a', c', h₂, hcast, he₂, hp, hta', htc', hcase⟩ :=
      castParam_tagged hg (Extends.refl hm.wf) (Or.inl ⟨rfl, hu⟩) hta htc
    have hr : r = c' := by
      cases hcase with
      | inl hsame => exact hsame.2
      | inr hnew => exact absurd (hm.typed hg.reachC).lt hnew.1.not_gt
    rw [hr] at hcast
    obtain ⟨body, h₃, hflat, hb, -⟩ := flattenExpr_serial hp he₂.wf
    have he₃ := (he₂.trans hb.ext).ext
    have heq : GroupOp.fuse [a, c] [c] h = some (h₃.length + 1,
        h₃ ++ [.function params body (GroupOp.fuseTag (na ++ nc))] ++ [.call (.func h₃.length) A]) := by
      simp [GroupOp.fuse, ← hA, GroupOp.alloc, hcast, hflat, tagNames_ext he₃ hna,
        tagNames_ext he₃ hnc]
    obtain ⟨rfl, rfl⟩ := Prod.mk.inj (Option.some.inj (heq.symm.trans hrun))
    exact tagged_of_body hp hb (flattenExpr_serial_distinct hp he₂.wf hta' htc' hT hflat)
  | inr hboth =>
    subst hboth
    have hw₁ : Wf (h ++ [.tuple [a, c]]) := wf_append hm.wf (by
      intro y hy
      cases List.mem_pair.mp hy with
      | inl heq => exact heq ▸ (hm.typed hg.reachA).lt
      | inr heq => exact heq ▸ (hm.typed hg.reachC).lt)
    have he₁ : Extends h (h ++ [.tuple [a, c]]) := ⟨List.prefix_append _ _, hw₁⟩
    obtain ⟨params, r, a', c', h₂, hcast, he₂, hp, hta', htc', hcase⟩ :=
      castParam_tagged hg he₁ (Or.inr ⟨le_rfl, by simp⟩) hta htc
    have hr : h₂[r]? = some (.tuple [a', c']) := by
      cases hcase with
      | inl hsame =>
        have hlt := (hm.typed hg.reachC).lt
        rw [← hsame.1] at hlt
        exact absurd hlt (lt_irrefl _)
      | inr hnew => exact hnew.2
    obtain ⟨body, h₃, hflat, hb, -⟩ := flattenExpr_tuple hp he₂.wf hr
    have he₃ := (he₂.trans hb.ext).ext
    have heq : GroupOp.fuse [a, c] [a, c] h = some (h₃.length + 1,
        h₃ ++ [.function params body (GroupOp.fuseTag (na ++ nc))] ++ [.call (.func h₃.length) A]) := by
      simp [GroupOp.fuse, ← hA, GroupOp.alloc, hcast, hflat, tagNames_ext he₃ hna,
        tagNames_ext he₃ hnc]
    obtain ⟨rfl, rfl⟩ := Prod.mk.inj (Option.some.inj (heq.symm.trans hrun))
    exact tagged_of_body hp hb (flattenExpr_tuple_distinct hp he₂.wf hta' htc' hT hr hflat)

/-- A copied call keeps its tag. -/
theorem Region.tagNames {replace memo : Nat → Option Nat} {O L : Nat → Prop} {s : Mutation}
    {x' : Nat} (hr : Region replace h memo O L) (hs : Rebuild replace h memo s) (hx : O x)
    (hrep : replace x = none) (hm : memo x = none) (hxx' : s.memo x = some x')
    (ht : GroupOp.tagNames h x = some T) : GroupOp.tagNames s.heap x' = some T := by
  unfold GroupOp.tagNames at ht
  cases hget : h[x]? with
  | none => simp [hget] at ht
  | some n =>
    rw [hget] at ht
    cases n with
    | call callee args =>
      have hreb := hs.rebuilt hxx' hm hget
      simp only [Rebuilt, hrep] at hreb
      obtain ⟨callee', args', hget', hcallee, -⟩ := hreb
      cases callee with
      | op name outputs =>
        obtain rfl : callee' = _ := hcallee
        simp only at ht
        simp only [GroupOp.tagNames, hget']
        exact ht
      | func f =>
        obtain ⟨f', hf, rfl⟩ := hcallee
        obtain ⟨qs, bd, ftag, hok⟩ := hr.callable x f args hx hget
        obtain ⟨-, hmf, -⟩ := hr.inside f ⟨x, f, args, hx, hget, Or.inl rfl⟩
        obtain ⟨qs', bd', hget'', -, -⟩ := hs.rebuilt hf hmf hok.node
        simp only [hok.node] at ht
        simp only [GroupOp.tagNames, hget', hget'']
        exact ht
    | _ => simp at ht

/-- A tag: names in `N`, sorted and without repetitions. -/
structure IsTag (N : String → Prop) (T : List String) : Prop where
  ne : T ≠ []
  nodup : T.Nodup
  sorted : T.Pairwise (· ≤ ·)
  names : ∀ name ∈ T, N name

/-- A call is tagged with the names of its stencils; the tag of a fused call has several. -/
structure NamedCall (h : Heap) (N : String → Prop) (x : Nat) (T : List String) : Prop where
  tag : GroupOp.tagNames h x = some T
  tagged : Tagged h x T
  valid : IsTag N T
  fused : ∀ f args, h[x]? = some (.call (.func f) args) → 1 < T.length

/-- The calls of `main` are named after their stencils, and no name stands in two tags. -/
structure Named (h : Heap) (b : Nat) (N : String → Prop) : Prop where
  tag : ∀ x, TopCall h b x → ∃ T, NamedCall h N x T
  apart : ∀ x y T T' name, TopCall h b x → TopCall h b y → GroupOp.tagNames h x = some T →
    GroupOp.tagNames h y = some T' → name ∈ T → name ∈ T' → x = y

theorem isTag_fuseTag {N : String → Prop} (ha : IsTag N Ta) (hc : IsTag N Tc) :
    IsTag N (GroupOp.fuseTag (Ta ++ Tc)) := by
  obtain ⟨name, hname⟩ := List.exists_mem_of_ne_nil Ta ha.ne
  constructor
  · apply List.ne_nil_of_mem (a := name)
    rw [mem_fuseTag]
    exact List.mem_append_left _ hname
  · exact (List.mergeSort_perm _ _).nodup_iff.mpr (List.nodup_dedup _)
  · have htrans (a b c : String) (hab : decide (a ≤ b) = true) (hbc : decide (b ≤ c) = true) :
        decide (a ≤ c) = true := by
      simpa using String.le_trans (by simpa using hab) (by simpa using hbc)
    have htotal (a b : String) : (decide (a ≤ b) || decide (b ≤ a)) = true := by
      simpa using String.le_total a b
    have hsort := List.pairwise_mergeSort htrans htotal (Ta ++ Tc).dedup
    exact hsort.imp fun hab => by simpa using hab
  · intro name hname
    rw [mem_fuseTag] at hname
    exact (List.mem_append.mp hname).elim (ha.names name) (hc.names name)

/-- A tag fused from disjoint tags has several names. -/
theorem length_fuseTag (ha : Ta ≠ []) (hc : Tc ≠ []) (hT : ∀ name ∈ Tc, name ∉ Ta) :
    1 < (GroupOp.fuseTag (Ta ++ Tc)).length := by
  obtain ⟨na, hna⟩ := List.exists_mem_of_ne_nil Ta ha
  obtain ⟨nc, hnc⟩ := List.exists_mem_of_ne_nil Tc hc
  have hne : na ≠ nc := fun heq => hT nc hnc (heq ▸ hna)
  have hsub : [na, nc] ⊆ GroupOp.fuseTag (Ta ++ Tc) := by
    intro name hname
    rw [mem_fuseTag, List.mem_append]
    cases List.mem_pair.mp hname with
    | inl heq => exact Or.inl (heq ▸ hna)
    | inr heq => exact Or.inr (heq ▸ hnc)
  have hnodup : [na, nc].Nodup := by simpa using hne
  exact (hnodup.subperm hsub).length_le

section Step

variable {h' : Heap} {m : ReplaceMap} {s : Mutation} {b' z x' : Nat} {N : String → Prop}
  (hC : Contracts h hf h' ps A outs tag b a c fc m) (hF : Fuses h hf A outs tag a c fc)
  (hn : Named h b N)

include hC hF hn

/-- The fused call is named after both calls. -/
theorem Contracts.fused_tag : ∃ Ta Tc, GroupOp.tagNames h a = some Ta ∧
    GroupOp.tagNames h c = some Tc ∧ tag = GroupOp.fuseTag (Ta ++ Tc) ∧ NamedCall h' N fc tag := by
  have hg := hC.group
  obtain ⟨Ta, ha⟩ := hn.tag a ⟨hg.callA, hg.reachA⟩
  obtain ⟨Tc, hc⟩ := hn.tag c ⟨hg.callC, hg.reachC⟩
  obtain ⟨Ta', Tc', hna', hnc', htag⟩ := hF.tag
  obtain rfl := Option.some.inj (ha.tag.symm.trans hna')
  obtain rfl := Option.some.inj (hc.tag.symm.trans hnc')
  have hT : ∀ name ∈ Tc, name ∉ Ta := by
    intro name hmemc hmema
    exact hg.ne (hn.apart a c Ta Tc name ⟨hg.callA, hg.reachA⟩ ⟨hg.callC, hg.reachC⟩ ha.tag hc.tag
      hmema hmemc)
  obtain ⟨f, params, body, hfc, hok, -⟩ := hC.fc_call
  have hlt : fc < hf.length := by
    obtain ⟨f, params, body, hcall, -⟩ := hC.fused.call
    exact lt_of_get hcall
  refine ⟨Ta, Tc, ha.tag, hc.tag, htag, ?_, ?_, ?_, ?_⟩
  · simp [GroupOp.tagNames, hfc, hok.node]
  · have hfused := (fuse_tagged hg hF ha.tagged hc.tagged hT).ext hC.fused.ext.wf
      hC.rewired.ext.ext hlt
    apply hfused.mono
    intro name hname
    rw [htag, mem_fuseTag]
    exact List.mem_append.mpr (List.mem_append.mp hname).symm
  · exact htag ▸ isTag_fuseTag ha.valid hc.valid
  · intro _ _ _
    exact htag ▸ length_fuseTag ha.valid.ne hc.valid.ne hT

/-- The tags of the calls that are left, and of the new one. -/
theorem Contracts.kept_tag (hz : (TopCall h b z ∧ z ≠ a ∧ z ≠ c) ∨ z = fc) :
    ∃ T, NamedCall h' N z T := by
  cases hz with
  | inl hkept =>
    obtain ⟨T, ht⟩ := hn.tag z hkept.1
    refine ⟨T, tagNames_ext hC.ext ht.tag,
      ht.tagged.ext hC.group.main.wf hC.ext (hC.lt hkept.1.2), ht.valid, fun f args hget => ?_⟩
    rw [hC.get hkept.1.2] at hget
    exact ht.fused f args hget
  | inr heq =>
    obtain ⟨Ta, Tc, -, -, -, ht⟩ := hC.fused_tag hF hn
    exact ⟨tag, heq ▸ ht⟩

/-- No name stands in the tags of two of these calls. -/
theorem Contracts.kept_apart {z' : Nat} (hz : (TopCall h b z ∧ z ≠ a ∧ z ≠ c) ∨ z = fc)
    (hz' : (TopCall h b z' ∧ z' ≠ a ∧ z' ≠ c) ∨ z' = fc) (ht : GroupOp.tagNames h' z = some T)
    (ht' : GroupOp.tagNames h' z' = some T') (hT : name ∈ T) (hT' : name ∈ T') : z = z' := by
  have hg := hC.group
  obtain ⟨Ta, Tc, hna, hnc, htag, hnamed⟩ := hC.fused_tag hF hn
  have hfc := hnamed.tag
  have hold {z : Nat} {T : List String} (hz : TopCall h b z)
      (ht : GroupOp.tagNames h' z = some T) : GroupOp.tagNames h z = some T := by
    obtain ⟨T₁, hnamed⟩ := hn.tag z hz
    obtain rfl := Option.some.inj ((tagNames_ext hC.ext hnamed.tag).symm.trans ht)
    exact hnamed.tag
  -- a name of the fused call stands in the tag of no other call
  have hnew {z : Nat} {T : List String} (hz : TopCall h b z ∧ z ≠ a ∧ z ≠ c)
      (ht : GroupOp.tagNames h' z = some T) (hT : name ∈ T) : name ∉ tag := by
    intro hmem
    rw [htag, mem_fuseTag] at hmem
    cases List.mem_append.mp hmem with
    | inl hmem =>
      exact hz.2.1 (hn.apart z a T Ta name hz.1 ⟨hg.callA, hg.reachA⟩ (hold hz.1 ht) hna hT hmem)
    | inr hmem =>
      exact hz.2.2 (hn.apart z c T Tc name hz.1 ⟨hg.callC, hg.reachC⟩ (hold hz.1 ht) hnc hT hmem)
  cases hz with
  | inl hz =>
    cases hz' with
    | inl hz' =>
      exact hn.apart z z' T T' name hz.1 hz'.1 (hold hz.1 ht) (hold hz'.1 ht') hT hT'
    | inr heq =>
      rw [heq, hfc] at ht'
      exact absurd (Option.some.inj ht' ▸ hT') (hnew hz ht hT)
  | inr heq =>
    cases hz' with
    | inl hz' =>
      rw [heq, hfc] at ht
      exact absurd (Option.some.inj ht ▸ hT) (hnew hz' ht' hT')
    | inr heq' => exact heq.trans heq'.symm

/-- A step keeps the calls named after their stencils. -/
theorem Contracts.named (hr : Rewritten h' m s b b') : Named s.heap b' N := by
  have hcopy {z x' : Nat} (hz : (TopCall h b z ∧ z ≠ a ∧ z ≠ c) ∨ z = fc)
      (hzx : s.memo z = some x') :
      ∃ T, GroupOp.tagNames h' z = some T ∧ NamedCall s.heap N x' T := by
    obtain ⟨hvis, hrep, -⟩ := hC.kept_visible hz
    obtain ⟨T, ht⟩ := hC.kept_tag hF hn hz
    have hcall : IsCall h' z := by
      cases hz with
      | inl hkept => exact hkept.1.1.ext hC.ext
      | inr heq =>
        obtain ⟨f, params, body, hfc, -⟩ := hC.fc_call
        exact heq ▸ ⟨_, _, hfc⟩
    refine ⟨T, ht.tag, hC.region.tagNames hr.rebuild hvis hrep rfl hzx ht.tag,
      hC.region.tagged hC.rewired.ext.wf (by simp) hr.rebuild hvis hcall hrep rfl hzx ht.tagged,
      ht.valid, fun f' args' hget' => ?_⟩
    obtain ⟨callee, args, hget⟩ := hcall
    have hreb := hr.rebuild.rebuilt hzx rfl hget
    simp only [Rebuilt, hrep] at hreb
    obtain ⟨callee', args'', hget'', hcallee, -⟩ := hreb
    cases callee with
    | op name outputs =>
      obtain rfl : callee' = _ := hcallee
      cases hget'.symm.trans hget''
    | func f => exact ht.fused f args hget
  constructor
  · intro x' hx'
    obtain ⟨z, hzx, hz⟩ := (hC.topCall_iff hr).mp hx'
    obtain ⟨T, -, hT⟩ := hcopy hz hzx
    exact ⟨T, hT⟩
  · intro x y T T' name hx hy hnx hny hT hT'
    obtain ⟨z, hzx, hz⟩ := (hC.topCall_iff hr).mp hx
    obtain ⟨w, hwy, hw⟩ := (hC.topCall_iff hr).mp hy
    obtain ⟨T₁, hz₁, hx₁⟩ := hcopy hz hzx
    obtain ⟨T₂, hw₂, hy₂⟩ := hcopy hw hwy
    obtain rfl := Option.some.inj (hnx.symm.trans hx₁.tag)
    obtain rfl := Option.some.inj (hny.symm.trans hy₂.tag)
    obtain rfl := hC.kept_apart hF hn hz hw hz₁ hw₂ hT hT'
    exact Option.some.inj (hzx.symm.trans hwy)

end Step

/-- The names of the stencils of a program. -/
def StencilName (h : Heap) (b : Nat) (name : String) : Prop := ∃ x, TopCall h b x ∧ OpCall h x name

/-- No two calls of a program apply stencils of one name. -/
def DistinctStencils (h : Heap) (b : Nat) : Prop :=
  ∀ x y name, TopCall h b x → TopCall h b y → OpCall h x name → OpCall h y name → x = y

variable {m m' : Module} {N : String → Prop}

/-- A program before fusion has stencil calls only. -/
theorem Module.Stencil.opCall (hm : m.Stencil ps b) (hx : TopCall m.heap b x) :
    ∃ name, OpCall m.heap x name := by
  obtain ⟨⟨callee, args, hget⟩, hreach⟩ := hx
  cases callee with
  | op name outputs => exact ⟨name, outputs, args, hget⟩
  | func f => exact (((hreach.typed hm.body).call hget).1 f rfl).elim

theorem Module.Stencil.named (hm : m.Stencil ps b) (hd : DistinctStencils m.heap b) :
    Named m.heap b (StencilName m.heap b) := by
  have htag {x : Nat} {name : String} (hx : OpCall m.heap x name) :
      GroupOp.tagNames m.heap x = some [name] := by
    obtain ⟨outputs, args, hget⟩ := hx
    simp [GroupOp.tagNames, hget]
  have hown {x c : Nat} {name name' : String} (hx : OpCall m.heap x name)
      (hc : OwnStencil m.heap x name' c) : name' = name ∧ c = x := by
    cases hc with
    | op hop => exact ⟨hop.name_eq hx, rfl⟩
    | func hget hc =>
      obtain ⟨outputs, args, hget'⟩ := hx
      cases hget.symm.trans hget'
  constructor
  · intro x hx
    obtain ⟨name, hop⟩ := hm.opCall hx
    refine ⟨[name], htag hop, ⟨?_, ?_⟩, ⟨List.cons_ne_nil _ _, List.nodup_singleton _,
      List.pairwise_singleton _ _, ?_⟩, fun f args hget => ?_⟩
    · exact fun name' c hc => List.mem_singleton.mpr (hown hop hc).1
    · exact fun name' c c' hc hc' => (hown hop hc).2.trans (hown hop hc').2.symm
    · intro name' hname
      rw [List.mem_singleton.mp hname]
      exact ⟨x, hx, hop⟩
    · obtain ⟨outputs, args', hget'⟩ := hop
      cases hget.symm.trans hget'
  · intro x y T T' name hx hy hnx hny hT hT'
    obtain ⟨nx, hopx⟩ := hm.opCall hx
    obtain ⟨ny, hopy⟩ := hm.opCall hy
    obtain rfl := Option.some.inj ((htag hopx).symm.trans hnx)
    obtain rfl := Option.some.inj ((htag hopy).symm.trans hny)
    obtain rfl := List.mem_singleton.mp hT
    obtain rfl := List.mem_singleton.mp hT'
    exact hd x y name hx hy hopx hopy

/-- After any number of steps the calls of `main` are named after their stencils. -/
theorem run_named (hm : m.Stencil ps b) (hd : DistinctStencils m.heap b)
    (hrun : ReflTransGen FusionStep m m') :
    ∃ b', m'.Ok ps b' ∧ Named m'.heap b' (StencilName m.heap b) := by
  induction hrun with
  | refl => exact ⟨b, hm.ok, hm.named hd⟩
  | tail _ hstep ih =>
    obtain ⟨b₁, hok, hn⟩ := ih
    obtain ⟨hf, h', A, outs, tag, a, c, fc, callMap, s, b', hC, hr, hF, heap, hok'⟩ :=
      hstep.contracts hok
    exact ⟨b', hok', heap ▸ hC.named hF hn hr⟩

end StencilGraph.Relay

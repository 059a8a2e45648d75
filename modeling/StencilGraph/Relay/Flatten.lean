import StencilGraph.Relay.GroupOp
import StencilGraph.Relay.Origin

namespace StencilGraph.Relay

/-- `r` in the larger heap has the type and the value of `x`. -/
structure Same (h h' : Heap) (ps : List Nat) (x r : Nat) : Prop where
  type : typeOf h' r = typeOf h x
  value : ∀ (V : Type) (I : Interp V) (σ : Env V), Binds h ps σ → value I h' σ r = value I h σ x

/-- The same in a later heap. -/
theorem Same.here {h h' : Heap} {ps : List Nat} {x r : Nat} (hw : Wf h) (he : h <+: h')
    (hv : ∀ p ∈ ps, IsVar h p) (hx : x < h.length) (hs : Same h h' ps x r) : Same h' h' ps x r := by
  refine ⟨hs.type.trans (typeOf_ext hw he hx).symm, fun V I σ hσ => ?_⟩
  rw [hs.value V I σ (hσ.of_ext hv), value_ext hw he hx]

/-- The heap after an operation that only allocates. -/
structure Extends (h h' : Heap) : Prop where
  ext : h <+: h'
  wf : Wf h'

/-- The interpretation with one value. -/
def unitInterp : Interp Unit := ⟨fun _ outputs _ => List.replicate outputs (), by simp⟩

/-- The variables `ps` bound to the one value. -/
def unitEnv (ps : List Nat) : Env Unit := fun x => if x ∈ ps then some [()] else none

variable {h h' h'' : Heap} {ps : List Nat} {x r : Nat}

theorem Extends.trans (h₁ : Extends h h') (h₂ : Extends h' h'') : Extends h h'' :=
  ⟨h₁.ext.trans h₂.ext, h₂.wf⟩

theorem Extends.refl (hw : Wf h) : Extends h h := ⟨List.prefix_refl h, hw⟩

theorem Same.trans {y : Nat} (he : h <+: h') (h₁ : Same h h' ps x r) (h₂ : Same h' h'' ps r y) :
    Same h h'' ps x y :=
  ⟨h₂.type.trans h₁.type, fun V I σ hσ => (h₂.value V I σ (hσ.ext he)).trans (h₁.value V I σ hσ)⟩

theorem same_ext (hw : Wf h) (he : h <+: h') (hx : x < h.length) : Same h h' ps x x :=
  ⟨typeOf_ext hw he hx, fun _ _ σ _ => value_ext hw he hx σ⟩

theorem binds_unitEnv (hv : ∀ p ∈ ps, IsVar h p) : Binds h ps (unitEnv ps) := by
  refine ⟨hv, fun x hx => ?_, fun p hp => ⟨(), if_pos hp⟩⟩
  by_contra hp
  exact hx (if_neg hp)

/-- Running a visit from an empty memo table. -/
theorem visit_run {replace memo : Nat → Option Nat} {G : Nat → Prop} {μ : Nat → Nat} (hw : Wf h)
    (hv : Visitable replace h memo G μ) (hb : ∀ x r, memo x = some r → r < h.length) (hx : G x)
    (fuel : Nat) (hfuel : μ x < fuel) :
    ∃ r s, visit replace fuel x ⟨h, memo⟩ = some (r, s) ∧ Rebuild replace h memo s ∧
      s.memo x = some r := by
  obtain ⟨r, s, hrun, ha, hr⟩ := visit_spec hv fuel x ⟨h, memo⟩ hfuel hx (rebuild_start hw hb)
  exact ⟨r, s, hrun, ha.rebuild, hr⟩

theorem lookup_of_mem {α β : Type} [DecidableEq α] {m : List (α × β)} {k : α} {v : β}
    (hn : (m.map Prod.fst).Nodup) (hm : (k, v) ∈ m) : m.lookup k = some v := by
  induction m with
  | nil => simp at hm
  | cons p m ih =>
    rw [List.map_cons, List.nodup_cons] at hn
    rw [List.lookup_cons]
    rcases List.mem_cons.mp hm with rfl | hm
    · simp
    · have hne : k ≠ p.1 := by
        rintro rfl
        exact hn.1 (List.mem_map.mpr ⟨_, hm, rfl⟩)
      have hb : (k == p.1) = false := by simpa using hne
      simp only [hb]
      exact ih hn.2 hm

theorem ReplaceMap.get_of_mem {m : ReplaceMap} {k v : Nat} (hn : (m.map Prod.fst).Nodup)
    (hm : (k, v) ∈ m) : m.get k = some v := by
  refine lookup_of_mem ?_ (List.mem_reverse.mpr hm)
  rw [List.map_reverse]
  exact List.nodup_reverse.mpr hn

theorem ReplaceMap.mem_of_get {m : ReplaceMap} {k v : Nat} (hg : m.get k = some v) :
    (k, v) ∈ m := by
  obtain ⟨l₁, l₂, hm, -⟩ := List.lookup_eq_some_iff.mp hg
  rw [← List.mem_reverse, hm]
  simp

theorem ReplaceMap.get_ne_none {m : ReplaceMap} {k v : Nat} (hm : (k, v) ∈ m) : m.get k ≠ none := by
  intro hg
  have := List.lookup_eq_none_iff.mp hg (k, v) (List.mem_reverse.mpr hm)
  simp at this

theorem zip_get {ps args : List Nat} (hn : ps.Nodup) (hl : ps.length = args.length) {i p : Nat}
    (hp : ps[i]? = some p) :
    ∃ a, args[i]? = some a ∧ ReplaceMap.get (ps.zip args) p = some a := by
  have hlt := (List.getElem?_eq_some_iff.mp hp).1
  have ha : args[i]? = some args[i] := List.getElem?_eq_getElem (hl ▸ hlt)
  refine ⟨_, ha, ReplaceMap.get_of_mem ?_ ?_⟩
  · rw [List.map_fst_zip (by omega)]
    exact hn
  · exact List.mem_iff_getElem?.mpr ⟨i, by rw [List.getElem?_zip_eq_some]; exact ⟨hp, ha⟩⟩

theorem zip_get_mem {ps args : List Nat} {p a : Nat}
    (hg : ReplaceMap.get (ps.zip args) p = some a) : p ∈ ps ∧ a ∈ args :=
  List.of_mem_zip (ReplaceMap.mem_of_get hg)

/-- The parts of a flat expression can be visited when no call in it is replaced. -/
theorem visitable_flat {replace : Nat → Option Nat} {item : Nat → Prop} (hw : Wf h)
    (ht : Typed h noCall item ps x) (htarget : ∀ z y, Reach h x z → replace z = some y →
      Reach h z y ∧ y < z ∨ IsVar h z ∧ y < h.length) :
    Visitable replace h (fun _ => none) (Reach h x) id := by
  constructor
  · intro z hz _
    obtain ⟨n, hn⟩ := get_of_lt (h := h) (x := z) (hz.typed ht).lt
    refine ⟨n, hn, fun y hy => ?_⟩
    have hdep (hyd : y ∈ n.deps) : Reach h x y ∧ id y < id z :=
      ⟨hz.tail ⟨n, hn, hyd⟩, hw z n hn y (deps_subset_refs hyd)⟩
    have hkey (hrep : replace z = some y) (hnv : ¬ IsVar h z) : Reach h x y ∧ id y < id z := by
      rcases htarget z y hz hrep with ⟨h1, h2⟩ | ⟨h1, -⟩
      · exact ⟨hz.trans h1, h2⟩
      · exact absurd h1 hnv
    cases hz.typed ht with
    | var _ name hget =>
      obtain rfl := Option.some.inj (hget.symm.trans hn)
      simp [visited] at hy
    | op _ name outputs args hget =>
      obtain rfl := Option.some.inj (hget.symm.trans hn)
      cases hrep : replace z with
      | none =>
        simp only [visited, hrep, Callee.refs, List.nil_append] at hy
        exact hdep hy
      | some w =>
        obtain rfl : y = w := by simpa [visited, hrep] using hy
        exact hkey hrep (by rintro ⟨_, hv⟩; simp [hget] at hv)
    | func _ f args hget hf => exact hf.elim
    | tuple _ fields hget =>
      obtain rfl := Option.some.inj (hget.symm.trans hn)
      exact hdep hy
    | item _ t k m hget =>
      obtain rfl := Option.some.inj (hget.symm.trans hn)
      cases hrep : replace z with
      | none =>
        simp only [visited, hrep] at hy
        exact hdep hy
      | some w =>
        obtain rfl : y = w := by simpa [visited, hrep] using hy
        exact hkey hrep (by rintro ⟨_, hv⟩; simp [hget] at hv)
  · intro z y hz hrep
    rcases htarget z y hz hrep with ⟨h1, h2⟩ | ⟨-, h2⟩
    · exact (h1.typed (hz.typed ht)).lt
    · exact h2

/-- `flatten_func` replaces a call by the body of its function. -/
theorem flattenFunc_spec (hw : Wf h) {f b : Nat} {args qs : List Nat} {tag : List String}
    (hx : h[x]? = some (.call (.func f) args)) (hok : FuncOk h f args.length qs b tag)
    (hargs : ∀ a ∈ args, Typed h noCall anyItem ps a) (hty : ∀ a ∈ args, typeOf h a = .tensor) :
    ∃ r h', GroupOp.flattenFunc x h = some (r, h') ∧ Extends h h' ∧
      Typed h' noCall anyItem ps r ∧ Same h h' ps x r := by
  have hkeyvar {z y : Nat} (hrep : ReplaceMap.get (qs.zip args) z = some y) : IsVar h z :=
    hok.vars z (zip_get_mem hrep).1
  have hvis : Visitable (ReplaceMap.get (qs.zip args)) h (fun _ => none) (Reach h b) id :=
    visitable_flat hw hok.body fun z y _ hrep =>
      Or.inr ⟨hkeyvar hrep, (hargs y (zip_get_mem hrep).2).lt⟩
  have hbody := hok.body.lt
  obtain ⟨r, s, hrun, hs, hr⟩ := visit_run hw hvis (by simp) (x := b) Relation.ReflTransGen.refl
    (visitFuel h) (by simp only [id, visitFuel]; omega)
  have himage (V : Type) (I : Interp V) (σ : Env V) (hσ : VarEnv h σ) :
      Image I h s noCall anyItem ps (bindParams qs (args.map (value I h σ))) σ b r := by
    refine transport (O := Reach h b) hs hw hvis
      (fun _ hz => hz) (fun z n y hz _ _ hn hy => hz.tail ⟨n, hn, hy⟩)
      (fun z y _ _ hnv hrep => absurd (hkeyvar hrep) hnv) ?_ b Relation.ReflTransGen.refl hok.body hr
    refine ⟨by simp, ?_, ?_, ?_, fun _ _ _ _ _ _ _ _ _ _ => trivial, ?_, ?_, hσ.ext hs.ext⟩
    · intro z name _ _ hz hq
      obtain ⟨i, hi⟩ := List.mem_iff_getElem?.mp hq
      obtain ⟨a, ha, hget⟩ := zip_get hok.nodup hok.length hi
      have hmem := List.mem_of_getElem? ha
      have hlt := (hargs a hmem).lt
      rw [hget, Option.getD_some]
      refine ⟨?_, ?_, ?_⟩
      · rw [typeOf_ext hw hs.ext hlt, hty a hmem, typeOf_var hz]
      · exact (hargs a hmem).mono hw hs.ext (fun _ _ hno => hno) (fun _ ht => ht) (fun _ hp => hp)
      · rw [value_ext hw hs.ext hlt]
        refine (value_bound (bindParams_get hok.nodup (by simp [hok.length]) hi ?_)).symm
        rw [List.getElem?_map, ha]
        rfl
    · intro z y _ _ hnv hrep
      exact absurd (hkeyvar hrep) hnv
    · intro _ _ _ _ _ _ _ _ hno
      exact hno.elim
    · intro z fields _ hz
      cases hrep : ReplaceMap.get (qs.zip args) z with
      | none => rfl
      | some y =>
        obtain ⟨name, hv⟩ := hkeyvar hrep
        simp [hz] at hv
    · intro z _ _ hrep hnv
      apply bindParams_none
      intro hq
      exact hnv (hok.vars z hq)
  refine ⟨r, s.heap, ?_, ⟨hs.ext, hs.wf⟩, ?_, ?_, ?_⟩
  · simp [GroupOp.flattenFunc, hx, hok.node, replaceParams, Mutation.start, hrun]
  · exact (himage Unit unitInterp (fun _ => none) (fun _ hne => absurd rfl hne)).typed
  · rw [typeOf_func hw hx hok.node]
    exact (himage Unit unitInterp (fun _ => none) (fun _ hne => absurd rfl hne)).type
  · intro V I σ hσ
    rw [value_func hw (hσ.vars.none_of_call hx) hx hok.node]
    exact (himage V I σ hσ.vars).value

/-- A call with flat arguments becomes a flat expression. -/
theorem flattenCall_spec (hw : Wf h) {c : Callee} {args : List Nat}
    (hx : h[x]? = some (.call c args)) (hc : ∀ f, c = .func f → Callable h f args.length)
    (hargs : ∀ a ∈ args, Typed h noCall anyItem ps a) (hty : ∀ a ∈ args, typeOf h a = .tensor) :
    ∃ r h', GroupOp.flattenCall x h = some (r, h') ∧ Extends h h' ∧
      Typed h' noCall anyItem ps r ∧ Same h h' ps x r := by
  cases c with
  | op name outputs =>
    refine ⟨x, h, by simp [GroupOp.flattenCall, GroupOp.callsFunction, hx], Extends.refl hw,
      .op x name outputs args hx hargs hty, same_ext hw (List.prefix_refl h) (lt_of_get hx)⟩
  | func f =>
    obtain ⟨qs, b, tag, hok⟩ := hc f rfl
    obtain ⟨r, h', hrun, hspec⟩ := flattenFunc_spec hw hx hok hargs hty
    exact ⟨r, h', by simp [GroupOp.flattenCall, GroupOp.callsFunction, hx, hrun], hspec⟩

theorem emitTarget_some {y : Nat} (he : emitTarget h x = some y) :
    ∃ t k fields, h[x]? = some (.tupleGetItem t k) ∧ h[t]? = some (.tuple fields) ∧
      fields[k]? = some y := by
  unfold emitTarget at he
  split at he
  · rename_i t k hx
    split at he
    · rename_i fields ht
      exact ⟨t, k, fields, hx, ht, he⟩
    · simp at he
  · simp at he

theorem emitTarget_none {n : Node} (hx : h[x]? = some n) (hn : ∀ t k, n ≠ .tupleGetItem t k) :
    emitTarget h x = none := by
  cases he : emitTarget h x with
  | none => rfl
  | some y =>
    obtain ⟨t, k, fields, hx', -, -⟩ := emitTarget_some he
    exact absurd (Option.some.inj (hx.symm.trans hx')) (hn t k)

theorem flatMap_one_get {V : Type} {l : List Nat} {g : Nat → List V} {k a : Nat}
    (h1 : ∀ a ∈ l, (g a).length = 1) (hk : l[k]? = some a) :
    ((l.flatMap g)[k]?).toList = g a := by
  induction l generalizing k with
  | nil => simp at hk
  | cons b l ih =>
    obtain ⟨v, hv⟩ := List.length_eq_one_iff.mp (h1 b (by simp))
    rw [List.flatMap_cons, hv]
    cases k with
    | zero =>
      obtain rfl : b = a := by simpa using hk
      simp [hv]
    | succ k =>
      simp only [List.singleton_append, List.getElem?_cons_succ]
      exact ih (fun c hc => h1 c (by simp [hc])) (by simpa using hk)

/-- A projection that is left in place is taken from a call. -/
theorem call_of_item {t k n : Nat} (hx : h[x]? = some (.tupleGetItem t k))
    (ht : Typed h noCall anyItem ps t) (hty : typeOf h t = .tuple n) (hk : k < n)
    (he : emitTarget h x = none) : IsCall h t := by
  cases ht with
  | var _ name hget => simp [typeOf_var hget] at hty
  | op _ name outputs args hget => exact ⟨_, _, hget⟩
  | func _ f args hget hf => exact hf.elim
  | tuple _ fields hget =>
    obtain rfl : fields.length = n := by simpa [typeOf_tuple hget] using hty
    simp [emitTarget, hx, hget] at he
    omega
  | item _ t' k' m hget => simp [typeOf_item hget] at hty

/-- `EmitTuple` removes the projections of tuples from a flat expression; the result shares only
variables with it. -/
theorem emitTuple_spec (hw : Wf h) (ht : Typed h noCall anyItem ps x)
    (hvars : ∀ p ∈ ps, IsVar h p) :
    ∃ r h', emitTuple x h = some (r, h') ∧ Extends h h' ∧ Typed h' noCall (IsCall h') ps r ∧
      Same h h' ps x r ∧ ∀ y, Reach h' r y → y ∈ ps ∨ h.length ≤ y := by
  have htarget {z y : Nat} (he : emitTarget h z = some y) : Reach h z y ∧ y < z := by
    obtain ⟨t, k, fields, hz, ht, hk⟩ := emitTarget_some he
    have hmem := List.mem_of_getElem? hk
    have := wf_item hw hz
    have := wf_field hw ht hmem
    exact ⟨reach_dep hz (by simp [Node.deps])
      (reach_dep ht hmem Relation.ReflTransGen.refl), by omega⟩
  have hnovar {z y : Nat} (he : emitTarget h z = some y) : ¬ IsVar h z := by
    obtain ⟨t, k, fields, hz, -, -⟩ := emitTarget_some he
    exact not_isVar hz (by simp)
  have hvis : Visitable (emitTarget h) h (fun _ => none) (Reach h x) id :=
    visitable_flat hw ht fun z y _ he => Or.inl (htarget he)
  obtain ⟨r, s, hrun, hs, hr⟩ := visit_run hw hvis (by simp) (x := x) Relation.ReflTransGen.refl
    (visitFuel h) (by have := ht.lt; simp only [id, visitFuel]; omega)
  -- the conditions on projections that stay
  have hcall {z t k : Nat} (hz : Reach h x z) (hget : h[z]? = some (.tupleGetItem t k))
      (he : emitTarget h z = none) : IsCall h t := by
    cases hz.typed ht with
    | item _ t' k' n hget' _ ha hty hk =>
      obtain ⟨rfl, rfl⟩ : t' = t ∧ k' = k := by simpa [hget'] using hget
      exact call_of_item hget ha hty hk he
    | _ => simp_all
  have hnone {t : Nat} (hc : IsCall h t) : emitTarget h t = none := by
    obtain ⟨c, args, hget⟩ := hc
    exact emitTarget_none hget (by simp)
  have himage (V : Type) (I : Interp V) (σ : Env V) (hσ : Binds h ps σ) :
      Image I h s noCall (IsCall s.heap) ps σ σ x r := by
    refine transport (O := Reach h x) hs hw hvis
      (fun _ hz => hz) (fun z n y hz _ _ hn hy => hz.tail ⟨n, hn, hy⟩)
      (fun z y hz _ _ he => hz.trans (htarget he).1) ?_ x Relation.ReflTransGen.refl ht hr
    refine ⟨by simp, ?_, ?_, fun _ _ _ _ _ _ _ _ hno => hno.elim, ?_, ?_, ?_, hσ.vars.ext hs.ext⟩
    · intro z name _ _ hz hp
      rw [emitTarget_none hz (by simp), Option.getD_none]
      exact ⟨typeOf_ext hw hs.ext (lt_of_get hz), .var z name (get_ext hs.ext hz) hp,
        value_ext hw hs.ext (lt_of_get hz) σ⟩
    · intro z y hz _ _ he
      obtain ⟨t, k, fields, hget, hgt, hk⟩ := emitTarget_some he
      have hmem := List.mem_of_getElem? hk
      have htz : Reach h x t := hz.tail ⟨_, hget, by simp [Node.deps]⟩
      have hyx : Reach h x y := htz.tail ⟨_, hgt, hmem⟩
      have hty := hyx.typed ht
      cases htz.typed ht with
      | tuple _ fields' hgt' hfs hfty =>
        obtain rfl : fields' = fields := by simpa [hgt'] using hgt
        refine ⟨hty, by rw [hfty y hmem, typeOf_item hget], ?_⟩
        rw [value_item hw (hσ.vars.none_of_item hget) hget,
          value_tuple hw (hσ.vars.none_of_tuple hgt) hgt]
        refine (flatMap_one_get (fun a ha => ?_) hk).symm
        rw [value_length hw hσ (hfs a ha) (fun _ _ hno => hno.elim), hfty a ha]
        rfl
      | _ => simp_all
    · intro z t k t' hz _ he hget _ ht'
      have hc := hcall hz hget he
      exact isCall_image hs (hnone hc) rfl hc ht'
    · intro z fields _ hz
      exact emitTarget_none hz (by simp)
    · intro z _ _ _ hnv
      by_contra hne
      exact hnv (hσ.vars z hne)
  obtain ⟨hty, htyped, -⟩ := himage Unit unitInterp (unitEnv ps) (binds_unitEnv hvars)
  refine ⟨r, s.heap, by simp [emitTuple, Mutation.start, hrun], ⟨hs.ext, hs.wf⟩, htyped,
    ⟨hty, fun V I σ hσ => (himage V I σ hσ).value⟩, fun y hy => ?_⟩
  have hclosed : Closed (emitTarget h) h (Reach h x) := by
    refine ⟨fun z n y hz _ hn hy => hz.tail ⟨n, hn, hy⟩, fun z y hz he => ?_⟩
    obtain ⟨t, k, fields, hget, -, -⟩ := emitTarget_some he
    exact ⟨hz.trans (htarget he).1, Or.inr ⟨t, k, hget⟩⟩
  have hfresh : Fresher (emitTarget h) h (fun _ => none) (Reach h x)
      (fun z => Reach h x z ∧ ¬ IsVar h z ∧ emitTarget h z = none) := by
    refine ⟨fun _ _ => rfl, fun _ hz => hz.1, fun _ hz => hz.2.1, ?_, ?_⟩
    · intro z y hz he
      simp [hz.2.2] at he
    · intro z t k hz he hget
      have hc := hcall hz.1 hget he
      obtain ⟨c, args, hgt⟩ := hc
      exact ⟨hz.1.tail ⟨_, hget, by simp [Node.deps]⟩, not_isVar hgt (by simp), hnone ⟨c, args, hgt⟩⟩
  obtain ⟨z, hz, he, hzy⟩ := reach_origin hs hvis (fun _ hz => ⟨hz, rfl⟩) hclosed
    Relation.ReflTransGen.refl hr hy
  by_cases hv : IsVar h z
  · obtain rfl := var_image hs hv he rfl hzy
    obtain ⟨name, hget⟩ := hv
    cases hz.typed ht with
    | var _ _ _ hp => exact Or.inl hp
    | _ => simp_all
  · exact Or.inr (image_new hs hvis hfresh ⟨hz, hv, he⟩ hzy).1

end StencilGraph.Relay

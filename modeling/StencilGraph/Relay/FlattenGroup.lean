import StencilGraph.Relay.Region

namespace StencilGraph.Relay

/-- A group over the variables `ps`: the call `a` takes variables, the call `c` takes variables and
results of `a`. -/
structure Pair (h : Heap) (ps : List Nat) (a c : Nat) : Prop where
  vars : ∀ p ∈ ps, IsVar h p
  ne : a ≠ c
  callA : IsCall h a
  callC : IsCall h c
  typedA : Typed h (Callable h) (IsCall h) ps a
  typedC : Typed h (Callable h) (IsCall h) ps c
  argsA : ∀ y ∈ GroupOp.callArgs h a, y ∈ ps
  argsC : ∀ y ∈ GroupOp.callArgs h c, y ∈ ps ∨ y = a ∨ ∃ k, h[y]? = some (.tupleGetItem a k)

variable {h h' : Heap} {ps : List Nat} {a c x y : Nat}

theorem callArgs_call {callee : Callee} {args : List Nat} (hx : h[x]? = some (.call callee args)) :
    GroupOp.callArgs h x = args := by
  simp [GroupOp.callArgs, hx]

theorem callArgs_ext (he : h <+: h') (hx : x < h.length) :
    GroupOp.callArgs h' x = GroupOp.callArgs h x := by
  simp only [GroupOp.callArgs, get_ext_iff he hx]

theorem Pair.ext (hp : Pair h ps a c) (hw : Wf h) (he : h <+: h') : Pair h' ps a c := by
  have hmono {x : Nat} (ht : Typed h (Callable h) (IsCall h) ps x) :
      Typed h' (Callable h') (IsCall h') ps x :=
    ht.mono hw he (fun _ _ hf => hf.ext hw he) (fun _ hc => hc.ext he) (fun _ hps => hps)
  refine ⟨fun p hps => (hp.vars p hps).ext he, hp.ne, hp.callA.ext he, hp.callC.ext he,
    hmono hp.typedA, hmono hp.typedC, fun y hy => ?_, fun y hy => ?_⟩
  · rw [callArgs_ext he hp.typedA.lt] at hy
    exact hp.argsA y hy
  · rw [callArgs_ext he hp.typedC.lt] at hy
    exact (hp.argsC y hy).imp id (Or.imp id fun ⟨k, hk⟩ => ⟨k, get_ext he hk⟩)

/-- What a well-typed call takes. -/
theorem Typed.call {callable : Nat → Nat → Prop} {item : Nat → Prop} {callee : Callee}
    {args : List Nat} (ht : Typed h callable item ps x) (hx : h[x]? = some (.call callee args)) :
    (∀ f, callee = .func f → callable f args.length) ∧
      ∀ y ∈ args, Typed h callable item ps y ∧ typeOf h y = .tensor := by
  cases ht with
  | op _ name outputs args' hget ha hty =>
    obtain ⟨rfl, rfl⟩ : Callee.op name outputs = callee ∧ args' = args := by simpa [hget] using hx
    exact ⟨by simp, fun y hy => ⟨ha y hy, hty y hy⟩⟩
  | func _ f args' hget hf ha hty =>
    obtain ⟨rfl, rfl⟩ : Callee.func f = callee ∧ args' = args := by simpa [hget] using hx
    refine ⟨fun g hg => ?_, fun y hy => ⟨ha y hy, hty y hy⟩⟩
    obtain rfl := Callee.func.inj hg
    exact hf
  | _ => simp_all

theorem Typed.not_function {callable : Nat → Nat → Prop} {item : Nat → Prop}
    (ht : Typed h callable item ps x) :
    ∃ n, h[x]? = some n ∧ ∀ qs b tag, n ≠ .function qs b tag := by
  cases ht <;> exact ⟨_, ‹_›, by simp⟩

theorem typed_var_flat {item : Nat → Prop} (hv : ∀ p ∈ ps, IsVar h p) (hy : y ∈ ps) :
    Typed h noCall item ps y := by
  obtain ⟨name, hget⟩ := hv y hy
  exact .var y name hget hy

/-- Functions are flat: a call of a function is never below one. -/
theorem inFunc_no_call {f m b g : Nat} {qs args : List Nat} {tag : List String}
    (hok : FuncOk h f m qs b tag) (hx : InFunc h f x) (hr : Reach h x y)
    (hy : h[y]? = some (.call (.func g) args)) : False := by
  have hflat {z : Nat} (hz : Reach h b z) (hzy : Reach h z y) : False := by
    have hby : Reach h b y := hz.trans hzy
    cases hby.typed hok.body with
    | func _ g' args' _ hg => exact hg.elim
    | _ => simp_all
  have hstuck {n : Node} (hn : h[x]? = some n) (hd : n.deps = [])
      (hc : ∀ c args, n ≠ .call c args) : False := by
    rcases hr.cases_head with rfl | ⟨z, ⟨n', hn', hz⟩, -⟩
    · exact hc _ _ (Option.some.inj (hn.symm.trans hy))
    · obtain rfl := Option.some.inj (hn.symm.trans hn')
      simp [hd] at hz
  rcases hx with rfl | ⟨qs', b', tag', hnode, hx⟩
  · exact hstuck hok.node rfl (by simp)
  · obtain ⟨rfl, rfl, rfl⟩ : qs' = qs ∧ b' = b ∧ tag' = tag := by
      simpa [hnode] using hok.node
    rcases hx with hq | hb
    · obtain ⟨name, hv⟩ := hok.vars x hq
      exact hstuck hv rfl (by simp)
    · exact hflat hb hr

section Inline

variable {replace memo : Nat → Option Nat} {na f : Nat} {argsA : List Nat}

/-- A visit that puts the flat expression `na` in the place of the call `a`. -/
structure Inlines (replace memo : Nat → Option Nat) (a na : Nat) : Prop where
  other : ∀ x, x ≠ a → replace x = none ∧ memo x = none
  self : (replace a = some na ∧ memo a = none) ∨ (replace a = none ∧ memo a = some na)

theorem Inlines.key (hi : Inlines replace memo a na) (hrep : replace x = some y) :
    x = a ∧ y = na ∧ memo a = none := by
  by_cases hx : x = a
  · subst hx
    rcases hi.self with ⟨h1, h2⟩ | ⟨h1, -⟩
    · exact ⟨rfl, Option.some.inj (hrep.symm.trans h1), h2⟩
    · simp [h1] at hrep
  · simp [(hi.other x hx).1] at hrep

theorem Inlines.seed (hi : Inlines replace memo a na) (hm : memo x = some y) : x = a ∧ y = na := by
  by_cases hx : x = a
  · subst hx
    rcases hi.self with ⟨-, h2⟩ | ⟨-, h2⟩
    · simp [h2] at hm
    · exact ⟨rfl, Option.some.inj (hm.symm.trans h2)⟩
  · simp [(hi.other x hx).2] at hm

theorem inline_region (hp : Pair h ps a c) (ha : h[a]? = some (.call (.func f) argsA))
    (hflat : Typed h noCall anyItem ps na) (hi : Inlines replace memo a na) :
    Region replace h memo (fun x => Reach h c x ∨ Reach h na x) (fun x => Reach h x a) := by
  have hna {z : Nat} (hz : Reach h na z) {g : Nat} {args : List Nat}
      (hg : h[z]? = some (.call (.func g) args)) : False := by
    cases hz.typed hflat with
    | func _ g' args' _ hno => exact hno.elim
    | _ => simp_all
  have hcallable {z g : Nat} {args : List Nat} (hz : Reach h c z ∨ Reach h na z)
      (hg : h[z]? = some (.call (.func g) args)) : Callable h g args.length := by
    rcases hz with hz | hz
    · exact ((hz.typed hp.typedC).call hg).1 g rfl
    · exact (hna hz hg).elim
  refine ⟨?_, ?_, ?_, ?_, ?_, fun z g args => hcallable, ?_⟩
  · rintro x (hx | hx)
    · exact (hx.typed hp.typedC).not_function
    · exact (hx.typed hflat).not_function
  · intro x n y hx _ _ hn hy
    exact ⟨hx.imp (fun hx => hx.tail ⟨n, hn, hy⟩) (fun hx => hx.tail ⟨n, hn, hy⟩),
      fun hl => reach_dep hn hy hl⟩
  · intro x y _ _ _ hrep
    obtain ⟨rfl, rfl, -⟩ := hi.key hrep
    exact ⟨Or.inr Relation.ReflTransGen.refl, Relation.ReflTransGen.refl, fun hr => hna hr ha⟩
  · intro x fields _ hx
    refine (hi.other x ?_).1
    rintro rfl
    simp [ha] at hx
  · intro x y hrep
    obtain ⟨-, rfl, -⟩ := hi.key hrep
    exact hflat.lt
  · rintro x ⟨z, g, args, hz, hg, hin⟩
    obtain ⟨qs, b, tag, hok⟩ := hcallable hz hg
    have hno (hr : Reach h x a) : False := inFunc_no_call hok hin hr ha
    have hxa : x ≠ a := by
      rintro rfl
      exact hno Relation.ReflTransGen.refl
    exact ⟨(hi.other x hxa).1, (hi.other x hxa).2, hno⟩

/-- The consumer after its producer was put in place: a call with flat arguments. -/
theorem inline_spec (hw : Wf h) (hp : Pair h ps a c) (ha : h[a]? = some (.call (.func f) argsA))
    (hflat : Typed h noCall anyItem ps na) (hsame : Same h h ps a na)
    (hi : Inlines replace memo a na) :
    ∃ r s, visit replace (visitFuel h) c ⟨h, memo⟩ = some (r, s) ∧ Extends h s.heap ∧
      Same h s.heap ps c r ∧ ∃ callee args, s.heap[r]? = some (.call callee args) ∧
        (∀ f, callee = .func f → Callable s.heap f args.length) ∧
        (∀ y ∈ args, Typed s.heap noCall anyItem ps y) ∧ ∀ y ∈ args, typeOf s.heap y = .tensor := by
  have hreg := inline_region hp ha hflat hi
  obtain ⟨r, s, hrun, hs, hr⟩ := hreg.run hw
    (fun x r hm => by obtain ⟨-, rfl⟩ := hi.seed hm; exact hflat.lt)
    (x := c) (Or.inl Relation.ReflTransGen.refl)
  have hext := hs.ext
  have hnaimage {V : Type} {I : Interp V} {σ : Env V} (hσ : Binds h ps σ)
      {callable' : Nat → Nat → Prop} : Image I h s callable' anyItem ps σ σ a na :=
    ⟨(typeOf_ext hw hext hflat.lt).trans hsame.type,
      hflat.mono hw hext (fun _ _ hno => hno.elim) (fun _ ht => ht) (fun _ hps => hps),
      (value_ext hw hext hflat.lt σ).trans (hsame.value V I σ hσ)⟩
  have hvarimage {V : Type} {I : Interp V} {σ : Env V} {callable' : Nat → Nat → Prop} {x : Nat}
      {name : String} (hx : h[x]? = some (.var name)) (hps : x ∈ ps) :
      Image I h s callable' anyItem ps σ σ x ((replace x).getD x) := by
    have hxa : x ≠ a := by
      rintro rfl
      simp [ha] at hx
    rw [(hi.other x hxa).1, Option.getD_none]
    exact ⟨typeOf_ext hw hext (lt_of_get hx), .var x name (get_ext hext hx) hps,
      value_ext hw hext (lt_of_get hx) σ⟩
  have hany {x : Nat} (ht : Typed h (Callable h) (IsCall h) ps x) :
      Typed h (Callable h) anyItem ps x :=
    ht.mono hw (List.prefix_refl h) (fun _ _ hf => hf) (fun _ _ => trivial) (fun _ hps => hps)
  have hkey {V : Type} {I : Interp V} {σ : Env V} (hσ : Binds h ps σ) {x y : Nat}
      (hrep : replace x = some y) : Typed h (Callable h) anyItem ps y ∧ typeOf h y = typeOf h x ∧
        value I h σ y = value I h σ x := by
    obtain ⟨rfl, rfl, -⟩ := hi.key hrep
    exact ⟨hflat.mono hw (List.prefix_refl h) (fun _ _ hno => hno.elim) (fun _ ht => ht)
      (fun _ hps => hps), hsame.type, hsame.value V I σ hσ⟩
  have himage (V : Type) (I : Interp V) (σ : Env V) (hσ : Binds h ps σ) :
      Image I h s (Callable s.heap) anyItem ps σ σ c r := by
    refine hreg.image hw hs (fun _ hx => hx)
      (fun x n y hx hm hrep hn hy => (hreg.dep x n y hx hm hrep hn hy).1)
      (fun x y hx hm hnv hrep => ⟨(hreg.key x y hx hm hnv hrep).1, hkey hσ hrep⟩) ?_
      (fun x name _ _ hx hps => hvarimage hx hps) (fun _ _ _ _ _ _ _ _ _ _ => trivial) hσ.vars
      (hσ.vars.ext hext) (Or.inl Relation.ReflTransGen.refl) (hany hp.typedC) hr
    intro x q _ hm
    obtain ⟨rfl, rfl⟩ := hi.seed hm
    exact hnaimage hσ
  -- the arguments of the consumer: variables, the producer and its projections
  have hargs {y y' : Nat} (hy : y ∈ GroupOp.callArgs h c) (hyt : Typed h (Callable h) anyItem ps y)
      (hy' : s.memo y = some y') : Image unitInterp h s noCall anyItem ps (unitEnv ps) (unitEnv ps)
        y y' := by
    have hσ := binds_unitEnv hp.vars
    refine transport
      (O := fun y => Reach h c y ∧ (y ∈ ps ∨ y = a ∨ ∃ k, h[y]? = some (.tupleGetItem a k)) ∨
        Reach h na y) hs hw (hreg.visitable hw) ?_ ?_ ?_
      ⟨?_, fun x name _ _ hx hps => hvarimage hx hps, fun x y _ _ _ hrep => hkey hσ hrep, ?_,
        fun _ _ _ _ _ _ _ _ _ _ => trivial, ?_, ?_, hσ.vars.ext hext⟩ y ?_ hyt hy'
    · rintro x (⟨hx, -⟩ | hx)
      · exact Or.inl (Or.inl hx)
      · exact Or.inl (Or.inr hx)
    · rintro x n z (⟨hx, hcase⟩ | hx) hm hrep hn hz
      · have hxz : Reach h c z := hx.tail ⟨n, hn, hz⟩
        rcases hcase with hps | rfl | ⟨k, hk⟩
        · obtain ⟨name, hv⟩ := hp.vars x hps
          obtain rfl := Option.some.inj (hv.symm.trans hn)
          simp [Node.deps] at hz
        · rcases hi.self with ⟨h1, -⟩ | ⟨-, h1⟩
          · simp [h1] at hrep
          · simp [h1] at hm
        · obtain rfl := Option.some.inj (hk.symm.trans hn)
          obtain rfl : z = a := by simpa [Node.deps] using hz
          exact Or.inl ⟨hxz, Or.inr (Or.inl rfl)⟩
      · exact Or.inr (hx.tail ⟨n, hn, hz⟩)
    · intro x z _ _ _ hrep
      obtain ⟨-, rfl, -⟩ := hi.key hrep
      exact Or.inr Relation.ReflTransGen.refl
    · intro x q _ hm
      obtain ⟨rfl, rfl⟩ := hi.seed hm
      exact hnaimage hσ
    · rintro x g args g' (⟨hx, hcase⟩ | hx) hm hrep hg - -
      · rcases hcase with hps | rfl | ⟨k, hk⟩
        · obtain ⟨name, hv⟩ := hp.vars x hps
          simp [hg] at hv
        · rcases hi.self with ⟨h1, -⟩ | ⟨-, h1⟩
          · simp [h1] at hrep
          · simp [h1] at hm
        · simp [hg] at hk
      · cases hx.typed hflat with
        | func _ g' args' _ hno => exact hno.elim
        | _ => simp_all
    · intro x fields _ hx
      refine (hi.other x ?_).1
      rintro rfl
      simp [ha] at hx
    · intro x _ _ _ hnv
      by_contra hne
      exact hnv (hσ.vars x hne)
    · obtain ⟨callee, args, hc⟩ := hp.callC
      rw [callArgs_call hc] at hy
      refine Or.inl ⟨Relation.ReflTransGen.single ⟨_, hc, hy⟩, hp.argsC y ?_⟩
      rw [callArgs_call hc]
      exact hy
  have hunit := himage Unit unitInterp (unitEnv ps) (binds_unitEnv hp.vars)
  refine ⟨r, s, hrun, ⟨hext, hs.wf⟩, ⟨hunit.type, fun V I σ hσ => (himage V I σ hσ).value⟩, ?_⟩
  obtain ⟨callee, args, hc⟩ := hp.callC
  obtain ⟨hrepc, hmc⟩ := hi.other c hp.ne.symm
  have hreb := hs.rebuilt hr hmc hc
  simp only [Rebuilt, hrepc] at hreb
  obtain ⟨callee', args', hget, hcallee, hargs'⟩ := hreb
  obtain ⟨-, hcargs⟩ := (hany hp.typedC).call hc
  obtain ⟨hcallable, -⟩ := hunit.typed.call hget
  have hone {y' : Nat} (hy' : y' ∈ args') :
      Typed s.heap noCall anyItem ps y' ∧ typeOf s.heap y' = .tensor := by
    obtain ⟨y, hy, hm⟩ := forall₂_mem hargs' hy'
    have him := hargs (by rw [callArgs_call hc]; exact hy) (hcargs y hy).1 hm
    exact ⟨him.typed, him.type.trans (hcargs y hy).2⟩
  exact ⟨callee', args', hget, hcallable, fun y hy => (hone hy).1, fun y hy => (hone hy).2⟩

end Inline

theorem makeItems_spec (hw : Wf h) (hx : x < h.length) (n index : Nat) :
    Extends h (GroupOp.makeItems x n index h).2 ∧
      List.Forall₂ (fun i y => (GroupOp.makeItems x n index h).2[y]? = some (.tupleGetItem x i))
        (List.range' index n) (GroupOp.makeItems x n index h).1 := by
  induction n generalizing index h with
  | zero => exact ⟨Extends.refl hw, .nil⟩
  | succ n ih =>
    have hw' : Wf (h ++ [.tupleGetItem x index]) :=
      wf_append hw (by simpa [Node.refs] using hx)
    obtain ⟨he, hitems⟩ := ih hw' (by simp; omega) (index + 1)
    refine ⟨⟨(List.prefix_append _ _).trans he.ext, he.wf⟩, ?_⟩
    rw [List.range'_succ]
    exact .cons (get_ext he.ext (by simp)) hitems

theorem flatMap_range_get {V : Type} (v : List V) (n index : Nat) :
    (List.range' index n).flatMap (fun i => (v[i]?).toList) = (v.drop index).take n := by
  induction n generalizing index with
  | zero => simp
  | succ n ih =>
    rw [List.range'_succ, List.flatMap_cons, ih]
    cases hv : v[index]? with
    | none =>
      have hle := List.getElem?_eq_none_iff.mp hv
      rw [List.drop_eq_nil_of_le hle, List.drop_eq_nil_of_le (by omega)]
      simp
    | some w =>
      obtain ⟨hlt, rfl⟩ := List.getElem?_eq_some_iff.mp hv
      rw [List.drop_eq_getElem_cons hlt, List.take_succ_cons]
      rfl

/-- The tensors of a flat expression. -/
theorem tensors_spec (hw : Wf h) (ht : Typed h noCall anyItem ps x) :
    Extends h (GroupOp.tensors x h).2 ∧
      (GroupOp.tensors x h).1.length = (typeOf h x).width ∧
      (∀ y ∈ (GroupOp.tensors x h).1, Typed (GroupOp.tensors x h).2 noCall anyItem ps y ∧
        typeOf (GroupOp.tensors x h).2 y = .tensor) ∧
      ∀ (V : Type) (I : Interp V) (σ : Env V), Binds h ps σ →
        (GroupOp.tensors x h).1.flatMap (value I (GroupOp.tensors x h).2 σ) = value I h σ x := by
  unfold GroupOp.tensors
  cases hty : typeOf h x with
  | tensor => exact ⟨Extends.refl hw, rfl, by simp [ht, hty], by simp⟩
  | tuple n =>
    obtain ⟨he, hitems⟩ := makeItems_spec hw ht.lt n 0
    simp only
    generalize GroupOp.makeItems x n 0 h = items at he hitems
    obtain ⟨ys, h'⟩ := items
    have ht' : Typed h' noCall anyItem ps x :=
      ht.mono hw he.ext (fun _ _ hno => hno) (fun _ hi => hi) (fun _ hps => hps)
    have hty' : typeOf h' x = .tuple n := (typeOf_ext hw he.ext ht.lt).trans hty
    refine ⟨he, by simpa [Ty.width] using hitems.length_eq.symm, fun y hy => ?_, fun V I σ hσ => ?_⟩
    · obtain ⟨i, hi, hget⟩ := forall₂_mem hitems hy
      have hin : i < n := by simpa using hi
      exact ⟨.item y x i n hget trivial ht' hty' hin, typeOf_item hget⟩
    · have hσ' := hσ.ext he.ext
      have hlen : (value I h σ x).length = n := by
        rw [value_length hw hσ ht (fun _ _ hno => hno.elim), hty]
        rfl
      have hvals : ys.flatMap (value I h' σ) =
          (List.range' 0 n).flatMap (fun i => ((value I h σ x)[i]?).toList) := by
        refine forall₂_flatMap hitems fun i _ y hget => ?_
        rw [value_item he.wf (hσ'.vars.none_of_item hget) hget, value_ext hw he.ext ht.lt]
      rw [hvals, flatMap_range_get, List.drop_zero, List.take_of_length_le (by omega)]

/-- `r` in the larger heap holds the results of `a` followed by those of `c`. -/
structure Joint (h h' : Heap) (ps : List Nat) (a c r : Nat) : Prop where
  type : typeOf h' r = .tuple ((typeOf h a).width + (typeOf h c).width)
  value : ∀ (V : Type) (I : Interp V) (σ : Env V), Binds h ps σ →
    value I h' σ r = value I h σ a ++ value I h σ c

theorem tensorTuple_spec (hw : Wf h) (ha : Typed h noCall anyItem ps a)
    (hc : Typed h noCall anyItem ps c) :
    Extends h (GroupOp.tensorTuple a c h).2 ∧
      Typed (GroupOp.tensorTuple a c h).2 noCall anyItem ps (GroupOp.tensorTuple a c h).1 ∧
      Joint h (GroupOp.tensorTuple a c h).2 ps a c (GroupOp.tensorTuple a c h).1 := by
  unfold GroupOp.tensorTuple
  obtain ⟨he₁, hlen₁, hty₁, hval₁⟩ := tensors_spec hw ha
  generalize GroupOp.tensors a h = xs at he₁ hlen₁ hty₁ hval₁
  obtain ⟨xs, h₁⟩ := xs
  obtain ⟨he₂, hlen₂, hty₂, hval₂⟩ := tensors_spec he₁.wf
    (hc.mono hw he₁.ext (fun _ _ hno => hno) (fun _ hi => hi) (fun _ hps => hps))
  simp only
  generalize GroupOp.tensors c h₁ = ys at he₂ hlen₂ hty₂ hval₂
  obtain ⟨ys, h₂⟩ := ys
  simp only at *
  have hfields (y : Nat) (hy : y ∈ xs ++ ys) :
      Typed h₂ noCall anyItem ps y ∧ typeOf h₂ y = .tensor := by
    rcases List.mem_append.mp hy with hy | hy
    · obtain ⟨h1, h2⟩ := hty₁ y hy
      exact ⟨h1.mono he₁.wf he₂.ext (fun _ _ hno => hno) (fun _ hi => hi) (fun _ hps => hps),
        (typeOf_ext he₁.wf he₂.ext h1.lt).trans h2⟩
    · exact hty₂ y hy
  have hw' : Wf (h₂ ++ [.tuple (xs ++ ys)]) :=
    wf_append he₂.wf fun y hy => (hfields y hy).1.lt
  have hext : h₂ <+: h₂ ++ [.tuple (xs ++ ys)] := List.prefix_append _ _
  have hget : (h₂ ++ [.tuple (xs ++ ys)])[h₂.length]? = some (.tuple (xs ++ ys)) := by simp
  refine ⟨⟨(he₁.ext.trans he₂.ext).trans hext, hw'⟩, ?_, ?_, fun V I σ hσ => ?_⟩
  · refine .tuple _ _ hget (fun y hy => ?_) (fun y hy => ?_)
    · exact (hfields y hy).1.mono he₂.wf hext (fun _ _ hno => hno) (fun _ hi => hi)
        (fun _ hps => hps)
    · exact (typeOf_ext he₂.wf hext (hfields y hy).1.lt).trans (hfields y hy).2
  · simp only [GroupOp.alloc]
    rw [typeOf_tuple hget, List.length_append, hlen₁, hlen₂, typeOf_ext hw he₁.ext hc.lt]
  · have hσ₁ := hσ.ext he₁.ext
    have hσ₂ := (hσ₁.ext he₂.ext).ext hext
    simp only [GroupOp.alloc]
    rw [value_tuple hw' (hσ₂.vars.none_of_tuple hget) hget,
      List.flatMap_congr fun y hy => value_ext he₂.wf hext (hfields y hy).1.lt σ,
      List.flatMap_append, hval₂ V I σ hσ₁, value_ext hw he₁.ext hc.lt, ← hval₁ V I σ hσ,
      List.flatMap_congr fun y hy => value_ext he₁.wf he₂.ext (hty₁ y hy).1.lt σ]

theorem Joint.of_same {h₁ h₂ : Heap} {na nc r : Nat} (he : h <+: h₁) (ha : Same h h₁ ps a na)
    (hc : Same h h₁ ps c nc) (hj : Joint h₁ h₂ ps na nc r) : Joint h h₂ ps a c r := by
  refine ⟨by rw [hj.type, ha.type, hc.type], fun V I σ hσ => ?_⟩
  rw [hj.value V I σ (hσ.ext he), ha.value V I σ hσ, hc.value V I σ hσ]

/-- The producer of a group becomes flat. -/
theorem Pair.flatten (hp : Pair h ps a c) (hw : Wf h) :
    ∃ na h', GroupOp.flattenCall a h = some (na, h') ∧ Extends h h' ∧
      Typed h' noCall anyItem ps na ∧ Same h h' ps a na := by
  obtain ⟨callee, args, ha⟩ := hp.callA
  obtain ⟨hcallee, hargs⟩ := hp.typedA.call ha
  refine flattenCall_spec hw ha hcallee (fun y hy => ?_) (fun y hy => (hargs y hy).2)
  exact typed_var_flat hp.vars (hp.argsA y (by rw [callArgs_call ha]; exact hy))

theorem Extends.typed {item : Nat → Prop} (he : Extends h h') (hw : Wf h)
    (ht : Typed h noCall item ps x) : Typed h' noCall item ps x :=
  ht.mono hw he.ext (fun _ _ hno => hno) (fun _ hi => hi) (fun _ hps => hps)

/-- The tuple of the tensors of two flattened expressions. -/
theorem tensorTuple_same {h₁ h₂ : Heap} {na nc : Nat} (hp : Pair h ps a c) (hw : Wf h)
    (he₁ : Extends h h₁) (hna : Typed h₁ noCall anyItem ps na) (ha : Same h h₁ ps a na)
    (he₂ : Extends h₁ h₂) (hnc : Typed h₂ noCall anyItem ps nc) (hc : Same h₁ h₂ ps c nc) :
    Extends h (GroupOp.tensorTuple na nc h₂).2 ∧
      Typed (GroupOp.tensorTuple na nc h₂).2 noCall anyItem ps (GroupOp.tensorTuple na nc h₂).1 ∧
      Joint h (GroupOp.tensorTuple na nc h₂).2 ps a c (GroupOp.tensorTuple na nc h₂).1 := by
  obtain ⟨he, ht, hj⟩ := tensorTuple_spec he₂.wf (he₂.typed he₁.wf hna) hnc
  refine ⟨(he₁.trans he₂).trans he, ht, hj.of_same (he₁.trans he₂).ext ?_ ?_⟩
  · exact ha.trans he₁.ext (same_ext he₁.wf he₂.ext hna.lt)
  · exact (same_ext hw he₁.ext hp.typedC.lt).trans he₁.ext hc

/-- Independent calls are flattened one after the other. -/
theorem parallelFlatten_spec (hp : Pair h ps a c) (hw : Wf h)
    (hind : ∀ y ∈ GroupOp.callArgs h c, y ∈ ps) :
    ∃ r h', GroupOp.parallelFlatten a c h = some (r, h') ∧ Extends h h' ∧
      Typed h' noCall anyItem ps r ∧ Joint h h' ps a c r := by
  obtain ⟨na, h₁, hrun₁, he₁, hna, hsame₁⟩ := hp.flatten hw
  have hp₁ := hp.ext hw he₁.ext
  obtain ⟨callee, args, hc⟩ := hp₁.callC
  obtain ⟨hcallee, hargs⟩ := hp₁.typedC.call hc
  obtain ⟨nc, h₂, hrun₂, he₂, hnc, hsame₂⟩ := flattenCall_spec he₁.wf hc hcallee
    (fun y hy => typed_var_flat hp₁.vars (hind y (by
      rw [← callArgs_ext he₁.ext hp.typedC.lt, callArgs_call hc]
      exact hy)))
    (fun y hy => (hargs y hy).2)
  refine ⟨_, _, ?_, tensorTuple_same hp hw he₁ hna hsame₁ he₂ hnc hsame₂⟩
  simp [GroupOp.parallelFlatten, hrun₁, hrun₂]

/-- The arguments of the consumer are flat when the producer applies a stencil operator. -/
theorem Pair.args_flat (hp : Pair h ps a c) {name : String} {outputs : Nat} {argsA : List Nat}
    (ha : h[a]? = some (.call (.op name outputs) argsA)) :
    ∀ y ∈ GroupOp.callArgs h c, Typed h noCall anyItem ps y := by
  obtain ⟨-, hargs⟩ := hp.typedA.call ha
  have hflat : Typed h noCall anyItem ps a := .op a name outputs argsA ha
    (fun y hy => typed_var_flat hp.vars (hp.argsA y (by rw [callArgs_call ha]; exact hy)))
    (fun y hy => (hargs y hy).2)
  intro y hy
  obtain ⟨callee, args, hc⟩ := hp.callC
  have hyt := ((hp.typedC.call hc).2 y (by rw [callArgs_call hc] at hy; exact hy)).1
  rcases hp.argsC y hy with hps | rfl | ⟨k, hk⟩
  · exact typed_var_flat hp.vars hps
  · exact hflat
  · cases hyt with
    | item _ t k' n hget hi ht hty hlt =>
      obtain ⟨rfl, rfl⟩ : t = a ∧ k' = k := by simpa [hget] using hk
      exact .item y t k' n hget trivial hflat hty hlt
    | _ => simp_all

/-- Flattening the consumer after a call with flat arguments took its place. -/
theorem flatten_inlined {s : Mutation} {c' : Nat} (he : Extends h s.heap)
    (hsame : Same h s.heap ps c c')
    (hcall : ∃ callee args, s.heap[c']? = some (.call callee args) ∧
      (∀ f, callee = .func f → Callable s.heap f args.length) ∧
      (∀ y ∈ args, Typed s.heap noCall anyItem ps y) ∧ ∀ y ∈ args, typeOf s.heap y = .tensor) :
    ∃ nc h', GroupOp.flattenCall c' s.heap = some (nc, h') ∧ Extends s.heap h' ∧
      Typed h' noCall anyItem ps nc ∧ Same h h' ps c nc := by
  obtain ⟨callee, args, hget, hcallee, hargs, hty⟩ := hcall
  obtain ⟨nc, h', hrun, he', hnc, hsame'⟩ := flattenCall_spec he.wf hget hcallee hargs hty
  exact ⟨nc, h', hrun, he', hnc, hsame.trans he.ext hsame'⟩

theorem Pair.flatten_op (hp : Pair h ps a c) (hw : Wf h) {name : String} {outputs : Nat}
    {argsA : List Nat} (ha : h[a]? = some (.call (.op name outputs) argsA)) :
    ∃ nc h', GroupOp.flattenCall c h = some (nc, h') ∧ Extends h h' ∧
      Typed h' noCall anyItem ps nc ∧ Same h h' ps c nc := by
  obtain ⟨callee, args, hc⟩ := hp.callC
  obtain ⟨hcallee, hargs⟩ := hp.typedC.call hc
  exact flattenCall_spec hw hc hcallee
    (fun y hy => hp.args_flat ha y (by rw [callArgs_call hc]; exact hy))
    (fun y hy => (hargs y hy).2)

theorem flattenCall_func {f : Nat} {argsA : List Nat}
    (ha : h[a]? = some (.call (.func f) argsA)) :
    GroupOp.flattenCall a h = GroupOp.flattenFunc a h := by
  simp [GroupOp.flattenCall, GroupOp.callsFunction, ha]

/-- A producer that is also returned is flattened once, and its flat form is used in the consumer. -/
theorem specialSerialFlatten_spec (hp : Pair h ps a c) (hw : Wf h) :
    ∃ r h', GroupOp.specialSerialFlatten a c h = some (r, h') ∧ Extends h h' ∧
      Typed h' noCall anyItem ps r ∧ Joint h h' ps a c r := by
  obtain ⟨na, h₁, hrun₁, he₁, hna, hsame₁⟩ := hp.flatten hw
  obtain ⟨callee, argsA, ha⟩ := hp.callA
  cases callee with
  | op name outputs =>
    obtain ⟨rfl, rfl⟩ : na = a ∧ h₁ = h := by
      simpa [GroupOp.flattenCall, GroupOp.callsFunction, ha, eq_comm] using hrun₁
    obtain ⟨nc, h₂, hrun₂, he₂, hnc, hsame₂⟩ := hp.flatten_op hw ha
    refine ⟨_, _, ?_, tensorTuple_same hp hw he₁ hna hsame₁ he₂ hnc hsame₂⟩
    simp [GroupOp.specialSerialFlatten, GroupOp.callsFunction, ha, hrun₂]
  | func f =>
    have hi : Inlines (fun _ => none) (Function.update (fun _ => none) a (some na)) a na :=
      ⟨fun x hx => ⟨rfl, by simp [hx]⟩, Or.inr ⟨rfl, by simp⟩⟩
    obtain ⟨c', s, hvisit, hes, hsame, hcall⟩ := inline_spec he₁.wf (hp.ext hw he₁.ext)
      (get_ext he₁.ext ha) hna (hsame₁.here hw he₁.ext hp.vars hp.typedA.lt) hi
    obtain ⟨nc, h₂, hrun₂, he₂, hnc, hsame₂⟩ := flatten_inlined hes hsame hcall
    refine ⟨_, _, ?_, tensorTuple_same hp hw he₁ hna hsame₁ (hes.trans he₂) hnc hsame₂⟩
    rw [flattenCall_func ha] at hrun₁
    simp [GroupOp.specialSerialFlatten, GroupOp.callsFunction, ha, hrun₁, Mutation.start,
      Mutation.record, hvisit, hrun₂]

/-- Replacements of the producer by its flat form. -/
structure Replaces (h : Heap) (ps : List Nat) (a : Nat) (globalReplace : ReplaceMap) (h' : Heap) :
    Prop where
  ext : Extends h h'
  entry : ∀ k v, (k, v) ∈ globalReplace → k = a ∧ Typed h' noCall anyItem ps v ∧ Same h h' ps a v

theorem Replaces.get {m : ReplaceMap} (hr : Replaces h ps a m h') (hm : m ≠ []) :
    ∃ na, m.get a = some na ∧ Typed h' noCall anyItem ps na ∧ Same h h' ps a na := by
  obtain ⟨⟨k, v⟩, hkv⟩ := List.exists_mem_of_ne_nil m hm
  obtain ⟨rfl, -, -⟩ := hr.entry k v hkv
  cases hg : m.get k with
  | none => exact absurd hg (ReplaceMap.get_ne_none hkv)
  | some na => exact ⟨na, rfl, (hr.entry k na (ReplaceMap.mem_of_get hg)).2⟩

/-- One argument of the consumer adds the flat producer at most once more. -/
theorem serialArg_spec (hp : Pair h ps a c) (hw : Wf h) {f : Nat} {argsA : List Nat}
    (ha : h[a]? = some (.call (.func f) argsA)) {m : ReplaceMap} (hr : Replaces h ps a m h')
    (hy : y ∈ GroupOp.callArgs h c) :
    ∃ m' h'', GroupOp.serialArg ps (m, h') y = some (m', h'') ∧ Replaces h ps a m' h'' ∧
      (m ≠ [] ∨ y ∉ ps → m' ≠ []) := by
  have ha' := get_ext hr.ext.ext ha
  have hcalls : GroupOp.callsFunction h' a = some true := by simp [GroupOp.callsFunction, ha']
  have haps : a ∉ ps := by
    intro hps
    obtain ⟨name, hv⟩ := hp.vars a hps
    simp [ha] at hv
  obtain ⟨na, h₁, hrun, he₁, hna, hsame⟩ := (hp.ext hw hr.ext.ext).flatten hr.ext.wf
  rw [flattenCall_func ha'] at hrun
  have hadd : Replaces h ps a (m ++ [(a, na)]) h₁ := by
    refine ⟨hr.ext.trans he₁, fun k v hkv => ?_⟩
    rcases List.mem_append.mp hkv with hkv | hkv
    · obtain ⟨rfl, h1, h2⟩ := hr.entry k v hkv
      exact ⟨rfl, he₁.typed hr.ext.wf h1, h2.trans hr.ext.ext (same_ext hr.ext.wf he₁.ext h1.lt)⟩
    · obtain ⟨rfl, rfl⟩ : k = a ∧ v = na := by simpa using hkv
      exact ⟨rfl, hna, (same_ext hw hr.ext.ext hp.typedA.lt).trans hr.ext.ext hsame⟩
  rcases hp.argsC y hy with hps | rfl | ⟨k, hk⟩
  · exact ⟨m, h', by simp [GroupOp.serialArg, hps], hr, fun hm => hm.elim id fun hno => absurd hps hno⟩
  · exact ⟨_, h₁, by simp [GroupOp.serialArg, haps, ha', hcalls, hrun], hadd, fun _ => by simp⟩
  · have hk' := get_ext hr.ext.ext hk
    have hyps : y ∉ ps := by
      intro hps
      obtain ⟨name, hv⟩ := hp.vars y hps
      simp [hk] at hv
    by_cases hg : (m.get a).isSome
    · refine ⟨m, h', by simp [GroupOp.serialArg, hyps, hk', hcalls, hg], hr, fun _ hm => ?_⟩
      subst hm
      simp [ReplaceMap.get] at hg
    · exact ⟨_, h₁, by simp [GroupOp.serialArg, hyps, hk', hcalls, hg, hrun], hadd, fun _ => by simp⟩

theorem serialArgs_spec (hp : Pair h ps a c) (hw : Wf h) {f : Nat} {argsA : List Nat}
    (ha : h[a]? = some (.call (.func f) argsA)) {l : List Nat}
    (hl : ∀ y ∈ l, y ∈ GroupOp.callArgs h c) {m : ReplaceMap} (hr : Replaces h ps a m h') :
    ∃ m' h'', l.foldlM (GroupOp.serialArg ps) (m, h') = some (m', h'') ∧ Replaces h ps a m' h'' ∧
      ((m ≠ [] ∨ ∃ y ∈ l, y ∉ ps) → m' ≠ []) := by
  induction l generalizing m h' with
  | nil => exact ⟨m, h', rfl, hr, by simp⟩
  | cons y l ih =>
    obtain ⟨m₁, h₁, hrun₁, hr₁, hne₁⟩ := serialArg_spec hp hw ha hr (hl y (by simp))
    obtain ⟨m₂, h₂, hrun₂, hr₂, hne₂⟩ := ih (fun z hz => hl z (by simp [hz])) hr₁
    refine ⟨m₂, h₂, by simp [List.foldlM_cons, hrun₁, hrun₂], hr₂, fun hcase => hne₂ ?_⟩
    rcases hcase with hm | ⟨z, hz, hzps⟩
    · exact Or.inl (hne₁ (Or.inl hm))
    · rcases List.mem_cons.mp hz with rfl | hz
      · exact Or.inl (hne₁ (Or.inr hzps))
      · exact Or.inr ⟨z, hz, hzps⟩

/-- The arguments leave no trace when the producer applies a stencil operator. -/
theorem serialArgs_op (hp : Pair h ps a c) {name : String} {outputs : Nat} {argsA : List Nat}
    (ha : h[a]? = some (.call (.op name outputs) argsA)) {l : List Nat}
    (hl : ∀ y ∈ l, y ∈ GroupOp.callArgs h c) :
    l.foldlM (GroupOp.serialArg ps) ([], h) = some ([], h) := by
  have hcalls : GroupOp.callsFunction h a = some false := by simp [GroupOp.callsFunction, ha]
  induction l with
  | nil => rfl
  | cons y l ih =>
    have hstep : GroupOp.serialArg ps ([], h) y = some ([], h) := by
      by_cases hyps : y ∈ ps
      · simp [GroupOp.serialArg, hyps]
      · rcases hp.argsC y (hl y (by simp)) with hps | rfl | ⟨k, hk⟩
        · exact absurd hps hyps
        · simp [GroupOp.serialArg, hyps, ha, hcalls]
        · simp [GroupOp.serialArg, hyps, hk, hcalls]
    simp only [List.foldlM_cons, hstep, Option.bind_eq_bind, Option.bind_some]
    exact ih fun z hz => hl z (by simp [hz])

/-- The consumer swallows its producer. -/
theorem serialFlatten_spec (hp : Pair h ps a c) (hw : Wf h) :
    ∃ r h', GroupOp.serialFlatten c ps h = some (r, h') ∧ Extends h h' ∧
      Typed h' noCall anyItem ps r ∧ Same h h' ps c r := by
  obtain ⟨calleeC, argsC, hc⟩ := hp.callC
  have hargsC : GroupOp.callArgs h c = argsC := callArgs_call hc
  obtain ⟨callee, argsA, ha⟩ := hp.callA
  cases callee with
  | op name outputs =>
    obtain ⟨nc, h', hrun, hspec⟩ := hp.flatten_op hw ha
    have hfold := serialArgs_op hp ha (l := argsC) (by simp [hargsC])
    exact ⟨nc, h', by simp [GroupOp.serialFlatten, hc, hfold, hrun], hspec⟩
  | func f =>
    obtain ⟨m, h₁, hfold, hr, hne⟩ := serialArgs_spec hp hw ha (l := argsC) (m := [])
      (by simp [hargsC]) ⟨Extends.refl hw, by simp⟩
    have hp₁ := hp.ext hw hr.ext.ext
    by_cases hm : m = []
    · have hall : ∀ y ∈ argsC, y ∈ ps := by
        intro y hy
        by_contra hyps
        exact hne (Or.inr ⟨y, hy, hyps⟩) hm
      have hc₁ := get_ext hr.ext.ext hc
      obtain ⟨hcallee, hargs⟩ := hp₁.typedC.call hc₁
      obtain ⟨nc, h₂, hrun, he₂, hnc, hsame⟩ := flattenCall_spec hr.ext.wf hc₁ hcallee
        (fun y hy => typed_var_flat hp₁.vars (hall y hy)) (fun y hy => (hargs y hy).2)
      refine ⟨nc, h₂, by simp [GroupOp.serialFlatten, hc, hfold, hm, hrun], hr.ext.trans he₂, hnc, ?_⟩
      exact (same_ext hw hr.ext.ext hp.typedC.lt).trans hr.ext.ext hsame
    · obtain ⟨na, hget, hna, hsame⟩ := hr.get hm
      have hi : Inlines m.get (fun _ => none) a na := by
        refine ⟨fun x hx => ⟨?_, rfl⟩, Or.inl ⟨hget, rfl⟩⟩
        cases hg : m.get x with
        | none => rfl
        | some v => exact absurd (hr.entry x v (ReplaceMap.mem_of_get hg)).1 hx
      obtain ⟨c', s, hvisit, hes, hsame', hcall⟩ := inline_spec hr.ext.wf hp₁
        (get_ext hr.ext.ext ha) hna (hsame.here hw hr.ext.ext hp.vars hp.typedA.lt) hi
      obtain ⟨nc, h₂, hrun, he₂, hnc, hsame₂⟩ := flatten_inlined hes hsame' hcall
      refine ⟨nc, h₂, ?_, (hr.ext.trans hes).trans he₂, hnc, ?_⟩
      · simp [GroupOp.serialFlatten, hc, hfold, hm, replaceParams, Mutation.start, hvisit, hrun]
      · exact (same_ext hw hr.ext.ext hp.typedC.lt).trans hr.ext.ext hsame₂

/-- The body of a fused function: flat, and made of new objects over the parameters. -/
structure FusedBody (h h' : Heap) (ps : List Nat) (r : Nat) : Prop where
  ext : Extends h h'
  typed : Typed h' noCall (IsCall h') ps r
  own : ∀ y, Reach h' r y → y ∈ ps ∨ h.length ≤ y

theorem emitTuple_body {h₁ : Heap} {r : Nat} (hv : ∀ p ∈ ps, IsVar h p) (he : Extends h h₁)
    (ht : Typed h₁ noCall anyItem ps r) :
    ∃ r' h', emitTuple r h₁ = some (r', h') ∧ FusedBody h h' ps r' ∧ Extends h₁ h' ∧
      Same h₁ h' ps r r' := by
  obtain ⟨r', h', hrun, he', ht', hsame, hown⟩ :=
    emitTuple_spec he.wf ht (fun p hp => (hv p hp).ext he.ext)
  refine ⟨r', h', hrun, ⟨he.trans he', ht', fun y hy => ?_⟩, he', hsame⟩
  have := he.ext.length_le
  exact (hown y hy).imp id fun hle => by omega

/-- Flattening a group with one output. -/
theorem flattenExpr_serial (hp : Pair h ps a c) (hw : Wf h) :
    ∃ r h', GroupOp.flattenExpr c ps h = some (r, h') ∧ FusedBody h h' ps r ∧ Same h h' ps c r := by
  obtain ⟨r, h₁, hrun₁, he₁, ht, hsame₁⟩ := serialFlatten_spec hp hw
  obtain ⟨r', h', hrun, hbody, -, hsame⟩ := emitTuple_body hp.vars he₁ ht
  obtain ⟨callee, args, hc⟩ := hp.callC
  exact ⟨r', h', by simp [GroupOp.flattenExpr, hc, hrun₁, hrun], hbody, hsame₁.trans he₁.ext hsame⟩

/-- Without the producer among its sources, a consumer takes variables only. -/
theorem Pair.independent (hp : Pair h ps a c)
    (hs : a ∉ GroupOp.argSources h (GroupOp.callArgs h c)) :
    ∀ y ∈ GroupOp.callArgs h c, y ∈ ps := by
  obtain ⟨callee, args, ha⟩ := hp.callA
  intro y hy
  rcases hp.argsC y hy with hps | rfl | ⟨k, hk⟩
  · exact hps
  · exact absurd (List.mem_map.mpr ⟨y, hy, by simp [ha]⟩) hs
  · exact absurd (List.mem_map.mpr ⟨y, hy, by simp [hk]⟩) hs

/-- Flattening a group with two outputs. -/
theorem flattenExpr_tuple (hp : Pair h ps a c) (hw : Wf h) {t : Nat}
    (ht : h[t]? = some (.tuple [a, c])) :
    ∃ r h', GroupOp.flattenExpr t ps h = some (r, h') ∧ FusedBody h h' ps r ∧
      Joint h h' ps a c r := by
  obtain ⟨callee, args, hc⟩ := hp.callC
  have hargs : GroupOp.callArgs h c = args := callArgs_call hc
  have hjoint {r r' : Nat} {h₁ h' : Heap} (he : h <+: h₁) (hj : Joint h h₁ ps a c r)
      (hs : Same h₁ h' ps r r') : Joint h h' ps a c r' :=
    ⟨hs.type.trans hj.type, fun V I σ hσ =>
      (hs.value V I σ (hσ.ext he)).trans (hj.value V I σ hσ)⟩
  by_cases hsrc : a ∈ GroupOp.argSources h args
  · obtain ⟨r, h₁, hrun₁, he₁, htr, hj⟩ := specialSerialFlatten_spec hp hw
    obtain ⟨r', h', hrun, hbody, -, hsame⟩ := emitTuple_body hp.vars he₁ htr
    exact ⟨r', h', by simp [GroupOp.flattenExpr, ht, hc, hsrc, hrun₁, hrun], hbody,
      hjoint he₁.ext hj hsame⟩
  · obtain ⟨r, h₁, hrun₁, he₁, htr, hj⟩ :=
      parallelFlatten_spec hp hw (hp.independent (by rw [hargs]; exact hsrc))
    obtain ⟨r', h', hrun, hbody, -, hsame⟩ := emitTuple_body hp.vars he₁ htr
    exact ⟨r', h', by simp [GroupOp.flattenExpr, ht, hc, hsrc, hrun₁, hrun], hbody,
      hjoint he₁.ext hj hsame⟩

end StencilGraph.Relay

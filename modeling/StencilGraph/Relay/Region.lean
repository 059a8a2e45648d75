import StencilGraph.Relay.Flatten

namespace StencilGraph.Relay

/-- The objects of a function: itself, its parameters and the parts of its body. -/
def InFunc (h : Heap) (f x : Nat) : Prop :=
  x = f ∨ ∃ qs b tag, h[f]? = some (.function qs b tag) ∧ (x ∈ qs ∨ Reach h b x)

/-- The objects inside the functions that calls in `O` apply. -/
def Inside (h : Heap) (O : Nat → Prop) (x : Nat) : Prop :=
  ∃ z f args, O z ∧ h[z]? = some (.call (.func f) args) ∧ InFunc h f x

/-- A set `O` of expressions that a visit goes through. The expressions in `L` lead to replaced ones;
the functions called in `O` are not touched. -/
structure Region (replace : Nat → Option Nat) (h : Heap) (memo : Nat → Option Nat)
    (O L : Nat → Prop) : Prop where
  node : ∀ x, O x → ∃ n, h[x]? = some n ∧ ∀ qs b tag, n ≠ .function qs b tag
  dep : ∀ x n y, O x → memo x = none → replace x = none → h[x]? = some n → y ∈ n.deps →
    O y ∧ (L y → L x)
  key : ∀ x y, O x → memo x = none → ¬ IsVar h x → replace x = some y → O y ∧ L x ∧ ¬ L y
  tuple : ∀ x fields, O x → h[x]? = some (.tuple fields) → replace x = none
  target : ∀ x y, replace x = some y → y < h.length
  callable : ∀ z f args, O z → h[z]? = some (.call (.func f) args) → Callable h f args.length
  inside : ∀ x, Inside h O x → replace x = none ∧ memo x = none ∧ ¬ L x

variable {V : Type} {I : Interp V} {replace : Nat → Option Nat} {h : Heap}
  {memo : Nat → Option Nat} {s : Mutation} {O L : Nat → Prop} {ps : List Nat} {x : Nat}

/-- What a function consists of refers only to parts of the function. -/
theorem inFunc_visited (replace : Nat → Option Nat) (hw : Wf h) {f m b : Nat} {qs : List Nat}
    {tag : List String} (hok : FuncOk h f m qs b tag) (hx : InFunc h f x) (hrep : replace x = none) :
    ∃ n, h[x]? = some n ∧ ∀ y ∈ visited replace x n, InFunc h f y ∧ y < x := by
  have hin {y : Nat} (hy : y ∈ qs ∨ Reach h b y) : InFunc h f y :=
    Or.inr ⟨qs, b, tag, hok.node, hy⟩
  rcases hx with rfl | ⟨qs', b', tag', hnode, hx⟩
  · refine ⟨_, hok.node, fun y hy => ?_⟩
    rcases List.mem_append.mp hy with hy | hy
    · exact ⟨hin (Or.inl hy), wf_param hw hok.node hy⟩
    · obtain rfl : y = b := by simpa using hy
      exact ⟨hin (Or.inr Relation.ReflTransGen.refl), wf_body hw hok.node⟩
  · obtain ⟨rfl, rfl, rfl⟩ : qs' = qs ∧ b' = b ∧ tag' = tag := by
      simpa [hnode] using hok.node
    rcases hx with hq | hr
    · obtain ⟨name, hv⟩ := hok.vars x hq
      exact ⟨_, hv, by simp [visited]⟩
    · have ht := hr.typed hok.body
      obtain ⟨n, hn⟩ := get_of_lt ht.lt
      have hdep {y : Nat} (hy : y ∈ n.deps) : InFunc h f y ∧ y < x :=
        ⟨hin (Or.inr (hr.tail ⟨n, hn, hy⟩)), hw x n hn y (deps_subset_refs hy)⟩
      refine ⟨n, hn, fun y hy => ?_⟩
      cases ht with
      | var _ name hget =>
        obtain rfl := Option.some.inj (hget.symm.trans hn)
        simp [visited] at hy
      | op _ name outputs args hget =>
        obtain rfl := Option.some.inj (hget.symm.trans hn)
        exact hdep (by simpa [visited, hrep, Callee.refs, Node.deps] using hy)
      | func _ g args hget hg => exact hg.elim
      | tuple _ fields hget =>
        obtain rfl := Option.some.inj (hget.symm.trans hn)
        exact hdep hy
      | item _ t k m hget =>
        obtain rfl := Option.some.inj (hget.symm.trans hn)
        exact hdep (by simpa [visited, hrep, Node.deps] using hy)

theorem InFunc.of_ext {h' : Heap} {f : Nat} (hw : Wf h) (he : h <+: h') (hf : f < h.length)
    (hin : InFunc h' f x) : InFunc h f x := by
  rcases hin with rfl | ⟨qs, b, tag, hnode, hx⟩
  · exact Or.inl rfl
  · rw [get_ext_iff he hf] at hnode
    exact Or.inr ⟨qs, b, tag, hnode, hx.imp id fun hr => hr.of_ext hw he
      ((wf_body hw hnode).trans hf)⟩

theorem InFunc.lt (hw : Wf h) {f m b : Nat} {qs : List Nat} {tag : List String}
    (hok : FuncOk h f m qs b tag) (hin : InFunc h f x) : x < h.length := by
  obtain ⟨n, hn, -⟩ := inFunc_visited (fun _ => none) hw hok hin rfl
  exact lt_of_get hn

theorem InFunc.le {f : Nat} (hw : Wf h) (hin : InFunc h f x) : x ≤ f := by
  rcases hin with rfl | ⟨qs, bd, ftag, hnode, hp | hr⟩
  · exact le_rfl
  · exact (wf_param hw hnode hp).le
  · exact (hr.le hw).trans (wf_body hw hnode).le

open Classical in
/-- The order of a visit of a region. -/
noncomputable def Region.measure (h : Heap) (L : Nat → Prop) (x : Nat) : Nat :=
  if L x then h.length + x else x

theorem Region.measure_lt {y : Nat} (hyx : y < x) (hl : L y → L x) :
    Region.measure h L y < Region.measure h L x := by
  unfold Region.measure
  by_cases hy : L y
  · rw [if_pos hy, if_pos (hl hy)]
    omega
  · rw [if_neg hy]
    split <;> omega

theorem Region.measure_key {y : Nat} (hy : y < h.length) (hx : L x) (hl : ¬ L y) :
    Region.measure h L y < Region.measure h L x := by
  unfold Region.measure
  rw [if_neg hl, if_pos hx]
  omega

theorem Region.measure_fuel (hx : x < h.length) : Region.measure h L x < visitFuel h := by
  unfold Region.measure visitFuel
  split <;> omega

theorem Region.visitable (hr : Region replace h memo O L) (hw : Wf h) :
    Visitable replace h memo (fun x => O x ∨ Inside h O x) (Region.measure h L) := by
  refine ⟨?_, fun x y _ hrep => hr.target x y hrep⟩
  rintro x (hx | ⟨z, f, args, hz, hcall, hin⟩) hm
  · obtain ⟨n, hn, hnf⟩ := hr.node x hx
    refine ⟨n, hn, fun y hy => ?_⟩
    have hdep (hrep : replace x = none) (hyd : y ∈ n.deps) :
        (O y ∨ Inside h O y) ∧ Region.measure h L y < Region.measure h L x := by
      obtain ⟨h1, h2⟩ := hr.dep x n y hx hm hrep hn hyd
      exact ⟨Or.inl h1, Region.measure_lt (hw x n hn y (deps_subset_refs hyd)) h2⟩
    have hkey (hrep : replace x = some y) (hnv : ¬ IsVar h x) :
        (O y ∨ Inside h O y) ∧ Region.measure h L y < Region.measure h L x := by
      obtain ⟨h1, h2, h3⟩ := hr.key x y hx hm hnv hrep
      exact ⟨Or.inl h1, Region.measure_key (hr.target x y hrep) h2 h3⟩
    cases n with
    | var => simp [visited] at hy
    | call c args =>
      cases hrep : replace x with
      | some w =>
        obtain rfl : y = w := by simpa [visited, hrep] using hy
        exact hkey hrep (by rintro ⟨_, hv⟩; simp [hn] at hv)
      | none =>
        simp only [visited, hrep, List.mem_append] at hy
        rcases hy with hy | hy
        · cases c with
          | op => simp [Callee.refs] at hy
          | func f =>
            obtain rfl : y = f := by simpa [Callee.refs] using hy
            have hin : Inside h O y := ⟨x, y, args, hx, hn, Or.inl rfl⟩
            exact ⟨Or.inr hin, Region.measure_lt (wf_func hw hn)
              fun hl => absurd hl (hr.inside y hin).2.2⟩
        · exact hdep hrep hy
    | tuple fields => exact hdep (hr.tuple x fields hx hn) hy
    | tupleGetItem t k =>
      cases hrep : replace x with
      | some w =>
        obtain rfl : y = w := by simpa [visited, hrep] using hy
        exact hkey hrep (by rintro ⟨_, hv⟩; simp [hn] at hv)
      | none => exact hdep hrep (by simpa [visited, hrep, Node.deps] using hy)
    | function qs b tag => exact absurd rfl (hnf qs b tag)
  · obtain ⟨qs, b, tag, hok⟩ := hr.callable z f args hz hcall
    obtain ⟨hrep, -, -⟩ := hr.inside x ⟨z, f, args, hz, hcall, hin⟩
    obtain ⟨n, hn, hvis⟩ := inFunc_visited replace hw hok hin hrep
    refine ⟨n, hn, fun y hy => ?_⟩
    obtain ⟨h1, h2⟩ := hvis y hy
    have hin' : Inside h O y := ⟨z, f, args, hz, hcall, h1⟩
    exact ⟨Or.inr hin', Region.measure_lt h2 fun hl => absurd hl (hr.inside y hin').2.2⟩

/-- The visit of an expression of a region ends. -/
theorem Region.run (hr : Region replace h memo O L) (hw : Wf h)
    (hb : ∀ x r, memo x = some r → r < h.length) (hx : O x) :
    ∃ r s, visit replace (visitFuel h) x ⟨h, memo⟩ = some (r, s) ∧ Rebuild replace h memo s ∧
      s.memo x = some r := by
  obtain ⟨n, hn, -⟩ := hr.node x hx
  exact visit_run hw (hr.visitable hw) hb (Or.inl hx) _ (Region.measure_fuel (lt_of_get hn))

/-- The visit of a function around a region. -/
theorem Region.run_function (hr : Region replace h memo O L) (hw : Wf h)
    (hb : ∀ x r, memo x = some r → r < h.length) {f b : Nat} {tag : List String}
    (hf : h[f]? = some (.function ps b tag)) (hps : ∀ p ∈ ps, IsVar h p) (hbody : O b)
    (hne : ∀ x, O x ∨ Inside h O x → x ≠ f) :
    ∃ r s, visit replace (visitFuel h) f ⟨h, memo⟩ = some (r, s) ∧ Rebuild replace h memo s ∧
      s.memo f = some r := by
  have hvis := hr.visitable hw
  have hvar {p : Nat} (hp : p ∈ ps) : p ≠ f := by
    rintro rfl
    obtain ⟨name, hv⟩ := hps p hp
    simp [hf] at hv
  have hbound {x : Nat} (hx : x < h.length) : Region.measure h L x < 2 * h.length := by
    unfold Region.measure
    split <;> omega
  have hv : Visitable replace h memo (fun x => (O x ∨ Inside h O x) ∨ x ∈ ps ∨ x = f)
      (fun x => if x = f then 2 * h.length else Region.measure h L x) := by
    refine ⟨?_, fun x y _ hrep => hr.target x y hrep⟩
    rintro x (hx | hx | rfl) hm
    · obtain ⟨n, hn, hsub⟩ := hvis.node x hx hm
      refine ⟨n, hn, fun y hy => ?_⟩
      obtain ⟨h1, h2⟩ := hsub y hy
      rw [if_neg (hne y h1), if_neg (hne x hx)]
      exact ⟨Or.inl h1, h2⟩
    · obtain ⟨name, hv⟩ := hps x hx
      exact ⟨_, hv, by simp [visited]⟩
    · refine ⟨_, hf, fun y hy => ?_⟩
      rw [if_pos rfl]
      rcases List.mem_append.mp hy with hy | hy
      · obtain ⟨name, hv⟩ := hps y hy
        rw [if_neg (hvar hy)]
        exact ⟨Or.inr (Or.inl hy), hbound (lt_of_get hv)⟩
      · obtain rfl : y = b := by simpa using hy
        obtain ⟨n, hn, -⟩ := hr.node y hbody
        rw [if_neg (hne y (Or.inl hbody))]
        exact ⟨Or.inl (Or.inl hbody), hbound (lt_of_get hn)⟩
  exact visit_run hw hv hb (Or.inr (Or.inr rfl)) _ (by simp [visitFuel])

theorem Region.funcUntouched (hr : Region replace h memo O L) {z f b n : Nat} {args qs : List Nat}
    {tag : List String} (hz : O z) (hcall : h[z]? = some (.call (.func f) args))
    (hok : FuncOk h f n qs b tag) : FuncUntouched replace memo h f qs b := by
  have hin {y : Nat} (hy : InFunc h f y) := hr.inside y ⟨z, f, args, hz, hcall, hy⟩
  refine ⟨(hin (Or.inl rfl)).2.1, fun y hy => ?_, fun p hp => ?_⟩
  · have := hin (Or.inr ⟨qs, b, tag, hok.node, Or.inr hy⟩)
    exact ⟨this.1, this.2.1⟩
  · have := hin (Or.inr ⟨qs, b, tag, hok.node, Or.inl hp⟩)
    exact ⟨this.1, this.2.1⟩

/-- A visit of a region keeps types and values on a closed part `P` of it, when this holds at the
seeds of the memo table, at the variables and at the replaced expressions. -/
theorem Region.image (hr : Region replace h memo O L) (hw : Wf h) (hs : Rebuild replace h memo s)
    {P : Nat → Prop} {item item' : Nat → Prop} {ps' : List Nat} {σ σ' : Env V}
    (hP : ∀ x, P x → O x)
    (hdep : ∀ x n y, P x → memo x = none → replace x = none → h[x]? = some n → y ∈ n.deps → P y)
    (hkey : ∀ x y, P x → memo x = none → ¬ IsVar h x → replace x = some y → P y ∧
      Typed h (Callable h) item ps y ∧ typeOf h y = typeOf h x ∧ value I h σ y = value I h σ x)
    (seed : ∀ x r, P x → memo x = some r →
      Image I h s (Callable s.heap) item' ps' σ σ' x r)
    (var : ∀ x name, P x → memo x = none → h[x]? = some (.var name) → x ∈ ps →
      Image I h s (Callable s.heap) item' ps' σ σ' x ((replace x).getD x))
    (hitem : ∀ x t k t', P x → memo x = none → replace x = none →
      h[x]? = some (.tupleGetItem t k) → item t → s.memo t = some t' → item' t')
    (hσ : VarEnv h σ) (hσ' : VarEnv s.heap σ') (hx : P x) (ht : Typed h (Callable h) item ps x)
    {r : Nat} (hxr : s.memo x = some r) :
    Image I h s (Callable s.heap) item' ps' σ σ' x r := by
  refine transport (O := P) hs hw (hr.visitable hw) (fun z hz => Or.inl (hP z hz)) hdep
    (fun z y hz hm hnv hrep => (hkey z y hz hm hnv hrep).1)
    ⟨seed, var, fun z y hz hm hnv hrep => (hkey z y hz hm hnv hrep).2, ?_, hitem,
      fun z fields hz => hr.tuple z fields (hP z hz), ?_, hσ'⟩ x hx ht hxr
  · intro z f args f' hz hm hrep hcall hf hf'
    obtain ⟨qs, b, tag, hok⟩ := hf
    obtain ⟨b', hok', -, hty, hval⟩ :=
      func_copied (V := V) (I := I) hs hw hok (hr.funcUntouched (hP z hz) hcall hok) hf'
    exact ⟨⟨qs, b', tag, hok'⟩, qs, b, tag, b', hok, hok', hty, hval⟩
  · intro z hz _ _ hnv
    by_contra hne
    exact hnv (hσ z hne)

/-- The parts of a copied function are the images of the parts of the function. -/
theorem Region.inFunc_origin (hr : Region replace h memo O L) (hw : Wf h)
    (hs : Rebuild replace h memo s) {z f f' : Nat} {args : List Nat} (hz : O z)
    (hcall : h[z]? = some (.call (.func f) args)) (hf : s.memo f = some f')
    (hx : InFunc s.heap f' x) : ∃ w, InFunc h f w ∧ s.memo w = some x := by
  obtain ⟨qs, b, tag, hok⟩ := hr.callable z f args hz hcall
  have hu := hr.funcUntouched hz hcall hok
  obtain ⟨qs', b', hget, hqs, hb⟩ := hs.rebuilt hf hu.self hok.node
  rcases hx with rfl | ⟨qs'', b'', tag'', hnode, hx⟩
  · exact ⟨f, Or.inl rfl, hf⟩
  · obtain ⟨rfl, rfl, rfl⟩ : qs' = qs'' ∧ b' = b'' ∧ tag = tag'' := by simpa [hget] using hnode
    rcases hx with hx | hx
    · obtain ⟨w, hwq, hwx⟩ := forall₂_mem hqs hx
      exact ⟨w, Or.inr ⟨qs, b, tag, hok.node, Or.inl hwq⟩, hwx⟩
    · have hin {y : Nat} (hy : Reach h b y) : Inside h O y :=
        ⟨z, f, args, hz, hcall, Or.inr ⟨qs, b, tag, hok.node, Or.inr hy⟩⟩
      obtain ⟨w, hwr, -, hwx⟩ := reach_origin hs (hr.visitable hw) (P := Reach h b)
        (fun y hy => ⟨Or.inr (hin hy), (hu.body y hy).2⟩)
        ⟨fun y n w hy _ hn hw => hy.tail ⟨n, hn, hw⟩,
          fun y w hy hrep => by simp [(hu.body y hy).1] at hrep⟩ Relation.ReflTransGen.refl hb hx
      exact ⟨w, Or.inr ⟨qs, b, tag, hok.node, Or.inr hwr⟩, hwx⟩

/-- A call is the image of a call. -/
theorem call_origin (hs : Rebuild replace h memo s) {z z' : Nat} {callee' : Callee}
    {args' : List Nat} {n : Node} (hn : h[z]? = some n) (hm : memo z = none)
    (hrep : replace z = none) (hz : s.memo z = some z')
    (hcall : s.heap[z']? = some (.call callee' args')) :
    ∃ callee args, h[z]? = some (.call callee args) ∧ SameCallee s.memo callee callee' ∧
      List.Forall₂ (fun a a' => s.memo a = some a') args args' := by
  have hreb := hs.rebuilt hz hm hn
  cases n with
  | var name =>
    simp only [Rebuilt, hrep, Option.getD_none] at hreb
    subst hreb
    simp [get_ext hs.ext hn] at hcall
  | call callee args =>
    simp only [Rebuilt, hrep] at hreb
    obtain ⟨callee'', args'', hget, hc, has⟩ := hreb
    obtain ⟨rfl, rfl⟩ : callee'' = callee' ∧ args'' = args' := by simpa [hget] using hcall
    exact ⟨callee, args, hn, hc, has⟩
  | tuple fields =>
    obtain ⟨fields', hget, -⟩ := hreb
    simp [hget] at hcall
  | tupleGetItem t k =>
    simp only [Rebuilt, hrep] at hreb
    obtain ⟨t', -, ⟨-, rfl⟩ | ⟨-, hget⟩⟩ := hreb
    · simp [get_ext hs.ext hn] at hcall
    · simp [hget] at hcall
  | function qs b tag =>
    obtain ⟨qs', b', hget, -, -⟩ := hreb
    simp [hget] at hcall

end StencilGraph.Relay

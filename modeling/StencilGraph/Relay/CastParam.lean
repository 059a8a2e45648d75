import StencilGraph.Relay.FlattenGroup

namespace StencilGraph.Relay

/-- A well-typed `main` with parameters `ps` and body `b`. Its expressions are not shared with the
functions they call. -/
structure Main (h : Heap) (ps : List Nat) (b : Nat) : Prop where
  wf : Wf h
  nodup : ps.Nodup
  vars : ∀ p ∈ ps, IsVar h p
  body : Typed h (Callable h) (IsCall h) ps b
  result : typeOf h b = .tensor ∨ ∃ fields, h[b]? = some (.tuple fields)
  apart : ∀ x, x ∈ ps ∨ Reach h b x → ¬ Inside h (Reach h b) x

/-- Two calls of `main`, where `c` may use results of `a`, with the arguments `A` they take from
outside. -/
structure Group (h : Heap) (ps : List Nat) (b : Nat) (A : List Nat) (a c : Nat) : Prop where
  main : Main h ps b
  ne : a ≠ c
  callA : IsCall h a
  callC : IsCall h c
  reachA : Reach h b a
  reachC : Reach h b c
  nodup : A.Nodup
  outside : ∀ y ∈ A, Reach h b y ∧ typeOf h y = .tensor ∧ y ≠ a ∧ y ≠ c ∧
    ∀ t k, h[y]? = some (.tupleGetItem t k) → t ≠ a ∧ t ≠ c
  used : ∀ y ∈ A, y ∈ GroupOp.callArgs h a ∨ y ∈ GroupOp.callArgs h c
  argsA : ∀ y ∈ GroupOp.callArgs h a, y ∈ A
  argsC : ∀ y ∈ GroupOp.callArgs h c, y ∈ A ∨ y = a ∨ ∃ k, h[y]? = some (.tupleGetItem a k)

variable {h h' : Heap} {ps A : List Nat} {a b c x y : Nat}

theorem Main.typed (hm : Main h ps b) (hx : Reach h b x) : Typed h (Callable h) (IsCall h) ps x :=
  hx.typed hm.body

/-- An argument that the group takes from outside. -/
def FromOutside (h : Heap) (group : List Nat) (x : Nat) : Prop :=
  x ∉ group ∧ ∀ t k, h[x]? = some (.tupleGetItem t k) → t ∉ group

open Classical in
theorem addArg_eq (group args : List Nat) : GroupOp.addArg h group args x =
    if FromOutside h group x ∧ x ∉ args then args ++ [x] else args := by
  unfold GroupOp.addArg FromOutside
  cases hx : h[x]? with
  | none => simp [and_comm]
  | some n =>
    cases n with
    | tupleGetItem t k =>
      by_cases ht : t ∈ group
      · simp [ht]
      · simp [ht, and_comm]
    | _ => simp [and_comm]

theorem mem_addArg {group args : List Nat} :
    y ∈ GroupOp.addArg h group args x ↔ y ∈ args ∨ y = x ∧ FromOutside h group x := by
  rw [addArg_eq]
  split
  · rename_i hx
    simp [hx.1]
  · rename_i hx
    refine ⟨Or.inl, fun hy => hy.elim id ?_⟩
    rintro ⟨rfl, hout⟩
    by_contra hn
    exact hx ⟨hout, hn⟩

theorem nodup_addArg {group args : List Nat} (hn : args.Nodup) :
    (GroupOp.addArg h group args x).Nodup := by
  rw [addArg_eq]
  split
  · rename_i hx
    exact List.Nodup.append hn (List.nodup_singleton x) (by simpa using hx.2)
  · exact hn

theorem foldl_addArg {group l args : List Nat} (hn : args.Nodup) :
    (l.foldl (GroupOp.addArg h group) args).Nodup ∧
      ∀ y, y ∈ l.foldl (GroupOp.addArg h group) args ↔
        y ∈ args ∨ y ∈ l ∧ FromOutside h group y := by
  induction l generalizing args with
  | nil => simp [hn]
  | cons x l ih =>
    obtain ⟨h1, h2⟩ := ih (nodup_addArg (h := h) (x := x) hn)
    refine ⟨h1, fun y => ?_⟩
    rw [List.foldl_cons, h2, mem_addArg, List.mem_cons]
    constructor
    · rintro ((hy | ⟨rfl, hy⟩) | ⟨hy, hy'⟩)
      · exact Or.inl hy
      · exact Or.inr ⟨Or.inl rfl, hy⟩
      · exact Or.inr ⟨Or.inr hy, hy'⟩
    · rintro (hy | ⟨rfl | hy, hy'⟩)
      · exact Or.inl (Or.inl hy)
      · exact Or.inl (Or.inr ⟨rfl, hy'⟩)
      · exact Or.inr ⟨hy, hy'⟩

/-- The arguments of a group of two calls. -/
theorem initArgs_pair :
    (GroupOp.initArgs h [a, c]).Nodup ∧ ∀ y, y ∈ GroupOp.initArgs h [a, c] ↔
      (y ∈ GroupOp.callArgs h a ∨ y ∈ GroupOp.callArgs h c) ∧ FromOutside h [a, c] y := by
  obtain ⟨h1, h2⟩ := foldl_addArg (h := h) (l := GroupOp.callArgs h a) List.nodup_nil
  obtain ⟨h3, h4⟩ := foldl_addArg (h := h) (l := GroupOp.callArgs h c) h1
  refine ⟨h3, fun y => (h4 y).trans ?_⟩
  rw [h2, or_and_right]
  simp

/-- The arguments of a group of two calls of `main`, producer first. -/
theorem group_initArgs (hm : Main h ps b) (hne : a ≠ c) (hca : IsCall h a) (hcc : IsCall h c)
    (hra : Reach h b a) (hrc : Reach h b c)
    (hcons : ∀ y ∈ GroupOp.callArgs h a, y ≠ c ∧ ∀ k, h[y]? ≠ some (.tupleGetItem c k)) :
    Group h ps b (GroupOp.initArgs h [a, c]) a c := by
  obtain ⟨hnodup, hmem⟩ := initArgs_pair (h := h) (a := a) (c := c)
  have harg {z y : Nat} (hz : Reach h b z) (hcz : IsCall h z) (hy : y ∈ GroupOp.callArgs h z) :
      Reach h b y ∧ typeOf h y = .tensor ∧ y < z := by
    obtain ⟨callee, args, hget⟩ := hcz
    rw [callArgs_call hget] at hy
    exact ⟨hz.tail ⟨_, hget, hy⟩, (((hm.typed hz).call hget).2 y hy).2, wf_arg hm.wf hget hy⟩
  -- a call takes neither itself nor its own projections
  have hself {z y : Nat} (hz : Reach h b z) (hcz : IsCall h z) (hy : y ∈ GroupOp.callArgs h z) :
      y ≠ z ∧ ∀ k, h[y]? ≠ some (.tupleGetItem z k) := by
    obtain ⟨-, -, hlt⟩ := harg hz hcz hy
    refine ⟨by omega, fun k hk => ?_⟩
    have := wf_item hm.wf hk
    omega
  refine ⟨hm, hne, hca, hcc, hra, hrc, hnodup, fun y hy => ?_, fun y hy => ((hmem y).mp hy).1,
    fun y hy => ?_, fun y hy => ?_⟩
  · obtain ⟨hyargs, hng, hitem⟩ := (hmem y).mp hy
    simp only [List.mem_cons, List.not_mem_nil, or_false, not_or] at hng hitem
    rcases hyargs with hya | hyc
    · obtain ⟨h1, h2, -⟩ := harg hra hca hya
      exact ⟨h1, h2, hng.1, hng.2, hitem⟩
    · obtain ⟨h1, h2, -⟩ := harg hrc hcc hyc
      exact ⟨h1, h2, hng.1, hng.2, hitem⟩
  · rw [hmem]
    obtain ⟨h1, h2⟩ := hself hra hca hy
    obtain ⟨h3, h4⟩ := hcons y hy
    refine ⟨Or.inl hy, by simp [h1, h3], fun t k hk ht => ?_⟩
    rcases List.mem_cons.mp ht with rfl | ht
    · exact h2 k hk
    · obtain rfl : t = c := by simpa using ht
      exact h4 k hk
  · by_cases hya : y = a
    · exact Or.inr (Or.inl hya)
    by_cases hyk : ∃ k, h[y]? = some (.tupleGetItem a k)
    · exact Or.inr (Or.inr hyk)
    obtain ⟨h1, h2⟩ := hself hrc hcc hy
    refine Or.inl ((hmem y).mpr ⟨Or.inr hy, by simp [hya, h1], fun t k hk ht => ?_⟩)
    rcases List.mem_cons.mp ht with rfl | ht
    · exact hyk ⟨k, hk⟩
    · obtain rfl : t = c := by simpa using ht
      exact h2 k hk

/-- The parameters are new variables. -/
theorem makeParams_spec (hw : Wf h) (n index : Nat) :
    Extends h (GroupOp.makeParams n index h).2 ∧
      (GroupOp.makeParams n index h).1 = List.range' h.length n ∧
      ∀ p ∈ (GroupOp.makeParams n index h).1, IsVar (GroupOp.makeParams n index h).2 p := by
  induction n generalizing index h with
  | zero => exact ⟨Extends.refl hw, rfl, by simp [GroupOp.makeParams]⟩
  | succ n ih =>
    have hw' : Wf (h ++ [.var ("p" ++ toString index)]) := wf_append hw (by simp [Node.refs])
    obtain ⟨he, hps, hv⟩ := ih hw' (index + 1)
    refine ⟨⟨(List.prefix_append _ _).trans he.ext, he.wf⟩, ?_, fun p hp => ?_⟩
    · rw [List.range'_succ]
      simpa [GroupOp.makeParams, GroupOp.alloc] using hps
    · rcases List.mem_cons.mp hp with rfl | hp
      · exact ⟨_, get_ext he.ext (List.getElem?_concat_length ..)⟩
      · exact hv p hp

/-- A group rewritten over the parameters that stand for its arguments. -/
structure Cast (h h' : Heap) (ps A params : List Nat) (a c a' c' : Nat) : Prop where
  pair : Pair h' params a' c'
  nodup : params.Nodup
  length : params.length = A.length
  new : ∀ p ∈ params, h.length ≤ p
  typeA : typeOf h' a' = typeOf h a
  typeC : typeOf h' c' = typeOf h c
  value : ∀ (V : Type) (I : Interp V) (σ : Env V), Binds h ps σ →
    value I h' (bindParams params (A.map (value I h σ))) a' = value I h σ a ∧
    value I h' (bindParams params (A.map (value I h σ))) c' = value I h σ c

section Cast

variable {h₁ h₂ : Heap} {params : List Nat} {ret : Nat}

/-- The heap with the parameters, and the expression to rewrite: the consumer or the tuple of both
calls. -/
structure CastInput (h h₁ h₂ : Heap) (A params : List Nat) (a c ret : Nat) : Prop where
  ext₁ : Extends h h₁
  ext₂ : Extends h₁ h₂
  params_eq : params = List.range' h₁.length A.length
  isVar : ∀ p ∈ params, IsVar h₂ p
  ret : ret = c ∨ h.length ≤ ret ∧ h₁[ret]? = some (.tuple [a, c])

theorem CastInput.new (hi : CastInput h h₁ h₂ A params a c ret) {p : Nat} (hp : p ∈ params) :
    h₁.length ≤ p := by
  rw [hi.params_eq, List.mem_range'_1] at hp
  exact hp.1

theorem CastInput.ret_lt (hi : CastInput h h₁ h₂ A params a c ret) (hc : c < h.length) :
    ret < h₁.length := by
  rcases hi.ret with rfl | ⟨-, hget⟩
  · exact hc.trans_le hi.ext₁.ext.length_le
  · exact lt_of_get hget

theorem cast_region (hg : Group h ps b A a c) (hi : CastInput h h₁ h₂ A params a c ret) :
    Region (ReplaceMap.get (A.zip params)) h₂ (fun _ => none)
      (fun x => Reach h b x ∨ x ∈ params ∨ x = ret) (fun x => Reach h b x ∨ x = ret) := by
  have hm := hg.main
  have he := hi.ext₁.trans hi.ext₂
  have hlt {x : Nat} (hx : Reach h b x) : x < h.length := (hm.typed hx).lt
  have htyped {x : Nat} (hx : Reach h b x) : Typed h₂ (Callable h₂) (IsCall h₂) ps x :=
    (hm.typed hx).mono hm.wf he.ext (fun _ _ hf => hf.ext hm.wf he.ext) (fun _ hc => hc.ext he.ext)
      (fun _ hp => hp)
  have hpar {p : Nat} (hp : p ∈ params) : ¬ Reach h b p ∧ p ≠ ret := by
    have h1 := hi.new hp
    have h2 := hi.ext₁.ext.length_le
    refine ⟨fun hr => ?_, ?_⟩
    · have := hlt hr
      omega
    · have := hi.ret_lt (hlt hg.reachC)
      omega
  have hret {n : Node} (hn : h₂[ret]? = some n) : Reach h b ret ∨ n = .tuple [a, c] := by
    rcases hi.ret with rfl | ⟨-, hget⟩
    · exact Or.inl hg.reachC
    · exact Or.inr (Option.some.inj (hn.symm.trans (get_ext hi.ext₂.ext hget)))
  have hget {x : Nat} (hx : Reach h b x) : h₂[x]? = h[x]? := get_ext_iff he.ext (hlt hx)
  refine ⟨?_, ?_, ?_, ?_, ?_, ?_, ?_⟩
  · rintro x (hx | hx | rfl)
    · exact (htyped hx).not_function
    · obtain ⟨name, hv⟩ := hi.isVar x hx
      exact ⟨_, hv, by simp⟩
    · rcases hi.ret with rfl | ⟨-, hget⟩
      · exact (htyped hg.reachC).not_function
      · exact ⟨_, get_ext hi.ext₂.ext hget, by simp⟩
  · intro x n y hx _ _ hn hy
    have hreach (hx : Reach h b x) : Reach h b y := hx.tail ⟨n, by rw [← hget hx]; exact hn, hy⟩
    rcases hx with hx | hx | rfl
    · exact ⟨Or.inl (hreach hx), fun _ => Or.inl hx⟩
    · obtain ⟨name, hv⟩ := hi.isVar x hx
      obtain rfl := Option.some.inj (hv.symm.trans hn)
      simp [Node.deps] at hy
    · refine ⟨Or.inl ?_, fun _ => Or.inr rfl⟩
      rcases hret hn with hr | rfl
      · exact hreach hr
      · obtain rfl | rfl : y = a ∨ y = c := by simpa [Node.deps] using hy
        · exact hg.reachA
        · exact hg.reachC
  · intro x y hx _ _ hrep
    obtain ⟨hxA, hyp⟩ := zip_get_mem hrep
    obtain ⟨h1, h2⟩ := hpar hyp
    exact ⟨Or.inr (Or.inl hyp), Or.inl (hg.outside x hxA).1, fun hl => hl.elim h1 h2⟩
  · intro x fields _ hx
    cases hrep : ReplaceMap.get (A.zip params) x with
    | none => rfl
    | some y =>
      obtain ⟨hr, hty, -⟩ := hg.outside x (zip_get_mem hrep).1
      rw [hget hr] at hx
      simp [typeOf_tuple hx] at hty
  · intro x y hrep
    obtain ⟨name, hv⟩ := hi.isVar y (zip_get_mem hrep).2
    exact lt_of_get hv
  · rintro z f args (hz | hz | rfl) hcall
    · exact ((htyped hz).call hcall).1 f rfl
    · obtain ⟨name, hv⟩ := hi.isVar z hz
      simp [hcall] at hv
    · rcases hret hcall with hr | hno
      · exact ((htyped hr).call hcall).1 f rfl
      · simp at hno
  · rintro x ⟨z, f, args, hz, hcall, hin⟩
    have hz' : Reach h b z := by
      rcases hz with hz | hz | rfl
      · exact hz
      · obtain ⟨name, hv⟩ := hi.isVar z hz
        simp [hcall] at hv
      · rcases hret hcall with hr | hno
        · exact hr
        · simp at hno
    have hcall' : h[z]? = some (.call (.func f) args) := by rw [← hget hz']; exact hcall
    obtain ⟨qs, body, tag, hok⟩ := ((hm.typed hz').call hcall').1 f rfl
    have hin' : InFunc h f x := hin.of_ext hm.wf he.ext (lt_of_get hok.node)
    have hapart : ¬ Reach h b x := fun hr =>
      hm.apart x (Or.inr hr) ⟨z, f, args, hz', hcall', hin'⟩
    have hxlt := hin'.lt hm.wf hok
    refine ⟨?_, rfl, fun hl => hl.elim hapart ?_⟩
    · cases hrep : ReplaceMap.get (A.zip params) x with
      | none => rfl
      | some y => exact absurd (hg.outside x (zip_get_mem hrep).1).1 hapart
    · rintro rfl
      rcases hi.ret with rfl | ⟨hle, -⟩
      · exact hapart hg.reachC
      · omega

/-- The environment of `main` together with the parameters. -/
def castEnv {V : Type} (I : Interp V) (h : Heap) (σ : Env V) (A params : List Nat) : Env V :=
  fun x => if x ∈ params then bindParams params (A.map (value I h σ)) x else σ x

theorem CastInput.length_eq (hi : CastInput h h₁ h₂ A params a c ret) :
    params.length = A.length := by
  rw [hi.params_eq, List.length_range']

theorem CastInput.nodup (hi : CastInput h h₁ h₂ A params a c ret) : params.Nodup := by
  rw [hi.params_eq]
  exact List.nodup_range'

theorem CastInput.not_param (hi : CastInput h h₁ h₂ A params a c ret) (hx : x < h.length) :
    x ∉ params := by
  intro hp
  have := hi.new hp
  have := hi.ext₁.ext.length_le
  omega

theorem replaced_iff (hi : CastInput h h₁ h₂ A params a c ret) (hn : A.Nodup) :
    ReplaceMap.get (A.zip params) x ≠ none ↔ x ∈ A := by
  constructor
  · intro hne
    obtain ⟨y, hy⟩ := Option.ne_none_iff_exists'.mp hne
    exact (zip_get_mem hy).1
  · intro hx
    obtain ⟨i, hi'⟩ := List.mem_iff_getElem?.mp hx
    obtain ⟨p, -, hrep⟩ := zip_get hn hi.length_eq.symm hi'
    simp [hrep]

section Env

variable {V : Type} {I : Interp V} {σ : Env V}

theorem castEnv_varEnv (hi : CastInput h h₁ h₂ A params a c ret) (hσ : Binds h ps σ) :
    VarEnv h₂ (castEnv I h σ A params) := by
  intro x hx
  unfold castEnv at hx
  split at hx
  · exact hi.isVar x ‹_›
  · exact (hσ.vars x hx).ext (hi.ext₁.trans hi.ext₂).ext

/-- The parameters do not change the values of the expressions of `main`. -/
theorem value_castEnv (hg : Group h ps b A a c) (hi : CastInput h h₁ h₂ A params a c ret)
    (hσ : Binds h ps σ) (hx : Reach h b x) :
    value I h₂ (castEnv I h σ A params) x = value I h σ x := by
  have hm := hg.main
  have he := hi.ext₁.trans hi.ext₂
  have ht : Typed h₂ (Callable h₂) (IsCall h₂) ps x :=
    (hm.typed hx).mono hm.wf he.ext (fun _ _ hf => hf.ext hm.wf he.ext) (fun _ hc => hc.ext he.ext)
      (fun _ hp => hp)
  rw [← value_ext hm.wf he.ext (hm.typed hx).lt σ]
  refine value_congr he.wf (castEnv_varEnv hi hσ) (hσ.vars.ext he.ext)
    (fun p hp => if_neg (hi.not_param ?_)) ht (fun _ _ hf => hf)
  obtain ⟨name, hv⟩ := hm.vars p hp
  exact lt_of_get hv

/-- The parameter that stands for an argument. -/
theorem cast_param (hi : CastInput h h₁ h₂ A params a c ret) (hn : A.Nodup) (hx : x ∈ A)
    (I : Interp V) (σ : Env V) : ∃ p, p ∈ params ∧ ReplaceMap.get (A.zip params) x = some p ∧
      bindParams params (A.map (value I h σ)) p = some (value I h σ x) := by
  obtain ⟨i, hi'⟩ := List.mem_iff_getElem?.mp hx
  obtain ⟨p, hp, hrep⟩ := zip_get hn hi.length_eq.symm hi'
  refine ⟨p, List.mem_of_getElem? hp, hrep, ?_⟩
  exact bindParams_get hi.nodup (by simpa using hi.length_eq) hp (by rw [List.getElem?_map, hi']; rfl)

/-- An expression that becomes a parameter. -/
theorem param_image {s : Mutation} {p : Nat} {v : List V}
    (hi : CastInput h h₁ h₂ A params a c ret)
    (hs : Rebuild (ReplaceMap.get (A.zip params)) h₂ (fun _ => none) s) (hp : p ∈ params)
    (hty : typeOf h₂ x = .tensor) (hv : bindParams params (A.map (value I h σ)) p = some v)
    (hxv : value I h₂ (castEnv I h σ A params) x = v) :
    Image I h₂ s (Callable s.heap) (IsCall s.heap) params (castEnv I h σ A params)
      (bindParams params (A.map (value I h σ))) x p := by
  obtain ⟨name, hvar⟩ := hi.isVar p hp
  refine ⟨?_, .var p name (get_ext hs.ext hvar) hp, (value_bound hv).trans hxv.symm⟩
  rw [typeOf_var (get_ext hs.ext hvar), hty]

/-- The expressions that the rewriting of a group goes through. -/
def InGroup (h : Heap) (A params : List Nat) (a c x : Nat) : Prop :=
  x = a ∨ x = c ∨ x ∈ A ∨ x ∈ params ∨ ∃ k, h[x]? = some (.tupleGetItem a k)

/-- What the rewriting makes of an expression of the group. -/
theorem cast_image {s : Mutation} {r : Nat}
    (hg : Group h ps b A a c) (hi : CastInput h h₁ h₂ A params a c ret)
    (hs : Rebuild (ReplaceMap.get (A.zip params)) h₂ (fun _ => none) s) (hσ : Binds h ps σ)
    (hx : InGroup h A params a c x) (hxb : Reach h b x) (hr : s.memo x = some r) :
    typeOf s.heap r = typeOf h x ∧ Typed s.heap (Callable s.heap) (IsCall s.heap) params r ∧
      value I s.heap (bindParams params (A.map (value I h σ))) r = value I h σ x := by
  have hm := hg.main
  have he := hi.ext₁.trans hi.ext₂
  have hlt {x : Nat} (hx : Reach h b x) : x < h.length := (hm.typed hx).lt
  have hget {x : Nat} (hx : Reach h b x) : h₂[x]? = h[x]? := get_ext_iff he.ext (hlt hx)
  have htyped : Typed h₂ (Callable h₂) (IsCall h₂) (ps ++ params) x :=
    (hm.typed hxb).mono hm.wf he.ext (fun _ _ hf => hf.ext hm.wf he.ext)
      (fun _ hc => hc.ext he.ext) (fun _ hp => List.mem_append_left _ hp)
  have hAtype {x : Nat} (hx : x ∈ A) : typeOf h₂ x = .tensor := by
    obtain ⟨hr, hty, -⟩ := hg.outside x hx
    rw [typeOf_ext hm.wf he.ext (hlt hr), hty]
  have hcall {x y : Nat} {n : Node} (hx : Reach h b x) (hcx : IsCall h x) (hn : h₂[x]? = some n)
      (hy : y ∈ n.deps) : y ∈ GroupOp.callArgs h x ∧ Reach h b y := by
    obtain ⟨callee, args, hcx⟩ := hcx
    rw [hget hx] at hn
    obtain rfl := Option.some.inj (hcx.symm.trans hn)
    exact ⟨by rw [callArgs_call hcx]; exact hy, hx.tail ⟨_, hcx, hy⟩⟩
  have hitemget {x k : Nat} (hk : h[x]? = some (.tupleGetItem a k)) :
      h₂[x]? = some (.tupleGetItem a k) := get_ext he.ext hk
  have himage : Image I h₂ s (Callable s.heap) (IsCall s.heap) params (castEnv I h σ A params)
      (bindParams params (A.map (value I h σ))) x r := by
    refine (cast_region hg hi).image he.wf hs
      (P := fun x => InGroup h A params a c x ∧ (Reach h b x ∨ x ∈ params))
      (fun x hx => hx.2.imp id Or.inl) ?_ ?_ (fun _ _ _ hno => by simp at hno) ?_ ?_
      (castEnv_varEnv hi hσ) (varEnv_bindParams fun p hp => (hi.isVar p hp).ext hs.ext)
      ⟨hx, Or.inl hxb⟩ htyped hr
    · rintro x n y ⟨hx, -⟩ - hrep hn hy
      rcases hx with rfl | rfl | hx | hx | ⟨k, hk⟩
      · obtain ⟨h1, h2⟩ := hcall hg.reachA hg.callA hn hy
        exact ⟨Or.inr (Or.inr (Or.inl (hg.argsA y h1))), Or.inl h2⟩
      · obtain ⟨h1, h2⟩ := hcall hg.reachC hg.callC hn hy
        refine ⟨?_, Or.inl h2⟩
        rcases hg.argsC y h1 with hA | rfl | hk
        · exact Or.inr (Or.inr (Or.inl hA))
        · exact Or.inl rfl
        · exact Or.inr (Or.inr (Or.inr (Or.inr hk)))
      · exact absurd hrep ((replaced_iff hi hg.nodup).mpr hx)
      · obtain ⟨name, hv⟩ := hi.isVar x hx
        obtain rfl := Option.some.inj (hv.symm.trans hn)
        simp [Node.deps] at hy
      · obtain rfl := Option.some.inj ((hitemget hk).symm.trans hn)
        obtain rfl : y = a := by simpa [Node.deps] using hy
        exact ⟨Or.inl rfl, Or.inl hg.reachA⟩
    · rintro x y - - - hrep
      obtain ⟨hxA, hyp⟩ := zip_get_mem hrep
      obtain ⟨p, hp, hrep', hval⟩ := cast_param hi hg.nodup hxA I σ
      obtain rfl := Option.some.inj (hrep.symm.trans hrep')
      obtain ⟨name, hv⟩ := hi.isVar y hyp
      refine ⟨⟨Or.inr (Or.inr (Or.inr (Or.inl hyp))), Or.inr hyp⟩,
        .var y name hv (List.mem_append_right _ hyp), by rw [typeOf_var hv, hAtype hxA], ?_⟩
      rw [value_castEnv hg hi hσ (hg.outside x hxA).1]
      exact value_bound (by rw [castEnv, if_pos hyp, hval])
    · rintro x name ⟨hx, -⟩ - hvar -
      by_cases hxA : x ∈ A
      · obtain ⟨p, hp, hrep, hval⟩ := cast_param hi hg.nodup hxA I σ
        rw [hrep, Option.getD_some]
        exact param_image hi hs hp (hAtype hxA) hval (value_castEnv hg hi hσ (hg.outside x hxA).1)
      · have hxp : x ∈ params := by
          rcases hx with rfl | rfl | hx | hx | ⟨k, hk⟩
          · obtain ⟨callee, args, hc⟩ := hg.callA
            simp [get_ext he.ext hc] at hvar
          · obtain ⟨callee, args, hc⟩ := hg.callC
            simp [get_ext he.ext hc] at hvar
          · exact absurd hx hxA
          · exact hx
          · simp [hitemget hk] at hvar
        have hrep := not_not.mp (mt (replaced_iff (x := x) hi hg.nodup).mp hxA)
        have hlen : params.length = (A.map (value I h σ)).length := by simpa using hi.length_eq
        obtain ⟨i, v, -, -, hval⟩ := bindParams_mem hi.nodup hlen hxp
        rw [hrep, Option.getD_none]
        exact param_image hi hs hxp (typeOf_var hvar) hval
          (value_bound (by rw [castEnv, if_pos hxp, hval]))
    · rintro x t k t' ⟨hx, -⟩ - hrep hitem - ht'
      have hta : t = a := by
        rcases hx with rfl | rfl | hx | hx | ⟨j, hj⟩
        · obtain ⟨callee, args, hc⟩ := hg.callA
          simp [get_ext he.ext hc] at hitem
        · obtain ⟨callee, args, hc⟩ := hg.callC
          simp [get_ext he.ext hc] at hitem
        · exact absurd hrep ((replaced_iff hi hg.nodup).mpr hx)
        · obtain ⟨name, hv⟩ := hi.isVar x hx
          simp [hitem] at hv
        · have heq : a = t ∧ j = k := by simpa [hitem] using (hitemget hj).symm
          exact heq.1.symm
      subst hta
      have hnA : t ∉ A := fun hA => (hg.outside t hA).2.2.1 rfl
      exact isCall_image hs (not_not.mp (mt (replaced_iff (x := t) hi hg.nodup).mp hnA)) rfl
        (hg.callA.ext he.ext) ht'
  refine ⟨himage.type.trans (typeOf_ext hm.wf he.ext (hlt hxb)), himage.typed, ?_⟩
  rw [himage.value, value_castEnv hg hi hσ hxb]

end Env

/-- An argument of a rewritten call comes from an argument of the call. -/
theorem arg_origin {s : Mutation} {x x' y' : Nat}
    (hs : Rebuild (ReplaceMap.get (A.zip params)) h₂ (fun _ => none) s) (he : h <+: h₂)
    (hx : IsCall h x) (hrep : ReplaceMap.get (A.zip params) x = none) (hr : s.memo x = some x')
    (hy : y' ∈ GroupOp.callArgs s.heap x') :
    ∃ y ∈ GroupOp.callArgs h x, s.memo y = some y' := by
  obtain ⟨callee, args, hget⟩ := hx
  have hreb := hs.rebuilt hr rfl (get_ext he hget)
  simp only [Rebuilt, hrep] at hreb
  obtain ⟨callee', args', hget', -, hargs⟩ := hreb
  rw [callArgs_call hget'] at hy
  rw [callArgs_call hget]
  exact forall₂_mem hargs hy

/-- The image of an argument is its parameter. -/
theorem outside_image {s : Mutation} {y y' : Nat} (hg : Group h ps b A a c)
    (hi : CastInput h h₁ h₂ A params a c ret)
    (hs : Rebuild (ReplaceMap.get (A.zip params)) h₂ (fun _ => none) s) (hy : y ∈ A)
    (hr : s.memo y = some y') : y' ∈ params := by
  have he := hi.ext₁.trans hi.ext₂
  obtain ⟨p, hp, hrep, -⟩ := cast_param hi hg.nodup hy unitInterp (fun _ => none)
  obtain ⟨name, hpv⟩ := hi.isVar p hp
  have hpA : p ∉ A := fun hA => hi.not_param (hg.main.typed (hg.outside p hA).1).lt hp
  have hpkept := not_not.mp (mt (replaced_iff (x := p) hi hg.nodup).mp hpA)
  have hpself {q : Nat} (hq : s.memo p = some q) : q = p :=
    var_image hs ⟨name, hpv⟩ hpkept rfl hq
  obtain ⟨n, hn⟩ := get_of_lt (hg.main.typed (hg.outside y hy).1).lt
  have hreb := hs.rebuilt hr rfl (get_ext he.ext hn)
  have hty := (hg.outside y hy).2.1
  cases n with
  | var =>
    simp only [Rebuilt, hrep, Option.getD_some] at hreb
    rw [hreb]
    exact hp
  | call =>
    simp only [Rebuilt, hrep] at hreb
    rw [hpself hreb]
    exact hp
  | tuple => simp [typeOf_tuple hn] at hty
  | tupleGetItem =>
    simp only [Rebuilt, hrep] at hreb
    rw [hpself hreb]
    exact hp
  | function =>
    obtain ⟨m, hm, hnf⟩ := (hg.main.typed (hg.outside y hy).1).not_function
    exact absurd (Option.some.inj (hm.symm.trans hn)) (hnf _ _ _)

/-- The rewritten group is a group over the parameters. -/
theorem cast_pair {s : Mutation} {a' c' : Nat} (hg : Group h ps b A a c)
    (hi : CastInput h h₁ h₂ A params a c ret)
    (hs : Rebuild (ReplaceMap.get (A.zip params)) h₂ (fun _ => none) s)
    (ha : s.memo a = some a') (hc : s.memo c = some c') : Pair s.heap params a' c' := by
  have he := hi.ext₁.trans hi.ext₂
  have hσ := binds_unitEnv hg.main.vars
  have hkept {x : Nat} (hx : x ∉ A) : ReplaceMap.get (A.zip params) x = none :=
    not_not.mp (mt (replaced_iff (x := x) hi hg.nodup).mp hx)
  have hrepa := hkept fun hA => (hg.outside a hA).2.2.1 rfl
  have hrepc := hkept fun hA => (hg.outside c hA).2.2.2.1 rfl
  have hcalla := hg.callA.ext he.ext
  have hcallc := hg.callC.ext he.ext
  refine ⟨fun p hp => (hi.isVar p hp).ext hs.ext, ?_, isCall_image hs hrepa rfl hcalla ha,
    isCall_image hs hrepc rfl hcallc hc,
    (cast_image (I := unitInterp) hg hi hs hσ (Or.inl rfl) hg.reachA ha).2.1,
    (cast_image (I := unitInterp) hg hi hs hσ (Or.inr (Or.inl rfl)) hg.reachC hc).2.1, ?_, ?_⟩
  · rintro rfl
    obtain ⟨ca, asa, hgeta⟩ := hcalla
    obtain ⟨cc, asc, hgetc⟩ := hcallc
    exact hg.ne (hs.inj a c a' _ _ ha hc rfl rfl hgeta hgetc hrepa hrepc)
  · intro y' hy'
    obtain ⟨y, hy, hr⟩ := arg_origin hs he.ext hg.callA hrepa ha hy'
    exact outside_image hg hi hs (hg.argsA y hy) hr
  · intro y' hy'
    obtain ⟨y, hy, hr⟩ := arg_origin hs he.ext hg.callC hrepc hc hy'
    by_cases hyA : y ∈ A
    · exact Or.inl (outside_image hg hi hs hyA hr)
    rcases hg.argsC y hy with hA | rfl | ⟨k, hk⟩
    · exact absurd hA hyA
    · exact Or.inr (Or.inl (Option.some.inj (hr.symm.trans ha)))
    · have hk₂ := get_ext he.ext hk
      have hreb := hs.rebuilt hr rfl hk₂
      simp only [Rebuilt, hkept hyA] at hreb
      obtain ⟨t', ht', hcase⟩ := hreb
      obtain rfl := Option.some.inj (ht'.symm.trans ha)
      refine Or.inr (Or.inr ⟨k, ?_⟩)
      rcases hcase with ⟨rfl, rfl⟩ | ⟨-, hget⟩
      · exact get_ext hs.ext hk₂
      · exact hget

end Cast

theorem forall₂_mem_left {R : Nat → Nat → Prop} {as as' : List Nat}
    (hf : List.Forall₂ R as as') (hx : x ∈ as) : ∃ y ∈ as', R x y :=
  forall₂_mem (R := fun y x => R x y) hf.flip hx

/-- The consumer of a group uses a result of the producer. -/
def Uses (h : Heap) (a c : Nat) : Prop :=
  ∃ y ∈ GroupOp.callArgs h c, y = a ∨ ∃ k, h[y]? = some (.tupleGetItem a k)

/-- The rewriting of a consumer also rewrites its producer. -/
theorem cast_producer {h₁ h₂ : Heap} {params : List Nat} {s : Mutation} {ret c' : Nat}
    (hg : Group h ps b A a c) (hi : CastInput h h₁ h₂ A params a c ret)
    (hs : Rebuild (ReplaceMap.get (A.zip params)) h₂ (fun _ => none) s) (hu : Uses h a c)
    (hc : s.memo c = some c') : ∃ a', s.memo a = some a' := by
  have he := hi.ext₁.trans hi.ext₂
  have hkept {x : Nat} (hx : x ∉ A) : ReplaceMap.get (A.zip params) x = none :=
    not_not.mp (mt (replaced_iff (x := x) hi hg.nodup).mp hx)
  obtain ⟨callee, args, hget⟩ := hg.callC
  have hreb := hs.rebuilt hc rfl (get_ext he.ext hget)
  simp only [Rebuilt, hkept fun hA => (hg.outside c hA).2.2.2.1 rfl] at hreb
  obtain ⟨callee', args', -, -, hargs⟩ := hreb
  obtain ⟨y, hy, hcase⟩ := hu
  rw [callArgs_call hget] at hy
  obtain ⟨y', -, hy'⟩ := forall₂_mem_left hargs hy
  rcases hcase with rfl | ⟨k, hk⟩
  · exact ⟨y', hy'⟩
  · have hyA : y ∉ A := fun hA => ((hg.outside y hA).2.2.2.2 a k hk).1 rfl
    have hreb := hs.rebuilt hy' rfl (get_ext he.ext hk)
    simp only [Rebuilt, hkept hyA] at hreb
    obtain ⟨t', ht', -⟩ := hreb
    exact ⟨t', ht'⟩

/-- The run of `cast_param` on the consumer or on the tuple of both calls. -/
theorem castParam_run {h₁ : Heap} {ret : Nat} (hg : Group h ps b A a c) (he : Extends h h₁)
    (hret : ret = c ∧ Uses h a c ∨ h.length ≤ ret ∧ h₁[ret]? = some (.tuple [a, c])) :
    ∃ params r a' c' h₂ s, GroupOp.castParam A ret h₁ = some (params, r, s.heap) ∧
      CastInput h h₁ h₂ A params a c ret ∧
      Rebuild (ReplaceMap.get (A.zip params)) h₂ (fun _ => none) s ∧
      s.memo a = some a' ∧ s.memo c = some c' ∧
      (ret = c ∧ r = c' ∨ h.length ≤ ret ∧ s.heap[r]? = some (.tuple [a', c'])) := by
  obtain ⟨he₂, hparams, hvars⟩ := makeParams_spec he.wf A.length 0
  have hmk : GroupOp.makeParams A.length 0 h₁ =
      ((GroupOp.makeParams A.length 0 h₁).1, (GroupOp.makeParams A.length 0 h₁).2) := rfl
  generalize (GroupOp.makeParams A.length 0 h₁).1 = params at *
  generalize (GroupOp.makeParams A.length 0 h₁).2 = h₂ at *
  have hi : CastInput h h₁ h₂ A params a c ret :=
    ⟨he, he₂, hparams, hvars, hret.imp And.left id⟩
  obtain ⟨r, s, hrun, hs, hr⟩ := (cast_region hg hi).run he₂.wf (by simp) (x := ret)
    (Or.inr (Or.inr rfl))
  have hcast : GroupOp.castParam A ret h₁ = some (params, r, s.heap) := by
    simp [GroupOp.castParam, hmk, replaceParams, Mutation.start, hrun]
  rcases hret with ⟨rfl, hu⟩ | ⟨hle, ht⟩
  · obtain ⟨a', ha'⟩ := cast_producer hg hi hs hu hr
    exact ⟨params, r, a', r, h₂, s, hcast, hi, hs, ha', hr, Or.inl ⟨rfl, rfl⟩⟩
  · obtain ⟨fields, hget, hfields⟩ := hs.rebuilt hr rfl (get_ext he₂.ext ht)
    cases hfields with
    | cons ha hrest =>
      cases hrest with
      | cons hc hnil =>
        cases hnil
        exact ⟨params, r, _, _, h₂, s, hcast, hi, hs, ha, hc, Or.inr ⟨hle, hget⟩⟩

theorem castParam_spec {h₁ : Heap} {ret : Nat} (hg : Group h ps b A a c) (he : Extends h h₁)
    (hret : ret = c ∧ Uses h a c ∨ h.length ≤ ret ∧ h₁[ret]? = some (.tuple [a, c])) :
    ∃ params r a' c' h', GroupOp.castParam A ret h₁ = some (params, r, h') ∧ Extends h₁ h' ∧
      Cast h h' ps A params a c a' c' ∧
      (ret = c ∧ r = c' ∨ h.length ≤ ret ∧ h'[r]? = some (.tuple [a', c'])) := by
  obtain ⟨params, r, a', c', h₂, s, hrun, hi, hs, ha, hc, hcase⟩ := castParam_run hg he hret
  have hσ := binds_unitEnv hg.main.vars
  refine ⟨params, r, a', c', s.heap, hrun, ⟨hi.ext₂.ext.trans hs.ext, hs.wf⟩,
    ⟨cast_pair hg hi hs ha hc, hi.nodup, hi.length_eq, ?_, ?_, ?_, ?_⟩, hcase⟩
  · intro p hp
    exact he.ext.length_le.trans (hi.new hp)
  · exact (cast_image (I := unitInterp) hg hi hs hσ (Or.inl rfl) hg.reachA ha).1
  · exact (cast_image (I := unitInterp) hg hi hs hσ (Or.inr (Or.inl rfl)) hg.reachC hc).1
  · intro V I σ hσ
    exact ⟨(cast_image hg hi hs hσ (Or.inl rfl) hg.reachA ha).2.2,
      (cast_image hg hi hs hσ (Or.inr (Or.inl rfl)) hg.reachC hc).2.2⟩

end StencilGraph.Relay

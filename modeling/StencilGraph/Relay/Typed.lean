import StencilGraph.Relay.Value

namespace StencilGraph.Relay

def IsCall (h : Heap) (x : Nat) : Prop := ∃ c args, h[x]? = some (.call c args)

def IsVar (h : Heap) (x : Nat) : Prop := ∃ name, h[x]? = some (.var name)

/-- Well-typed expressions over the variables `ps`. A `Function` may be called when `callable` holds
of it and the number of arguments, a projection taken from `t` when `item t` holds. -/
inductive Typed (h : Heap) (callable : Nat → Nat → Prop) (item : Nat → Prop) (ps : List Nat) :
    Nat → Prop where
  | var (x : Nat) (name : String) (hx : h[x]? = some (.var name)) (hp : x ∈ ps) :
      Typed h callable item ps x
  | op (x : Nat) (name : String) (outputs : Nat) (args : List Nat)
      (hx : h[x]? = some (.call (.op name outputs) args))
      (ha : ∀ a ∈ args, Typed h callable item ps a) (ht : ∀ a ∈ args, typeOf h a = .tensor) :
      Typed h callable item ps x
  | func (x f : Nat) (args : List Nat) (hx : h[x]? = some (.call (.func f) args))
      (hf : callable f args.length) (ha : ∀ a ∈ args, Typed h callable item ps a)
      (ht : ∀ a ∈ args, typeOf h a = .tensor) : Typed h callable item ps x
  | tuple (x : Nat) (fields : List Nat) (hx : h[x]? = some (.tuple fields))
      (ha : ∀ a ∈ fields, Typed h callable item ps a) (ht : ∀ a ∈ fields, typeOf h a = .tensor) :
      Typed h callable item ps x
  | item (x t k n : Nat) (hx : h[x]? = some (.tupleGetItem t k)) (hi : item t)
      (ha : Typed h callable item ps t) (ht : typeOf h t = .tuple n) (hk : k < n) :
      Typed h callable item ps x

/-- No `Function` may be called. -/
def noCall (_ _ : Nat) : Prop := False

/-- Any expression of tuple type may be projected. -/
def anyItem (_ : Nat) : Prop := True

/-- A flat function of `n` parameters: its body applies stencil operators only. -/
structure FuncOk (h : Heap) (f n : Nat) (ps : List Nat) (b : Nat) (tag : List String) : Prop where
  node : h[f]? = some (.function ps b tag)
  length : ps.length = n
  nodup : ps.Nodup
  vars : ∀ p ∈ ps, IsVar h p
  body : Typed h noCall (IsCall h) ps b

def Callable (h : Heap) (f n : Nat) : Prop := ∃ ps b tag, FuncOk h f n ps b tag

variable {V : Type} {I : Interp V} {h h' : Heap} {callable callable' : Nat → Nat → Prop}
  {item item' : Nat → Prop} {ps ps' : List Nat} {x y : Nat} {σ σ' : Env V}

theorem Typed.lt (ht : Typed h callable item ps x) : x < h.length := by
  cases ht <;> exact lt_of_get ‹_›

theorem IsCall.ext (hp : h <+: h') (hc : IsCall h x) : IsCall h' x := by
  obtain ⟨c, args, hx⟩ := hc
  exact ⟨c, args, get_ext hp hx⟩

theorem IsVar.ext (hp : h <+: h') (hc : IsVar h x) : IsVar h' x := by
  obtain ⟨name, hx⟩ := hc
  exact ⟨name, get_ext hp hx⟩

/-- Typing survives new objects and weaker side conditions. -/
theorem Typed.mono (hw : Wf h) (hp : h <+: h') (hc : ∀ f n, callable f n → callable' f n)
    (hi : ∀ t, item t → item' t) (hps : ∀ p ∈ ps, p ∈ ps') (ht : Typed h callable item ps x) :
    Typed h' callable' item' ps' x := by
  have htype {a : Nat} {t : Ty} (ha : Typed h callable item ps a) (hta : typeOf h a = t) :
      typeOf h' a = t := (typeOf_ext hw hp ha.lt).trans hta
  induction ht with
  | var x name hx hp' => exact .var x name (get_ext hp hx) (hps _ hp')
  | op x name outputs args hx ha ht ih =>
    exact .op x name outputs args (get_ext hp hx) ih (fun a ha' => htype (ha a ha') (ht a ha'))
  | func x f args hx hf ha ht ih =>
    exact .func x f args (get_ext hp hx) (hc _ _ hf) ih (fun a ha' => htype (ha a ha') (ht a ha'))
  | tuple x fields hx ha ht ih =>
    exact .tuple x fields (get_ext hp hx) ih (fun a ha' => htype (ha a ha') (ht a ha'))
  | item x t k n hx hi' ha ht hk ih =>
    exact .item x t k n (get_ext hp hx) (hi t hi') ih (htype ha ht) hk

theorem FuncOk.ext (hw : Wf h) (hp : h <+: h') {f n b : Nat} {tag : List String}
    (hf : FuncOk h f n ps b tag) : FuncOk h' f n ps b tag :=
  ⟨get_ext hp hf.node, hf.length, hf.nodup, fun p hp' => (hf.vars p hp').ext hp,
    hf.body.mono hw hp (fun _ _ h => h) (fun _ h => h.ext hp) (fun _ h => h)⟩

theorem Callable.ext (hw : Wf h) (hp : h <+: h') {f n : Nat} (hf : Callable h f n) :
    Callable h' f n := by
  obtain ⟨ps, b, tag, hf⟩ := hf
  exact ⟨ps, b, tag, hf.ext hw hp⟩

/-- Only variables have given values. -/
def VarEnv (h : Heap) (σ : Env V) : Prop := ∀ x, σ x ≠ none → IsVar h x

theorem VarEnv.none_of_call (hσ : VarEnv h σ) {c : Callee} {args : List Nat}
    (hx : h[x]? = some (.call c args)) : σ x = none := by
  by_contra hne
  obtain ⟨name, hv⟩ := hσ x hne
  simp [hx] at hv

theorem VarEnv.none_of_tuple (hσ : VarEnv h σ) {fs : List Nat} (hx : h[x]? = some (.tuple fs)) :
    σ x = none := by
  by_contra hne
  obtain ⟨name, hv⟩ := hσ x hne
  simp [hx] at hv

theorem VarEnv.none_of_item (hσ : VarEnv h σ) {t k : Nat} (hx : h[x]? = some (.tupleGetItem t k)) :
    σ x = none := by
  by_contra hne
  obtain ⟨name, hv⟩ := hσ x hne
  simp [hx] at hv

theorem VarEnv.ext (hp : h <+: h') (hσ : VarEnv h σ) : VarEnv h' σ :=
  fun x hx => (hσ x hx).ext hp

theorem varEnv_bindParams {vals : List (List V)} (hv : ∀ p ∈ ps, IsVar h p) :
    VarEnv h (bindParams ps vals) := by
  intro x hx
  by_cases hp : x ∈ ps
  · exact hv x hp
  · exact absurd (bindParams_none hp) hx

/-- The values of closed expressions depend on their variables only. -/
theorem value_congr (hw : Wf h) (hσ : VarEnv h σ) (hσ' : VarEnv h σ') (hps : ∀ p ∈ ps, σ p = σ' p)
    (ht : Typed h callable item ps x) (hc : ∀ f n, callable f n → Callable h f n) :
    value I h σ x = value I h σ' x := by
  induction ht with
  | var x name hx hp =>
    have := hps x hp
    simp only [value, valueFuel, this, hx]
  | op x name outputs args hx ha ht ih =>
    rw [value_op hw (hσ.none_of_call hx) hx, value_op hw (hσ'.none_of_call hx) hx,
      List.flatMap_congr ih]
  | func x f args hx hf ha ht ih =>
    obtain ⟨qs, b, tag, hok⟩ := hc _ _ hf
    rw [value_func hw (hσ.none_of_call hx) hx hok.node,
      value_func hw (hσ'.none_of_call hx) hx hok.node, List.map_congr_left ih]
  | tuple x fields hx ha ht ih =>
    rw [value_tuple hw (hσ.none_of_tuple hx) hx, value_tuple hw (hσ'.none_of_tuple hx) hx,
      List.flatMap_congr ih]
  | item x t k n hx hi ha ht hk ih =>
    rw [value_item hw (hσ.none_of_item hx) hx, value_item hw (hσ'.none_of_item hx) hx, ih]

/-- The variables `ps`, and nothing else, are bound to one tensor each. -/
structure Binds (h : Heap) (ps : List Nat) (σ : Env V) : Prop where
  isVar : ∀ p ∈ ps, IsVar h p
  dom : ∀ x, σ x ≠ none → x ∈ ps
  one : ∀ p ∈ ps, ∃ v, σ p = some [v]

theorem Binds.vars (hb : Binds h ps σ) : VarEnv h σ := fun x hx => hb.isVar x (hb.dom x hx)

theorem Binds.ext (hp : h <+: h') (hb : Binds h ps σ) : Binds h' ps σ :=
  ⟨fun p hps => (hb.isVar p hps).ext hp, hb.dom, hb.one⟩

theorem Binds.of_ext (hv : ∀ p ∈ ps, IsVar h p) (hb : Binds h' ps σ) : Binds h ps σ :=
  ⟨hv, hb.dom, hb.one⟩

theorem binds_bindParams {vals : List (List V)} (hv : ∀ p ∈ ps, IsVar h p) (hn : ps.Nodup)
    (hl : ps.length = vals.length) (h1 : ∀ v ∈ vals, v.length = 1) :
    Binds h ps (bindParams ps vals) := by
  refine ⟨hv, fun x hx => ?_, fun p hp => ?_⟩
  · by_contra hp
    exact hx (bindParams_none hp)
  · obtain ⟨i, v, -, hi, hb⟩ := bindParams_mem hn hl hp
    obtain ⟨w, rfl⟩ := List.length_eq_one_iff.mp (h1 v (List.mem_of_getElem? hi))
    exact ⟨w, hb⟩

theorem length_flatMap_one {α : Type} {l : List α} {g : α → List V}
    (h1 : ∀ a ∈ l, (g a).length = 1) : (l.flatMap g).length = l.length := by
  induction l with
  | nil => rfl
  | cons a l ih =>
    simp only [List.flatMap_cons, List.length_append, List.length_cons]
    rw [h1 a (by simp), ih (fun b hb => h1 b (by simp [hb]))]
    omega

/-- A value has as many tensors as its type says, when this holds for function calls. -/
theorem value_length_of (hw : Wf h) (hb : Binds h ps σ) (ht : Typed h callable item ps x)
    (hc : ∀ f n, callable f n → ∃ qs b tag, FuncOk h f n qs b tag ∧
      ∀ τ : Env V, Binds h qs τ → (value I h τ b).length = (typeOf h b).width) :
    (value I h σ x).length = (typeOf h x).width := by
  induction ht with
  | var x name hx hp =>
    obtain ⟨v, hv⟩ := hb.one x hp
    rw [value_bound hv, typeOf_var hx]
    rfl
  | op x name outputs args hx ha ht ih =>
    rw [value_op hw (hb.vars.none_of_call hx) hx, typeOf_op hx, I.length_apply]
    split
    · rename_i h1
      rw [h1]
      rfl
    · rfl
  | func x f args hx hf ha ht ih =>
    obtain ⟨qs, b, tag, hok, hlen⟩ := hc _ _ hf
    rw [value_func hw (hb.vars.none_of_call hx) hx hok.node, typeOf_func hw hx hok.node]
    apply hlen
    refine binds_bindParams hok.vars hok.nodup (by rw [List.length_map, hok.length]) ?_
    intro v hv
    obtain ⟨a, haa, rfl⟩ := List.mem_map.mp hv
    rw [ih a haa, ht a haa]
    rfl
  | tuple x fields hx ha ht ih =>
    rw [value_tuple hw (hb.vars.none_of_tuple hx) hx, typeOf_tuple hx]
    exact length_flatMap_one fun a haa => by rw [ih a haa, ht a haa]; rfl
  | item x t k n hx hi ha ht hk ih =>
    rw [value_item hw (hb.vars.none_of_item hx) hx, typeOf_item hx]
    have hlt : k < (value I h σ t).length := by
      rw [ih, ht]
      exact hk
    rw [List.getElem?_eq_getElem hlt]
    rfl

theorem value_length (hw : Wf h) (hb : Binds h ps σ) (ht : Typed h callable item ps x)
    (hc : ∀ f n, callable f n → Callable h f n) :
    (value I h σ x).length = (typeOf h x).width := by
  refine value_length_of hw hb ht fun f n hf => ?_
  obtain ⟨qs, b, tag, hok⟩ := hc f n hf
  exact ⟨qs, b, tag, hok, fun τ hτ => value_length_of hw hτ hok.body (fun _ _ hno => hno.elim)⟩

/-- `y` is used, directly or through other expressions, to compute `x`. -/
def Reach (h : Heap) : Nat → Nat → Prop :=
  Relation.ReflTransGen fun x y => ∃ n, h[x]? = some n ∧ y ∈ n.deps

theorem reach_dep {n : Node} {z : Nat} (hx : h[x]? = some n) (hy : y ∈ n.deps)
    (hz : Reach h y z) : Reach h x z :=
  Relation.ReflTransGen.head ⟨n, hx, hy⟩ hz

theorem Reach.le (hw : Wf h) (hr : Reach h x y) : y ≤ x := by
  induction hr with
  | refl => exact le_rfl
  | tail _ hd ih =>
    obtain ⟨n, hn, hy⟩ := hd
    exact (hw _ n hn _ (deps_subset_refs hy)).le.trans ih

theorem Reach.typed (hr : Reach h x y) (ht : Typed h callable item ps x) :
    Typed h callable item ps y := by
  induction hr with
  | refl => exact ht
  | tail _ hd ih =>
    obtain ⟨n, hn, hy⟩ := hd
    cases ih with
    | var _ name hx hp =>
      obtain rfl := Option.some.inj (hx.symm.trans hn)
      simp [Node.deps] at hy
    | op _ name outputs args hx ha ht =>
      obtain rfl := Option.some.inj (hx.symm.trans hn)
      exact ha _ hy
    | func _ f args hx hf ha ht =>
      obtain rfl := Option.some.inj (hx.symm.trans hn)
      exact ha _ hy
    | tuple _ fields hx ha ht =>
      obtain rfl := Option.some.inj (hx.symm.trans hn)
      exact ha _ hy
    | item _ t k n hx hi ha ht hk =>
      obtain rfl := Option.some.inj (hx.symm.trans hn)
      obtain rfl : _ = t := by simpa [Node.deps] using hy
      exact ha

theorem Reach.ext (hp : h <+: h') (hr : Reach h x y) : Reach h' x y := by
  induction hr with
  | refl => exact Relation.ReflTransGen.refl
  | tail _ hd ih =>
    obtain ⟨n, hn, hy⟩ := hd
    exact ih.tail ⟨n, get_ext hp hn, hy⟩

theorem Reach.of_ext (hw : Wf h) (hp : h <+: h') (hx : x < h.length) (hr : Reach h' x y) :
    Reach h x y := by
  have key : Reach h x y ∧ y < h.length := by
    induction hr with
    | refl => exact ⟨Relation.ReflTransGen.refl, hx⟩
    | tail _ hd ih =>
      obtain ⟨n, hn, hy⟩ := hd
      rw [get_ext_iff hp ih.2] at hn
      have hlt := hw _ n hn _ (deps_subset_refs hy)
      exact ⟨ih.1.tail ⟨n, hn, hy⟩, hlt.trans ih.2⟩
  exact key.1

end StencilGraph.Relay

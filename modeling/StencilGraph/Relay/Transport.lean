import StencilGraph.Relay.Rebuild
import StencilGraph.Relay.Typed

namespace StencilGraph.Relay

variable {V : Type} {I : Interp V} {replace : Nat → Option Nat} {h : Heap} {memo : Nat → Option Nat}
  {s : Mutation} {callable : Nat → Nat → Prop} {item : Nat → Prop} {ps : List Nat} {x : Nat}

theorem forall₂_flatMap {R : Nat → Nat → Prop} {f g : Nat → List V} {as as' : List Nat}
    (hf : List.Forall₂ R as as') (hv : ∀ a ∈ as, ∀ a', R a a' → g a' = f a) :
    as'.flatMap g = as.flatMap f := by
  induction hf with
  | nil => rfl
  | cons ha _ ih =>
    simp only [List.flatMap_cons]
    rw [hv _ (by simp) _ ha, ih fun a ha' => hv a (by simp [ha'])]

theorem forall₂_map {β : Type} {R : Nat → Nat → Prop} {f g : Nat → β} {as as' : List Nat}
    (hf : List.Forall₂ R as as') (hv : ∀ a ∈ as, ∀ a', R a a' → g a' = f a) :
    as'.map g = as.map f := by
  induction hf with
  | nil => rfl
  | cons ha _ ih =>
    simp only [List.map_cons]
    rw [hv _ (by simp) _ ha, ih fun a ha' => hv a (by simp [ha'])]

theorem Rebuild.rebuilt (hs : Rebuild replace h memo s) {r : Nat} {n : Node}
    (hr : s.memo x = some r) (hm : memo x = none) (hn : h[x]? = some n) :
    Rebuilt replace s x r n := by
  rcases hs.image x r hr with h1 | ⟨n', hn', hr'⟩
  · simp [hm] at h1
  · obtain rfl := Option.some.inj (hn'.symm.trans hn)
    exact hr'

/-- The parts of an expression are not touched by the replacements. -/
def Untouched (replace memo : Nat → Option Nat) (h : Heap) (x : Nat) : Prop :=
  ∀ y, Reach h x y → replace y = none ∧ memo y = none

theorem Untouched.self (hu : Untouched replace memo h x) : replace x = none ∧ memo x = none :=
  hu x Relation.ReflTransGen.refl

theorem Untouched.dep {n : Node} {y : Nat} (hu : Untouched replace memo h x) (hx : h[x]? = some n)
    (hy : y ∈ n.deps) : Untouched replace memo h y :=
  fun z hz => hu z (reach_dep hx hy hz)

/-- A visit copies an untouched flat expression. -/
theorem copied (hs : Rebuild replace h memo s) (hw : Wf h) {item' : Nat → Prop}
    (ht : Typed h noCall item ps x) (hu : Untouched replace memo h x)
    (hi : ∀ t t', Reach h x t → item t → s.memo t = some t' → item' t') {r : Nat}
    (hr : s.memo x = some r) :
    typeOf s.heap r = typeOf h x ∧ Typed s.heap noCall item' ps r ∧
      ∀ σ : Env V, VarEnv s.heap σ → value I s.heap σ r = value I h σ x := by
  induction ht generalizing r with
  | var x name hx hp =>
    have hreb := hs.rebuilt hr hu.self.2 hx
    simp only [Rebuilt, hu.self.1, Option.getD_none] at hreb
    subst hreb
    have hx' := get_ext hs.ext hx
    refine ⟨(typeOf_var hx').trans (typeOf_var hx).symm, .var r name hx' hp, fun σ _ => ?_⟩
    exact value_ext hw hs.ext (lt_of_get hx) σ
  | op x name outputs args hx ha ht ih =>
    have hreb := hs.rebuilt hr hu.self.2 hx
    simp only [Rebuilt, hu.self.1] at hreb
    obtain ⟨c', as', hget, hc, has⟩ := hreb
    obtain rfl : c' = .op name outputs := hc
    have hrec (a : Nat) (haa : a ∈ args) {a' : Nat} (h' : s.memo a = some a') :=
      ih a haa (hu.dep hx haa) (fun t t' h1 => hi t t' (reach_dep hx haa h1)) h'
    refine ⟨by rw [typeOf_op hget, typeOf_op hx], .op r name outputs as' hget ?_ ?_, ?_⟩
    · intro a' ha'
      obtain ⟨a, haa, h'⟩ := forall₂_mem has ha'
      exact (hrec a haa h').2.1
    · intro a' ha'
      obtain ⟨a, haa, h'⟩ := forall₂_mem has ha'
      rw [(hrec a haa h').1, ht a haa]
    · intro σ hσ
      rw [value_op hs.wf (hσ.none_of_call hget) hget,
        value_op hw (hσ.none_of_call (get_ext hs.ext hx)) hx,
        forall₂_flatMap has fun a haa a' h' => (hrec a haa h').2.2 σ hσ]
  | func x f args hx hf => exact hf.elim
  | tuple x fields hx ha ht ih =>
    obtain ⟨fs', hget, hfs⟩ := hs.rebuilt hr hu.self.2 hx
    have hrec (a : Nat) (haa : a ∈ fields) {a' : Nat} (h' : s.memo a = some a') :=
      ih a haa (hu.dep hx haa) (fun t t' h1 => hi t t' (reach_dep hx haa h1)) h'
    refine ⟨by rw [typeOf_tuple hget, typeOf_tuple hx, hfs.length_eq], .tuple r fs' hget ?_ ?_, ?_⟩
    · intro a' ha'
      obtain ⟨a, haa, h'⟩ := forall₂_mem hfs ha'
      exact (hrec a haa h').2.1
    · intro a' ha'
      obtain ⟨a, haa, h'⟩ := forall₂_mem hfs ha'
      rw [(hrec a haa h').1, ht a haa]
    · intro σ hσ
      rw [value_tuple hs.wf (hσ.none_of_tuple hget) hget,
        value_tuple hw (hσ.none_of_tuple (get_ext hs.ext hx)) hx,
        forall₂_flatMap hfs fun a haa a' h' => (hrec a haa h').2.2 σ hσ]
  | item x t k n hx hit ha htt hk ih =>
    have hreb := hs.rebuilt hr hu.self.2 hx
    simp only [Rebuilt, hu.self.1] at hreb
    obtain ⟨t', ht', hcase⟩ := hreb
    have htx : Reach h x t := reach_dep hx (by simp [Node.deps]) Relation.ReflTransGen.refl
    obtain ⟨hty, htyped, hval⟩ := ih (hu.dep hx (by simp [Node.deps]))
      (fun q q' h1 => hi q q' (reach_dep hx (by simp [Node.deps]) h1)) ht'
    have hget : s.heap[r]? = some (.tupleGetItem t' k) := by
      rcases hcase with ⟨rfl, rfl⟩ | ⟨-, hget⟩
      · exact get_ext hs.ext hx
      · exact hget
    refine ⟨by rw [typeOf_item hget, typeOf_item hx],
      .item r t' k n hget (hi t t' htx hit ht') htyped (hty.trans htt) hk, fun σ hσ => ?_⟩
    rw [value_item hs.wf (hσ.none_of_item hget) hget,
      value_item hw (hσ.none_of_item (get_ext hs.ext hx)) hx, hval σ hσ]

/-- The image of an untouched call is a call. -/
theorem isCall_image (hs : Rebuild replace h memo s) {t t' : Nat} (hrep : replace t = none)
    (hmemo : memo t = none) (hc : IsCall h t) (ht : s.memo t = some t') : IsCall s.heap t' := by
  obtain ⟨c, args, hget⟩ := hc
  have hreb := hs.rebuilt ht hmemo hget
  simp only [Rebuilt, hrep] at hreb
  obtain ⟨c', as', hget', -, -⟩ := hreb
  exact ⟨c', as', hget'⟩

/-- The image of a variable that is not replaced. -/
theorem var_image (hs : Rebuild replace h memo s) {p r : Nat} (hv : IsVar h p)
    (hrep : replace p = none) (hmemo : memo p = none) (hr : s.memo p = some r) : r = p := by
  obtain ⟨name, hp⟩ := hv
  have hreb := hs.rebuilt hr hmemo hp
  simpa [Rebuilt, hrep] using hreb

theorem vars_image (hs : Rebuild replace h memo s) {ps' : List Nat}
    (hps : List.Forall₂ (fun a a' => s.memo a = some a') ps ps') (hv : ∀ p ∈ ps, IsVar h p)
    (hk : ∀ p ∈ ps, replace p = none ∧ memo p = none) : ps' = ps := by
  have hmap := forall₂_map (f := fun p => p) (g := fun p => p) hps fun p hp p' hp' =>
    var_image hs (hv p hp) (hk p hp).1 (hk p hp).2 hp'
  simpa using hmap

/-- Nothing inside a function is touched. -/
structure FuncUntouched (replace memo : Nat → Option Nat) (h : Heap) (f : Nat) (ps : List Nat)
    (b : Nat) : Prop where
  self : memo f = none
  body : Untouched replace memo h b
  params : ∀ p ∈ ps, replace p = none ∧ memo p = none

/-- A visit copies an untouched function. -/
theorem func_copied (hs : Rebuild replace h memo s) (hw : Wf h) {f n b f' : Nat} {tag : List String}
    (hf : FuncOk h f n ps b tag) (hu : FuncUntouched replace memo h f ps b)
    (hr : s.memo f = some f') :
    ∃ b', FuncOk s.heap f' n ps b' tag ∧ s.memo b = some b' ∧ typeOf s.heap b' = typeOf h b ∧
      ∀ σ : Env V, VarEnv s.heap σ → value I s.heap σ b' = value I h σ b := by
  obtain ⟨ps', b', hget, hps, hb⟩ := hs.rebuilt hr hu.self hf.node
  obtain rfl := vars_image hs hps hf.vars hu.params
  obtain ⟨hty, htyped, hval⟩ := copied (V := V) (I := I) hs hw hf.body
    hu.body (fun t t' ht hc ht' => isCall_image hs (hu.body t ht).1 (hu.body t ht).2 hc ht') hb
  exact ⟨b', ⟨hget, hf.length, hf.nodup, fun p hp => (hf.vars p hp).ext hs.ext, htyped⟩, hb, hty,
    hval⟩

/-- What a visit keeps of an expression: type, typing and value. -/
structure Image (I : Interp V) (h : Heap) (s : Mutation) (callable' : Nat → Nat → Prop)
    (item' : Nat → Prop) (ps' : List Nat) (σ σ' : Env V) (x r : Nat) : Prop where
  type : typeOf s.heap r = typeOf h x
  typed : Typed s.heap callable' item' ps' r
  value : value I s.heap σ' r = value I h σ x

/-- The conditions under which a whole visit keeps types and values: at the variables, at the
replaced expressions, at the functions and at the projections. -/
structure Transports (I : Interp V) (replace : Nat → Option Nat) (h : Heap) (memo : Nat → Option Nat)
    (s : Mutation) (O : Nat → Prop) (callable callable' : Nat → Nat → Prop) (item item' : Nat → Prop)
    (ps ps' : List Nat) (σ σ' : Env V) : Prop where
  seed : ∀ x r, O x → memo x = some r → Image I h s callable' item' ps' σ σ' x r
  var : ∀ x name, O x → memo x = none → h[x]? = some (.var name) → x ∈ ps →
    Image I h s callable' item' ps' σ σ' x ((replace x).getD x)
  key : ∀ x y, O x → memo x = none → ¬ IsVar h x → replace x = some y →
    Typed h callable item ps y ∧ typeOf h y = typeOf h x ∧ Relay.value I h σ y = Relay.value I h σ x
  func : ∀ x f args f', O x → memo x = none → replace x = none →
    h[x]? = some (.call (.func f) args) → callable f args.length → s.memo f = some f' →
    callable' f' args.length ∧ ∃ qs b tag b', FuncOk h f args.length qs b tag ∧
      FuncOk s.heap f' args.length qs b' tag ∧ typeOf s.heap b' = typeOf h b ∧
      ∀ τ : Env V, VarEnv s.heap τ → Relay.value I s.heap τ b' = Relay.value I h τ b
  item : ∀ x t k t', O x → memo x = none → replace x = none → h[x]? = some (.tupleGetItem t k) →
    item t → s.memo t = some t' → item' t'
  tuple : ∀ x fields, O x → h[x]? = some (.tuple fields) → replace x = none
  env : ∀ x, O x → memo x = none → replace x = none → ¬ IsVar h x → σ x = none
  env' : VarEnv s.heap σ'

/-- A visit keeps types and values on a set `O` of expressions that is closed under what they are
computed from and replaced by. -/
theorem transport {O G : Nat → Prop} {μ : Nat → Nat} {callable' : Nat → Nat → Prop}
    {item' : Nat → Prop} {ps' : List Nat} {σ σ' : Env V} (hs : Rebuild replace h memo s) (hw : Wf h)
    (hv : Visitable replace h memo G μ) (hG : ∀ x, O x → G x)
    (hdep : ∀ x n y, O x → memo x = none → replace x = none → h[x]? = some n → y ∈ n.deps → O y)
    (hkey : ∀ x y, O x → memo x = none → ¬ IsVar h x → replace x = some y → O y)
    (htr : Transports I replace h memo s O callable callable' item item' ps ps' σ σ')
    (x : Nat) (hx : O x) (ht : Typed h callable item ps x) {r : Nat} (hr : s.memo x = some r) :
    Image I h s callable' item' ps' σ σ' x r := by
  induction hμ : μ x using Nat.strong_induction_on generalizing x r with
  | _ k ih =>
    cases hm : memo x with
    | some q =>
      obtain rfl := Option.some.inj ((hs.keep x q hm).symm.trans hr)
      exact htr.seed x q hx hm
    | none =>
      obtain ⟨n, hn, hvis⟩ := hv.node x (hG x hx) hm
      have hreb := hs.rebuilt hr hm hn
      have hrec {y y' : Nat} (hy : y ∈ visited replace x n) (hOy : O y)
          (hty : Typed h callable item ps y) (hy' : s.memo y = some y') :
          Image I h s callable' item' ps' σ σ' y y' := by
        obtain ⟨-, hlt⟩ := hvis y hy
        exact ih (μ y) (by omega) y hOy hty hy' rfl
      -- a replaced call or projection has the image of its replacement
      have hredirect {y : Nat} (hrep : replace x = some y) (hnv : ¬ IsVar h x)
          (hy : y ∈ visited replace x n) (hy' : s.memo y = some r) :
          Image I h s callable' item' ps' σ σ' x r := by
        obtain ⟨h1, h2, h3⟩ := htr.key x y hx hm hnv hrep
        have him := hrec hy (hkey x y hx hm hnv hrep) h1 hy'
        exact ⟨him.type.trans h2, him.typed, him.value.trans h3⟩
      cases ht with
      | var _ name hget hp =>
        obtain rfl := Option.some.inj (hget.symm.trans hn)
        obtain rfl : r = (replace x).getD x := hreb
        exact htr.var x name hx hm hget hp
      | op _ name outputs args hget ha hta =>
        obtain rfl := Option.some.inj (hget.symm.trans hn)
        have hnv : ¬ IsVar h x := by rintro ⟨_, hv⟩; simp [hget] at hv
        cases hrep : replace x with
        | some y =>
          simp only [Rebuilt, hrep] at hreb
          exact hredirect hrep hnv (by simp [visited, hrep]) hreb
        | none =>
          simp only [Rebuilt, hrep] at hreb
          obtain ⟨c', as', hget', hc, has⟩ := hreb
          obtain rfl : c' = .op name outputs := hc
          have hargs (a : Nat) (haa : a ∈ args) {a' : Nat} (h' : s.memo a = some a') :=
            hrec (by simp [visited, hrep, haa]) (hdep x _ a hx hm hrep hget haa) (ha a haa) h'
          refine ⟨by rw [typeOf_op hget', typeOf_op hget], .op r name outputs as' hget' ?_ ?_, ?_⟩
          · intro a' ha'
            obtain ⟨a, haa, h'⟩ := forall₂_mem has ha'
            exact (hargs a haa h').typed
          · intro a' ha'
            obtain ⟨a, haa, h'⟩ := forall₂_mem has ha'
            rw [(hargs a haa h').type, hta a haa]
          · rw [value_op hs.wf (htr.env'.none_of_call hget') hget',
              value_op hw (htr.env x hx hm hrep hnv) hget,
              forall₂_flatMap has fun a haa a' h' => (hargs a haa h').value]
      | func _ f args hget hf ha hta =>
        obtain rfl := Option.some.inj (hget.symm.trans hn)
        have hnv : ¬ IsVar h x := by rintro ⟨_, hv⟩; simp [hget] at hv
        cases hrep : replace x with
        | some y =>
          simp only [Rebuilt, hrep] at hreb
          exact hredirect hrep hnv (by simp [visited, hrep]) hreb
        | none =>
          simp only [Rebuilt, hrep] at hreb
          obtain ⟨c', as', hget', ⟨f', hf', rfl⟩, has⟩ := hreb
          have hargs (a : Nat) (haa : a ∈ args) {a' : Nat} (h' : s.memo a = some a') :=
            hrec (by simp [visited, hrep, haa]) (hdep x _ a hx hm hrep hget haa) (ha a haa) h'
          obtain ⟨hcall, qs, b, tag, b', hok, hok', hty, hval⟩ :=
            htr.func x f args f' hx hm hrep hget hf hf'
          refine ⟨?_, .func r f' as' hget' (by rw [← has.length_eq]; exact hcall) ?_ ?_, ?_⟩
          · rw [typeOf_func hs.wf hget' hok'.node, typeOf_func hw hget hok.node, hty]
          · intro a' ha'
            obtain ⟨a, haa, h'⟩ := forall₂_mem has ha'
            exact (hargs a haa h').typed
          · intro a' ha'
            obtain ⟨a, haa, h'⟩ := forall₂_mem has ha'
            rw [(hargs a haa h').type, hta a haa]
          · rw [value_func hs.wf (htr.env'.none_of_call hget') hget' hok'.node,
              value_func hw (htr.env x hx hm hrep hnv) hget hok.node,
              forall₂_map has fun a haa a' h' => (hargs a haa h').value]
            exact hval _ (varEnv_bindParams hok'.vars)
      | tuple _ fields hget ha hta =>
        obtain rfl := Option.some.inj (hget.symm.trans hn)
        have hnv : ¬ IsVar h x := by rintro ⟨_, hv⟩; simp [hget] at hv
        obtain ⟨fs', hget', hfs⟩ := hreb
        have hargs (a : Nat) (haa : a ∈ fields) {a' : Nat} (h' : s.memo a = some a') :=
          hrec (by simp [visited, haa]) (hdep x _ a hx hm (htr.tuple x fields hx hget) hget haa) (ha a haa) h'
        refine ⟨by rw [typeOf_tuple hget', typeOf_tuple hget, hfs.length_eq],
          .tuple r fs' hget' ?_ ?_, ?_⟩
        · intro a' ha'
          obtain ⟨a, haa, h'⟩ := forall₂_mem hfs ha'
          exact (hargs a haa h').typed
        · intro a' ha'
          obtain ⟨a, haa, h'⟩ := forall₂_mem hfs ha'
          rw [(hargs a haa h').type, hta a haa]
        · rw [value_tuple hs.wf (htr.env'.none_of_tuple hget') hget',
            value_tuple hw (htr.env x hx hm (htr.tuple x fields hx hget) hnv) hget,
            forall₂_flatMap hfs fun a haa a' h' => (hargs a haa h').value]
      | item _ t k n hget hit ha htt hk =>
        obtain rfl := Option.some.inj (hget.symm.trans hn)
        have hnv : ¬ IsVar h x := by rintro ⟨_, hv⟩; simp [hget] at hv
        cases hrep : replace x with
        | some y =>
          simp only [Rebuilt, hrep] at hreb
          exact hredirect hrep hnv (by simp [visited, hrep]) hreb
        | none =>
          simp only [Rebuilt, hrep] at hreb
          obtain ⟨t', ht', hcase⟩ := hreb
          have him := hrec (by simp [visited, hrep]) (hdep x _ t hx hm hrep hget (by simp [Node.deps])) ha ht'
          have hget' : s.heap[r]? = some (.tupleGetItem t' k) := by
            rcases hcase with ⟨rfl, rfl⟩ | ⟨-, hget'⟩
            · exact get_ext hs.ext hget
            · exact hget'
          refine ⟨by rw [typeOf_item hget', typeOf_item hget], .item r t' k n hget'
            (htr.item x t k t' hx hm hrep hget hit ht') him.typed (him.type.trans htt) hk, ?_⟩
          rw [value_item hs.wf (htr.env'.none_of_item hget') hget',
            value_item hw (htr.env x hx hm hrep hnv) hget, him.value]

end StencilGraph.Relay

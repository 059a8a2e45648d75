import Mathlib.Data.List.Basic
import StencilGraph.Relay.Heap

namespace StencilGraph.Relay

variable {V : Type} {I : Interp V} {h h' : Heap} {σ : Env V} {x y : Nat}

theorem lt_of_get {n : Node} (hx : h[x]? = some n) : x < h.length :=
  (List.getElem?_eq_some_iff.mp hx).1

theorem get_of_lt (hx : x < h.length) : ∃ n, h[x]? = some n :=
  ⟨h[x], List.getElem?_eq_getElem hx⟩

theorem get_ext (hp : h <+: h') {n : Node} (hx : h[x]? = some n) : h'[x]? = some n := by
  obtain ⟨t, rfl⟩ := hp
  rw [List.getElem?_append_left (lt_of_get hx)]
  exact hx

theorem get_ext_iff (hp : h <+: h') (hx : x < h.length) : h'[x]? = h[x]? := by
  obtain ⟨n, hn⟩ := get_of_lt hx
  rw [hn, get_ext hp hn]

theorem wf_append (hw : Wf h) {n : Node} (hn : ∀ y ∈ n.refs, y < h.length) : Wf (h ++ [n]) := by
  intro x m hm y hy
  rcases Nat.lt_trichotomy x h.length with hx | hx | hx
  · rw [List.getElem?_append_left hx] at hm
    exact hw x m hm y hy
  · subst hx
    obtain rfl : n = m := by simpa using hm
    exact hn y hy
  · rw [List.getElem?_eq_none (by simp; omega)] at hm
    simp at hm

section Wf

variable (hw : Wf h)

include hw

theorem wf_arg {c : Callee} {args : List Nat} {a : Nat} (hx : h[x]? = some (.call c args))
    (ha : a ∈ args) : a < x :=
  hw x _ hx a (by simp [Node.refs, ha])

theorem wf_func {f : Nat} {args : List Nat} (hx : h[x]? = some (.call (.func f) args)) : f < x :=
  hw x _ hx f (by simp [Node.refs, Callee.refs])

theorem wf_body {ps : List Nat} {b : Nat} {tag : List String}
    (hx : h[x]? = some (.function ps b tag)) : b < x :=
  hw x _ hx b (by simp [Node.refs])

theorem wf_param {ps : List Nat} {b p : Nat} {tag : List String}
    (hx : h[x]? = some (.function ps b tag)) (hp : p ∈ ps) : p < x :=
  hw x _ hx p (by simp [Node.refs, hp])

theorem wf_field {fs : List Nat} {f : Nat} (hx : h[x]? = some (.tuple fs)) (hf : f ∈ fs) : f < x :=
  hw x _ hx f (by simpa [Node.refs] using hf)

theorem wf_item {t k : Nat} (hx : h[x]? = some (.tupleGetItem t k)) : t < x :=
  hw x _ hx t (by simp [Node.refs])

/-- The value of an old object depends neither on the fuel nor on later objects. -/
theorem valueFuel_ext (hp : h <+: h') (x : Nat) (hx : x < h.length) (k l : Nat) (hk : x < k)
    (hl : x < l) (σ : Env V) : valueFuel I h k σ x = valueFuel I h' l σ x := by
  induction x using Nat.strong_induction_on generalizing k l σ with
  | _ x ih =>
    obtain ⟨k, rfl⟩ : ∃ k', k = k' + 1 := ⟨k - 1, by omega⟩
    obtain ⟨l, rfl⟩ : ∃ l', l = l' + 1 := ⟨l - 1, by omega⟩
    obtain ⟨n, hn⟩ := get_of_lt hx
    simp only [valueFuel, hn, get_ext hp hn]
    cases hσ : σ x with
    | some v => rfl
    | none =>
      have hrec (y : Nat) (hy : y < x) (τ : Env V) :
          valueFuel I h k τ y = valueFuel I h' l τ y :=
        ih y hy (by omega) k l (by omega) (by omega) τ
      cases n with
      | var => rfl
      | tuple fs =>
        simp only
        exact List.flatMap_congr fun f hf => hrec f (wf_field hw hn hf) σ
      | tupleGetItem t i => simp only [hrec t (wf_item hw hn) σ]
      | function => rfl
      | call c args =>
        cases c with
        | op name outputs =>
          simp only
          rw [List.flatMap_congr fun a ha => hrec a (wf_arg hw hn ha) σ]
        | func f =>
          have hf := wf_func hw hn
          obtain ⟨m, hm⟩ := get_of_lt (h := h) (x := f) (by omega)
          simp only [hm, get_ext hp hm]
          cases m with
          | function ps b tag =>
            have hb := wf_body hw hm
            simp only
            rw [List.map_congr_left fun a ha => hrec a (wf_arg hw hn ha) σ,
              hrec b (by omega)]
          | _ => rfl

theorem value_ext (hp : h <+: h') (hx : x < h.length) (σ : Env V) :
    value I h' σ x = value I h σ x :=
  (valueFuel_ext hw hp x hx _ _ (by omega) (by omega) σ).symm

omit hw in
theorem value_bound {v : List V} (hσ : σ x = some v) : value I h σ x = v := by
  simp [value, valueFuel, hσ]

omit hw in
theorem value_var {name : String} (hσ : σ x = none) (hx : h[x]? = some (.var name)) :
    value I h σ x = [] := by
  simp [value, valueFuel, hσ, hx]

theorem value_fuel (hx : x < h.length) {k : Nat} (hk : x < k) (σ : Env V) :
    valueFuel I h k σ x = value I h σ x :=
  valueFuel_ext hw (List.prefix_refl h) x hx _ _ hk (by omega) σ

theorem value_op {name : String} {outputs : Nat} {args : List Nat} (hσ : σ x = none)
    (hx : h[x]? = some (.call (.op name outputs) args)) :
    value I h σ x = I.apply name outputs (args.flatMap (value I h σ)) := by
  have hlt := lt_of_get hx
  simp only [value, valueFuel, hσ, hx]
  congr 1
  refine List.flatMap_congr fun a ha => ?_
  have := wf_arg hw hx ha
  exact value_fuel hw (by omega) this σ

theorem value_func {f : Nat} {args ps : List Nat} {b : Nat} {tag : List String} (hσ : σ x = none)
    (hx : h[x]? = some (.call (.func f) args)) (hf : h[f]? = some (.function ps b tag)) :
    value I h σ x = value I h (bindParams ps (args.map (value I h σ))) b := by
  have hlt := lt_of_get hx
  have hfx := wf_func hw hx
  have hbf := wf_body hw hf
  have hargs : args.map (valueFuel I h x σ) = args.map (value I h σ) :=
    List.map_congr_left fun a ha => by
      have := wf_arg hw hx ha
      exact value_fuel hw (by omega) this σ
  have hstep : value I h σ x = valueFuel I h x (bindParams ps (args.map (valueFuel I h x σ))) b := by
    rw [value, valueFuel]
    simp only [hσ, hx, hf]
  rw [hstep, hargs]
  exact value_fuel hw (by omega) (by omega) _

theorem value_tuple {fs : List Nat} (hσ : σ x = none) (hx : h[x]? = some (.tuple fs)) :
    value I h σ x = fs.flatMap (value I h σ) := by
  have hlt := lt_of_get hx
  simp only [value, valueFuel, hσ, hx]
  refine List.flatMap_congr fun a ha => ?_
  have := wf_field hw hx ha
  exact value_fuel hw (by omega) this σ

theorem value_item {t k : Nat} (hσ : σ x = none) (hx : h[x]? = some (.tupleGetItem t k)) :
    value I h σ x = ((value I h σ t)[k]?).toList := by
  have hlt := lt_of_get hx
  have := wf_item hw hx
  simp only [value, valueFuel, hσ, hx]
  rw [value_fuel hw (by omega) this σ]
  rfl

theorem typeFuel_ext (hp : h <+: h') (x : Nat) (hx : x < h.length) (k l : Nat) (hk : x < k)
    (hl : x < l) : typeFuel h k x = typeFuel h' l x := by
  induction x using Nat.strong_induction_on generalizing k l with
  | _ x ih =>
    obtain ⟨k, rfl⟩ : ∃ k', k = k' + 1 := ⟨k - 1, by omega⟩
    obtain ⟨l, rfl⟩ : ∃ l', l = l' + 1 := ⟨l - 1, by omega⟩
    obtain ⟨n, hn⟩ := get_of_lt hx
    simp only [typeFuel, hn, get_ext hp hn]
    cases n with
    | call c args =>
      cases c with
      | op => rfl
      | func f =>
        have hf := wf_func hw hn
        obtain ⟨m, hm⟩ := get_of_lt (h := h) (x := f) (by omega)
        simp only [hm, get_ext hp hm]
        cases m with
        | function ps b tag =>
          have hb := wf_body hw hm
          exact ih b (by omega) (by omega) k l (by omega) (by omega)
        | _ => rfl
    | _ => rfl

theorem typeOf_ext (hp : h <+: h') (hx : x < h.length) : typeOf h' x = typeOf h x :=
  (typeFuel_ext hw hp x hx _ _ (by omega) (by omega)).symm

theorem typeOf_func {f : Nat} {args ps : List Nat} {b : Nat} {tag : List String}
    (hx : h[x]? = some (.call (.func f) args)) (hf : h[f]? = some (.function ps b tag)) :
    typeOf h x = typeOf h b := by
  have hlt := lt_of_get hx
  have hfx := wf_func hw hx
  have hbf := wf_body hw hf
  rw [show typeOf h x = typeFuel h x b by rw [typeOf, typeFuel]; simp only [hx, hf]]
  exact typeFuel_ext hw (List.prefix_refl h) b (by omega) _ _ (by omega) (by omega)

end Wf

theorem typeOf_op {name : String} {outputs : Nat} {args : List Nat}
    (hx : h[x]? = some (.call (.op name outputs) args)) :
    typeOf h x = if outputs = 1 then .tensor else .tuple outputs := by
  simp [typeOf, typeFuel, hx]

theorem typeOf_var {name : String} (hx : h[x]? = some (.var name)) : typeOf h x = .tensor := by
  simp [typeOf, typeFuel, hx]

theorem typeOf_tuple {fs : List Nat} (hx : h[x]? = some (.tuple fs)) :
    typeOf h x = .tuple fs.length := by
  simp [typeOf, typeFuel, hx]

theorem typeOf_item {t k : Nat} (hx : h[x]? = some (.tupleGetItem t k)) :
    typeOf h x = .tensor := by
  simp [typeOf, typeFuel, hx]

theorem bindParams_none {ps : List Nat} {vals : List (List V)} (hx : x ∉ ps) :
    bindParams ps vals x = none := by
  unfold bindParams
  rw [List.lookup_eq_none_iff]
  rintro ⟨p, v⟩ hp
  have := (List.of_mem_zip hp).1
  simp only [bne_iff_ne, ne_eq]
  rintro rfl
  exact hx this

/-- Looking up a parameter by its position. -/
theorem bindParams_get {ps : List Nat} {vals : List (List V)} (hn : ps.Nodup)
    (hl : ps.length = vals.length) {i : Nat} {p : Nat} {v : List V} (hp : ps[i]? = some p)
    (hv : vals[i]? = some v) : bindParams ps vals p = some v := by
  induction ps generalizing vals i with
  | nil => simp at hp
  | cons q ps ih =>
    cases vals with
    | nil => simp at hl
    | cons w vals =>
      unfold bindParams
      rw [List.zip_cons_cons, List.lookup_cons]
      cases i with
      | zero =>
        obtain rfl : q = p := by simpa using hp
        obtain rfl : w = v := by simpa using hv
        simp
      | succ i =>
        have hp' : ps[i]? = some p := by simpa using hp
        have hne : p ≠ q := by
          rintro rfl
          exact (List.nodup_cons.mp hn).1 (List.mem_of_getElem? hp')
        have hb : (p == q) = false := by simpa using hne
        rw [hb]
        exact ih (List.nodup_cons.mp hn).2 (by simpa using hl) hp' (by simpa using hv)

theorem bindParams_mem {ps : List Nat} {vals : List (List V)} (hn : ps.Nodup)
    (hl : ps.length = vals.length) {p : Nat} (hp : p ∈ ps) :
    ∃ (i : Nat) (v : List V), ps[i]? = some p ∧ vals[i]? = some v ∧
      bindParams ps vals p = some v := by
  obtain ⟨i, hi⟩ := List.mem_iff_getElem?.mp hp
  have hlt := (List.getElem?_eq_some_iff.mp hi).1
  have hlt' : i < vals.length := hl ▸ hlt
  have hv : vals[i]? = some (vals[i]) := List.getElem?_eq_getElem _
  exact ⟨i, _, hi, hv, bindParams_get hn hl hi hv⟩

end StencilGraph.Relay

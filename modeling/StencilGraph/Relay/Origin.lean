import StencilGraph.Relay.Transport

namespace StencilGraph.Relay

variable {replace : Nat → Option Nat} {h : Heap} {memo : Nat → Option Nat} {s : Mutation}
  {G N P : Nat → Prop} {μ : Nat → Nat} {x y r : Nat}

/-- Visited expressions `N` whose images are new objects: no variable is among them, neither as a
replacement nor below a projection. -/
structure Fresher (replace : Nat → Option Nat) (h : Heap) (memo : Nat → Option Nat)
    (G N : Nat → Prop) : Prop where
  start : ∀ x, G x → memo x = none
  sub : ∀ x, N x → G x
  new : ∀ x, N x → ¬ IsVar h x
  key : ∀ x y, N x → replace x = some y → N y
  item : ∀ x t k, N x → replace x = none → h[x]? = some (.tupleGetItem t k) → N t

theorem not_isVar {n : Node} (hx : h[x]? = some n) (hn : ∀ name, n ≠ .var name) : ¬ IsVar h x := by
  rintro ⟨name, hv⟩
  exact hn name (Option.some.inj (hx.symm.trans hv))

/-- The node of a visited expression that is no variable is a new object, unless it is replaced. -/
theorem image_new (hs : Rebuild replace h memo s) (hv : Visitable replace h memo G μ)
    (hf : Fresher replace h memo G N) (hx : N x) (hr : s.memo x = some r) :
    h.length ≤ r ∧ ∀ n, h[x]? = some n → replace x = none → Fresh replace s x n := by
  induction hμ : μ x using Nat.strong_induction_on generalizing x r with
  | _ m ih =>
    have hm := hf.start x (hf.sub x hx)
    obtain ⟨n, hn, hvis⟩ := hv.node x (hf.sub x hx) hm
    have hreb := hs.rebuilt hr hm hn
    have hrec {y r : Nat} (hy : y ∈ visited replace x n) (hNy : N y)
        (hr : s.memo y = some r) : h.length ≤ r := by
      obtain ⟨-, hlt⟩ := hvis y hy
      exact (ih (μ y) (by omega) hNy hr rfl).1
    have hfresh (hF : Fresh replace s x n) :
        h.length ≤ r ∧ ∀ n, h[x]? = some n → replace x = none → Fresh replace s x n := by
      refine ⟨hs.fresh x r n hr hm hn hF, fun n' hn' _ => ?_⟩
      obtain rfl := Option.some.inj (hn.symm.trans hn')
      exact hF
    have hredirect {y : Nat} (hrep : replace x = some y) (hy : y ∈ visited replace x n)
        (hyr : s.memo y = some r) :
        h.length ≤ r ∧ ∀ n, h[x]? = some n → replace x = none → Fresh replace s x n :=
      ⟨hrec hy (hf.key x y hx hrep) hyr, fun _ _ hno => by simp [hrep] at hno⟩
    cases n with
    | var name => exact absurd ⟨name, hn⟩ (hf.new x hx)
    | call c args =>
      cases hrep : replace x with
      | none => exact hrep ▸ hfresh hrep
      | some y =>
        simp only [Rebuilt, hrep] at hreb
        exact hrep ▸ hredirect hrep (by simp [visited, hrep]) hreb
    | tuple fields => exact hfresh trivial
    | tupleGetItem t k =>
      cases hrep : replace x with
      | none =>
        refine hrep ▸ hfresh ⟨hrep, fun ht => ?_⟩
        have := hrec (by simp [visited, hrep]) (hf.item x t k hx hrep hn) ht
        obtain ⟨hGt, -⟩ := hvis t (by simp [visited, hrep])
        obtain ⟨m, htm, -⟩ := hv.node t hGt (hf.start t hGt)
        have := lt_of_get htm
        omega
      | some y =>
        simp only [Rebuilt, hrep] at hreb
        exact hrep ▸ hredirect hrep (by simp [visited, hrep]) hreb
    | function ps b tag => exact hfresh trivial

/-- Two expressions that are not replaced have different images. -/
theorem image_inj (hs : Rebuild replace h memo s) (hv : Visitable replace h memo G μ)
    (hf : Fresher replace h memo G N) (hx : G x) (hy : G y) (hnx : IsVar h x ∨ N x)
    (hny : IsVar h y ∨ N y) (hrx : replace x = none) (hry : replace y = none)
    (hxr : s.memo x = some r) (hyr : s.memo y = some r) : x = y := by
  obtain ⟨n, hn, -⟩ := hv.node x hx (hf.start x hx)
  obtain ⟨m, hm, -⟩ := hv.node y hy (hf.start y hy)
  rcases hnx with hvx | hnx
  · have hxeq := var_image hs hvx hrx (hf.start x hx) hxr
    rcases hny with hvy | hny
    · rw [← hxeq, var_image hs hvy hry (hf.start y hy) hyr]
    · have := (image_new hs hv hf hny hyr).1
      have := lt_of_get hn
      omega
  · rcases hny with hvy | hny
    · have hyeq := var_image hs hvy hry (hf.start y hy) hyr
      have := (image_new hs hv hf hnx hxr).1
      have := lt_of_get hm
      omega
    · exact hs.inj x y r n m hxr hyr (hf.start x hx) (hf.start y hy) hn hm
        ((image_new hs hv hf hnx hxr).2 n hn hrx) ((image_new hs hv hf hny hyr).2 m hm hry)

/-- A set of visited expressions, closed under what they are computed from and replaced by. -/
structure Closed (replace : Nat → Option Nat) (h : Heap) (P : Nat → Prop) : Prop where
  dep : ∀ x n y, P x → replace x = none → h[x]? = some n → y ∈ n.deps → P y
  key : ∀ x y, P x → replace x = some y → P y ∧ (IsCall h x ∨ ∃ t k, h[x]? = some (.tupleGetItem t k))

/-- An image is the image of an expression that is not replaced. -/
theorem resolve (hs : Rebuild replace h memo s) (hv : Visitable replace h memo G μ)
    (hstart : ∀ x, P x → G x ∧ memo x = none) (hc : Closed replace h P) (hx : P x)
    (hr : s.memo x = some r) : ∃ z, P z ∧ replace z = none ∧ s.memo z = some r := by
  induction hμ : μ x using Nat.strong_induction_on generalizing x with
  | _ m ih =>
    cases hrep : replace x with
    | none => exact ⟨x, hx, hrep, hr⟩
    | some y =>
      obtain ⟨hPy, hnode⟩ := hc.key x y hx hrep
      obtain ⟨hG, hm⟩ := hstart x hx
      obtain ⟨n, hn, hvis⟩ := hv.node x hG hm
      have hreb := hs.rebuilt hr hm hn
      have hboth : y ∈ visited replace x n ∧ s.memo y = some r := by
        rcases hnode with ⟨c, args, hcall⟩ | ⟨t, k, hitem⟩
        · obtain rfl := Option.some.inj (hcall.symm.trans hn)
          exact ⟨by simp [visited, hrep], by simpa only [Rebuilt, hrep] using hreb⟩
        · obtain rfl := Option.some.inj (hitem.symm.trans hn)
          exact ⟨by simp [visited, hrep], by simpa only [Rebuilt, hrep] using hreb⟩
      obtain ⟨-, hlt⟩ := hvis y hboth.1
      exact ih (μ y) (by omega) hPy hboth.2 rfl

/-- What the image of an expression is computed from is the image of what it is computed from. -/
theorem dep_origin (hs : Rebuild replace h memo s) (hm : memo x = none) (hrep : replace x = none)
    (hr : s.memo x = some r) {n : Node} (hn : h[x]? = some n) {n' : Node}
    (hn' : s.heap[r]? = some n') (hy : y ∈ n'.deps) : ∃ z ∈ n.deps, s.memo z = some y := by
  have hreb := hs.rebuilt hr hm hn
  cases n with
  | var name =>
    simp only [Rebuilt, hrep, Option.getD_none] at hreb
    subst hreb
    obtain rfl := Option.some.inj ((get_ext hs.ext hn).symm.trans hn')
    simp [Node.deps] at hy
  | call c args =>
    simp only [Rebuilt, hrep] at hreb
    obtain ⟨c', args', hget, -, hargs⟩ := hreb
    obtain rfl := Option.some.inj (hget.symm.trans hn')
    exact forall₂_mem hargs hy
  | tuple fields =>
    obtain ⟨fields', hget, hfields⟩ := hreb
    obtain rfl := Option.some.inj (hget.symm.trans hn')
    exact forall₂_mem hfields hy
  | tupleGetItem t k =>
    simp only [Rebuilt, hrep] at hreb
    obtain ⟨t', ht, hcase⟩ := hreb
    have hget : s.heap[r]? = some (.tupleGetItem t' k) := by
      rcases hcase with ⟨rfl, rfl⟩ | ⟨-, hget⟩
      · exact get_ext hs.ext hn
      · exact hget
    obtain rfl := Option.some.inj (hget.symm.trans hn')
    obtain rfl : y = t' := by simpa [Node.deps] using hy
    exact ⟨t, by simp [Node.deps], ht⟩
  | function ps b tag =>
    obtain ⟨ps', b', hget, -, -⟩ := hreb
    obtain rfl := Option.some.inj (hget.symm.trans hn')
    simp [Node.deps] at hy

/-- Everything used by an image is the image of an expression that is not replaced. -/
theorem reach_origin (hs : Rebuild replace h memo s) (hv : Visitable replace h memo G μ)
    (hstart : ∀ x, P x → G x ∧ memo x = none) (hc : Closed replace h P) (hx : P x)
    (hr : s.memo x = some r) (hy : Reach s.heap r y) :
    ∃ z, P z ∧ replace z = none ∧ s.memo z = some y := by
  induction hy with
  | refl => exact resolve hs hv hstart hc hx hr
  | tail _ hd ih =>
    obtain ⟨z, hz, hrep, hzr⟩ := ih
    obtain ⟨n', hn', hdep⟩ := hd
    obtain ⟨n, hn, -⟩ := hv.node z (hstart z hz).1 (hstart z hz).2
    obtain ⟨w, hw, hwr⟩ := dep_origin hs (hstart z hz).2 hrep hzr hn hn' hdep
    exact resolve hs hv hstart hc (hc.dep z n w hz hrep hn hw) hwr

/-- What an expression is computed from is visited with it. -/
theorem dep_image (hs : Rebuild replace h memo s) (hm : memo x = none) (hrep : replace x = none)
    (hr : s.memo x = some r) {n : Node} (hn : h[x]? = some n) (hy : y ∈ n.deps) :
    ∃ y', s.memo y = some y' ∧ Reach s.heap r y' := by
  have hreb := hs.rebuilt hr hm hn
  have hlist {as as' : List Nat} {n' : Node} (hget : s.heap[r]? = some n') (hdeps : n'.deps = as')
      (hf : List.Forall₂ (fun a a' => s.memo a = some a') as as') (hy : y ∈ as) :
      ∃ y', s.memo y = some y' ∧ Reach s.heap r y' := by
    obtain ⟨y', hy', hyy'⟩ := forall₂_mem (R := fun a' a => s.memo a = some a') hf.flip hy
    exact ⟨y', hyy', .single ⟨n', hget, hdeps ▸ hy'⟩⟩
  cases n with
  | var => simp [Node.deps] at hy
  | call c args =>
    simp only [Rebuilt, hrep] at hreb
    obtain ⟨c', args', hget, -, hargs⟩ := hreb
    exact hlist hget rfl hargs hy
  | tuple fields =>
    obtain ⟨fields', hget, hfields⟩ := hreb
    exact hlist hget rfl hfields hy
  | tupleGetItem t k =>
    simp only [Rebuilt, hrep] at hreb
    obtain ⟨t', ht, hcase⟩ := hreb
    obtain rfl : y = t := by simpa [Node.deps] using hy
    have hget : s.heap[r]? = some (.tupleGetItem t' k) := by
      rcases hcase with ⟨rfl, rfl⟩ | ⟨-, hget⟩
      · exact get_ext hs.ext hn
      · exact hget
    exact ⟨t', ht, .single ⟨_, hget, by simp [Node.deps]⟩⟩
  | function => simp [Node.deps] at hy

/-- The image of a replaced call or projection. -/
theorem key_image (hs : Rebuild replace h memo s) (hm : memo x = none) (hrep : replace x = some y)
    (hr : s.memo x = some r) (hnode : IsCall h x ∨ ∃ t k, h[x]? = some (.tupleGetItem t k)) :
    s.memo y = some r := by
  rcases hnode with ⟨c, args, hget⟩ | ⟨t, k, hget⟩
  · have hreb := hs.rebuilt hr hm hget
    simpa only [Rebuilt, hrep] using hreb
  · have hreb := hs.rebuilt hr hm hget
    simpa only [Rebuilt, hrep] using hreb

end StencilGraph.Relay

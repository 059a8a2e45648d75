import StencilGraph.Relay.CastParam

namespace StencilGraph.Relay
open Relation

/-- `y` is an object that `x` refers to, also through the functions it calls. -/
def RefReach (h : Heap) : Nat → Nat → Prop :=
  ReflTransGen fun x y => ∃ n, h[x]? = some n ∧ y ∈ n.refs

def OpCall (h : Heap) (x : Nat) (name : String) : Prop :=
  ∃ outputs args, h[x]? = some (.call (.op name outputs) args)

/-- The call `c` applies the stencil `name` somewhere below `x`. -/
structure StencilOf (h : Heap) (x : Nat) (name : String) (c : Nat) : Prop where
  reach : RefReach h x c
  op : OpCall h c name

variable {replace : Nat → Option Nat} {h h' : Heap} {memo : Nat → Option Nat} {s : Mutation}
  {G : Nat → Prop} {μ : Nat → Nat} {x y z r c c' : Nat} {name : String} {n : Node}

theorem OpCall.ext (hp : h <+: h') (hc : OpCall h c name) : OpCall h' c name := by
  obtain ⟨outputs, args, hget⟩ := hc
  exact ⟨outputs, args, get_ext hp hget⟩

theorem OpCall.isCall (hc : OpCall h c name) : IsCall h c := by
  obtain ⟨outputs, args, hget⟩ := hc
  exact ⟨_, args, hget⟩

/-- Two names of one call. -/
theorem OpCall.name_eq {name' : String} (hc : OpCall h c name) (hc' : OpCall h c name') :
    name = name' := by
  obtain ⟨outputs, args, hget⟩ := hc
  obtain ⟨outputs', args', hget'⟩ := hc'
  have heq := Option.some.inj (hget.symm.trans hget')
  injection heq with hcallee
  injection hcallee

theorem Reach.refReach (hr : Reach h x y) : RefReach h x y := by
  induction hr with
  | refl => exact .refl
  | tail _ hd ih =>
    obtain ⟨n, hn, hy⟩ := hd
    exact ih.tail ⟨n, hn, deps_subset_refs hy⟩

theorem InFunc.refReach {f : Nat} (hin : InFunc h f z) : RefReach h f z := by
  rcases hin with rfl | ⟨qs, bd, tag, hnode, hz⟩
  · exact .refl
  · cases hz with
    | inl hq => exact .single ⟨_, hnode, List.mem_append_left _ hq⟩
    | inr hr =>
      exact .head ⟨_, hnode, List.mem_append_right _ (List.mem_singleton.mpr rfl)⟩ hr.refReach

theorem RefReach.ext (hp : h <+: h') (hr : RefReach h x y) : RefReach h' x y := by
  induction hr with
  | refl => exact .refl
  | tail _ hd ih =>
    obtain ⟨n, hn, hy⟩ := hd
    exact ih.tail ⟨n, get_ext hp hn, hy⟩

theorem RefReach.of_ext (hw : Wf h) (hp : h <+: h') (hx : x < h.length) (hr : RefReach h' x y) :
    RefReach h x y ∧ y < h.length := by
  induction hr with
  | refl => exact ⟨.refl, hx⟩
  | tail _ hd ih =>
    obtain ⟨n, hn, hy⟩ := hd
    rw [get_ext_iff hp ih.2] at hn
    exact ⟨ih.1.tail ⟨n, hn, hy⟩, (hw _ n hn _ hy).trans ih.2⟩

theorem RefReach.le (hw : Wf h) (hr : RefReach h x y) : y ≤ x := by
  induction hr with
  | refl => exact le_rfl
  | tail _ hd ih =>
    obtain ⟨n, hn, hy⟩ := hd
    exact (hw _ n hn _ hy).le.trans ih

theorem StencilOf.ext (hp : h <+: h') (hc : StencilOf h x name c) : StencilOf h' x name c :=
  ⟨hc.reach.ext hp, hc.op.ext hp⟩

theorem StencilOf.of_ext (hw : Wf h) (hp : h <+: h') (hx : x < h.length)
    (hc : StencilOf h' x name c) : StencilOf h x name c := by
  obtain ⟨hreach, hlt⟩ := hc.reach.of_ext hw hp hx
  obtain ⟨outputs, args, hget⟩ := hc.op
  rw [get_ext_iff hp hlt] at hget
  exact ⟨hreach, outputs, args, hget⟩

theorem StencilOf.head (hn : h[x]? = some n) (hy : y ∈ n.refs) (hc : StencilOf h y name c) :
    StencilOf h x name c := ⟨.head ⟨n, hn, hy⟩ hc.reach, hc.op⟩

/-- A stencil below `x` is `x` itself or a stencil below one of its parts. -/
theorem StencilOf.cases (hn : h[x]? = some n) (hc : StencilOf h x name c) :
    c = x ∨ ∃ y ∈ n.refs, StencilOf h y name c := by
  rcases hc.reach.cases_head with rfl | ⟨y, ⟨n', hn', hy⟩, hyc⟩
  · exact Or.inl rfl
  · obtain rfl := Option.some.inj (hn.symm.trans hn')
    exact Or.inr ⟨y, hy, hyc, hc.op⟩

theorem not_stencilOf_var (hv : IsVar h x) : ¬ StencilOf h x name c := by
  intro hc
  obtain ⟨v, hget⟩ := hv
  cases hc.cases hget with
  | inl heq =>
    obtain ⟨outputs, args, hop⟩ := hc.op
    rw [heq, hget] at hop
    cases hop
  | inr hsub =>
    obtain ⟨y, hy, -⟩ := hsub
    cases hy

/-- `z` is visited below `x`. -/
def VisitReach (replace : Nat → Option Nat) (h : Heap) (memo : Nat → Option Nat) :
    Nat → Nat → Prop :=
  ReflTransGen fun x y => memo x = none ∧ ∃ n, h[x]? = some n ∧ y ∈ visited replace x n

/-- The old object `w` is taken over by a visit of `x`: the image of an object in the memo table or
of a variable. -/
def TakesOver (replace : Nat → Option Nat) (h : Heap) (memo : Nat → Option Nat) (x w : Nat) : Prop :=
  ∃ z, VisitReach replace h memo x z ∧
    (memo z = some w ∨ memo z = none ∧ IsVar h z ∧ w = (replace z).getD z)

/-- A stencil below the image of `x` is the image of a stencil visited below `x`, or it is below an
object that was taken over. -/
theorem stencil_origin (hs : Rebuild replace h memo s) (hv : Visitable replace h memo G μ)
    (hw : Wf h) (hseed : ∀ x w, memo x = some w → w < h.length) (hx : G x) (hr : s.memo x = some r)
    (hc : StencilOf s.heap r name c) :
    (∃ z, VisitReach replace h memo x z ∧ OpCall h z name ∧ s.memo z = some c) ∨
      ∃ w, TakesOver replace h memo x w ∧ StencilOf h w name c := by
  induction hμ : μ x using Nat.strong_induction_on generalizing x r with
  | _ m ih =>
    cases hm : memo x with
    | some w =>
      obtain rfl := Option.some.inj ((hs.keep x w hm).symm.trans hr)
      exact Or.inr ⟨w, ⟨x, .refl, Or.inl hm⟩, hc.of_ext hw hs.ext (hseed x w hm)⟩
    | none =>
      obtain ⟨n, hn, hvis⟩ := hv.node x hx hm
      have hreb := hs.rebuilt hr hm hn
      have hdown {y r : Nat} (hy : y ∈ visited replace x n) (hyr : s.memo y = some r)
          (hc : StencilOf s.heap r name c) :
          (∃ z, VisitReach replace h memo x z ∧ OpCall h z name ∧ s.memo z = some c) ∨
            ∃ w, TakesOver replace h memo x w ∧ StencilOf h w name c := by
        obtain ⟨hGy, hlt⟩ := hvis y hy
        have hstep : VisitReach replace h memo x y := .single ⟨hm, n, hn, hy⟩
        cases ih (μ y) (hμ ▸ hlt) hGy hyr hc rfl with
        | inl himage =>
          obtain ⟨z, hz, hop, hzc⟩ := himage
          exact Or.inl ⟨z, hstep.trans hz, hop, hzc⟩
        | inr htaken =>
          obtain ⟨w, ⟨z, hz, hcase⟩, hwc⟩ := htaken
          exact Or.inr ⟨w, ⟨z, hstep.trans hz, hcase⟩, hwc⟩
      -- a node that is rebuilt refers to images of what was visited
      have hkept {n' : Node} (hn' : s.heap[r]? = some n')
          (hrefs : ∀ r' ∈ n'.refs, ∃ y ∈ visited replace x n, s.memo y = some r')
          (hop : OpCall s.heap r name → OpCall h x name) :
          (∃ z, VisitReach replace h memo x z ∧ OpCall h z name ∧ s.memo z = some c) ∨
            ∃ w, TakesOver replace h memo x w ∧ StencilOf h w name c := by
        cases hc.cases hn' with
        | inl heq => exact Or.inl ⟨x, .refl, hop (heq ▸ hc.op), heq ▸ hr⟩
        | inr hsub =>
          obtain ⟨r', hr', hc'⟩ := hsub
          obtain ⟨y, hy, hyr⟩ := hrefs r' hr'
          exact hdown hy hyr hc'
      have hno {n' : Node} (hn' : s.heap[r]? = some n') (hne : ∀ outputs args,
          n' ≠ .call (.op name outputs) args) : OpCall s.heap r name → OpCall h x name := by
        intro ⟨outputs, args, hget⟩
        exact absurd (Option.some.inj (hn'.symm.trans hget)) (hne outputs args)
      cases n with
      | var v =>
        obtain rfl : r = (replace x).getD x := hreb
        refine Or.inr ⟨_, ⟨x, .refl, Or.inr ⟨hm, ⟨v, hn⟩, rfl⟩⟩, hc.of_ext hw hs.ext ?_⟩
        cases hrep : replace x with
        | none => exact lt_of_get hn
        | some y => exact hv.target x y hx hrep
      | call callee args =>
        cases hrep : replace x with
        | some y =>
          simp only [Rebuilt, hrep] at hreb
          exact hdown (by simp [visited, hrep]) hreb hc
        | none =>
          simp only [Rebuilt, hrep] at hreb
          obtain ⟨callee', args', hget, hcallee, hargs⟩ := hreb
          apply hkept hget
          · intro r' hr'
            simp only [visited, hrep, List.mem_append]
            cases List.mem_append.mp hr' with
            | inl hr' =>
              cases callee with
              | op _ _ =>
                obtain rfl : callee' = _ := hcallee
                cases hr'
              | func f =>
                obtain ⟨f', hf, rfl⟩ := hcallee
                obtain rfl : r' = f' := List.mem_singleton.mp hr'
                exact ⟨f, Or.inl (List.mem_singleton.mpr rfl), hf⟩
            | inr hr' =>
              obtain ⟨y, hy, hyr⟩ := forall₂_mem hargs hr'
              exact ⟨y, Or.inr hy, hyr⟩
          · intro ⟨outputs, args'', hget'⟩
            cases callee with
            | op name' outputs' =>
              obtain rfl : callee' = _ := hcallee
              have heq := Option.some.inj (hget.symm.trans hget')
              injection heq with hcallee'
              injection hcallee' with hname
              exact ⟨outputs', args, hname ▸ hn⟩
            | func f =>
              obtain ⟨f', -, rfl⟩ := hcallee
              cases Option.some.inj (hget.symm.trans hget')
      | tuple fields =>
        obtain ⟨fields', hget, hfields⟩ := hreb
        exact hkept hget (fun r' hr' => forall₂_mem hfields hr') (hno hget (by simp))
      | tupleGetItem t k =>
        cases hrep : replace x with
        | some y =>
          simp only [Rebuilt, hrep] at hreb
          exact hdown (by simp [visited, hrep]) hreb hc
        | none =>
          simp only [Rebuilt, hrep] at hreb
          obtain ⟨t', ht, hcase⟩ := hreb
          have hget : s.heap[r]? = some (.tupleGetItem t' k) := by
            rcases hcase with ⟨rfl, rfl⟩ | ⟨-, hget⟩
            · exact get_ext hs.ext hn
            · exact hget
          refine hkept hget (fun r' hr' => ?_) (hno hget (by simp))
          obtain rfl : r' = t' := List.mem_singleton.mp hr'
          exact ⟨t, by simp [visited, hrep], ht⟩
      | function ps b tag =>
        obtain ⟨ps', b', hget, hps, hb⟩ := hreb
        refine hkept hget (fun r' hr' => ?_) (hno hget (by simp))
        cases List.mem_append.mp hr' with
        | inl hr' =>
          obtain ⟨y, hy, hyr⟩ := forall₂_mem hps hr'
          exact ⟨y, List.mem_append_left _ hy, hyr⟩
        | inr hr' =>
          obtain rfl : r' = b' := List.mem_singleton.mp hr'
          exact ⟨b, List.mem_append_right _ (List.mem_singleton.mpr rfl), hb⟩

theorem visited_subset_refs (hrep : replace x = none) (hy : y ∈ visited replace x n) :
    y ∈ n.refs := by
  cases n with
  | var => cases hy
  | call callee args =>
    simp only [visited, hrep] at hy
    exact hy
  | tuple fields => exact hy
  | tupleGetItem t k =>
    simp only [visited, hrep] at hy
    exact hy
  | function ps b tag => exact hy

/-- The stencils of a call: the one it applies, or those of the function it calls. -/
inductive OwnStencil (h : Heap) (x : Nat) (name : String) : Nat → Prop where
  | op (hx : OpCall h x name) : OwnStencil h x name x
  | func {f c : Nat} {args : List Nat} (hx : h[x]? = some (.call (.func f) args))
      (hc : StencilOf h f name c) : OwnStencil h x name c

/-- The stencils of a call have their names in `T`, and no name stands twice. -/
structure Tagged (h : Heap) (x : Nat) (T : List String) : Prop where
  names : ∀ name c, OwnStencil h x name c → name ∈ T
  unique : ∀ name c c', OwnStencil h x name c → OwnStencil h x name c' → c = c'

/-- The stencils below the expressions `xs` have their names in `T`, and no name stands twice. -/
structure Distinct (h : Heap) (xs : List Nat) (T : List String) : Prop where
  names : ∀ x ∈ xs, ∀ name c, StencilOf h x name c → name ∈ T
  unique : ∀ x ∈ xs, ∀ y ∈ xs, ∀ name c c', StencilOf h x name c → StencilOf h y name c' → c = c'

variable {T : List String} {O L : Nat → Prop} {x' f f' : Nat}

theorem OwnStencil.of_ext (hw : Wf h) (hp : h <+: h') (hx : x < h.length)
    (hc : OwnStencil h' x name c) : OwnStencil h x name c := by
  cases hc with
  | op hop =>
    obtain ⟨outputs, args, hget⟩ := hop
    rw [get_ext_iff hp hx] at hget
    exact .op ⟨outputs, args, hget⟩
  | func hget hc =>
    rw [get_ext_iff hp hx] at hget
    exact .func hget (hc.of_ext hw hp ((wf_func hw hget).trans hx))

theorem Tagged.ext (hw : Wf h) (hp : h <+: h') (hx : x < h.length) (ht : Tagged h x T) :
    Tagged h' x T :=
  ⟨fun name c hc => ht.names name c (hc.of_ext hw hp hx),
    fun name c c' hc hc' => ht.unique name c c' (hc.of_ext hw hp hx) (hc'.of_ext hw hp hx)⟩

theorem Distinct.ext {xs : List Nat} (hw : Wf h) (hp : h <+: h') (hx : ∀ x ∈ xs, x < h.length)
    (hd : Distinct h xs T) : Distinct h' xs T :=
  ⟨fun x hxs name c hc => hd.names x hxs name c (hc.of_ext hw hp (hx x hxs)),
    fun x hxs y hys name c c' hc hc' => hd.unique x hxs y hys name c c'
      (hc.of_ext hw hp (hx x hxs)) (hc'.of_ext hw hp (hx y hys))⟩

theorem Distinct.mono {xs ys : List Nat} {T' : List String} (hd : Distinct h xs T) (hys : ys ⊆ xs)
    (hT : T ⊆ T') : Distinct h ys T' :=
  ⟨fun x hx name c hc => hT (hd.names x (hys hx) name c hc),
    fun x hx y hy name c c' hc hc' => hd.unique x (hys hx) y (hys hy) name c c' hc hc'⟩

/-- What a visit goes through below a function that it does not touch. -/
theorem visitReach_func {m b : Nat} {qs : List Nat} {tag : List String} (hw : Wf h)
    (hok : FuncOk h f m qs b tag) (hu : ∀ z, InFunc h f z → replace z = none)
    (hz : VisitReach replace h memo f z) : InFunc h f z ∧ RefReach h f z := by
  induction hz with
  | refl => exact ⟨Or.inl rfl, .refl⟩
  | tail _ hd ih =>
    obtain ⟨hin, hreach⟩ := ih
    obtain ⟨-, n, hn, hy⟩ := hd
    obtain ⟨n', hn', hvis⟩ := inFunc_visited replace hw hok hin (hu _ hin)
    obtain rfl := Option.some.inj (hn'.symm.trans hn)
    exact ⟨(hvis _ hy).1, hreach.tail ⟨n', hn', visited_subset_refs (hu _ hin) hy⟩⟩

/-- The stencils of a copied function are the images of its stencils. -/
theorem Region.func_stencil (hr : Region replace h memo O L) (hw : Wf h)
    (hseed : ∀ x w, memo x = some w → w < h.length) (hs : Rebuild replace h memo s)
    {args : List Nat} (hx : O x) (hcall : h[x]? = some (.call (.func f) args))
    (hf : s.memo f = some f') (hc : StencilOf s.heap f' name c) :
    ∃ z, StencilOf h f name z ∧ s.memo z = some c := by
  obtain ⟨qs, b, tag, hok⟩ := hr.callable x f args hx hcall
  have hin {z : Nat} (hz : InFunc h f z) := hr.inside z ⟨x, f, args, hx, hcall, hz⟩
  have hreach {z : Nat} (hz : VisitReach replace h memo f z) :=
    visitReach_func hw hok (fun z hz => (hin hz).1) hz
  cases stencil_origin hs (hr.visitable hw) hw hseed (Or.inr ⟨x, f, args, hx, hcall, Or.inl rfl⟩)
    hf hc with
  | inl himage =>
    obtain ⟨z, hz, hop, hzc⟩ := himage
    exact ⟨z, ⟨(hreach hz).2, hop⟩, hzc⟩
  | inr htaken =>
    obtain ⟨w, ⟨z, hz, hcase⟩, hwc⟩ := htaken
    obtain ⟨hrep, hmemo, -⟩ := hin (hreach hz).1
    rcases hcase with hseeded | ⟨-, hv, rfl⟩
    · rw [hmemo] at hseeded
      cases hseeded
    · rw [hrep] at hwc
      exact absurd hwc (not_stencilOf_var hv)

/-- A copied call has the stencils of the call. -/
theorem Region.tagged (hr : Region replace h memo O L) (hw : Wf h)
    (hseed : ∀ x w, memo x = some w → w < h.length) (hs : Rebuild replace h memo s) (hx : O x)
    (hcall : IsCall h x) (hrep : replace x = none) (hm : memo x = none) (hxx' : s.memo x = some x')
    (ht : Tagged h x T) : Tagged s.heap x' T := by
  obtain ⟨callee, args, hget⟩ := hcall
  have hreb := hs.rebuilt hxx' hm hget
  simp only [Rebuilt, hrep] at hreb
  obtain ⟨callee', args', hget', hcallee, -⟩ := hreb
  have horigin {name : String} {c : Nat} (hc : OwnStencil s.heap x' name c) :
      ∃ z, OwnStencil h x name z ∧ s.memo z = some c := by
    cases callee with
    | op name' outputs =>
      obtain rfl : callee' = _ := hcallee
      cases hc with
      | op hop =>
        obtain ⟨outputs', args'', hop⟩ := hop
        have heq := Option.some.inj (hget'.symm.trans hop)
        injection heq with hcallee'
        injection hcallee' with hname
        exact ⟨x, .op ⟨outputs, args, hname ▸ hget⟩, hxx'⟩
      | func hcall' => cases Option.some.inj (hget'.symm.trans hcall')
    | func f =>
      obtain ⟨f', hf, rfl⟩ := hcallee
      cases hc with
      | op hop =>
        obtain ⟨outputs', args'', hop⟩ := hop
        cases Option.some.inj (hget'.symm.trans hop)
      | func hcall' hc =>
        have heq := Option.some.inj (hget'.symm.trans hcall')
        injection heq with hcallee'
        obtain rfl := Callee.func.inj hcallee'
        obtain ⟨z, hz, hzc⟩ := hr.func_stencil hw hseed hs hx hget hf hc
        exact ⟨z, .func hget hz, hzc⟩
  constructor
  · intro name c hc
    obtain ⟨z, hz, -⟩ := horigin hc
    exact ht.names name z hz
  · intro name c c' hc hc'
    obtain ⟨z, hz, hzc⟩ := horigin hc
    obtain ⟨z', hz', hzc'⟩ := horigin hc'
    obtain rfl := ht.unique name z z' hz hz'
    exact Option.some.inj (hzc.symm.trans hzc')

section Flatten

variable {ps args keep : List Nat} {T' : List String}

theorem not_typed_function {callable : Nat → Nat → Prop} {item : Nat → Prop} {qs : List Nat}
    {b : Nat} {tag : List String} (hx : h[x]? = some (.function qs b tag)) :
    ¬ Typed h callable item ps x := by
  intro ht
  obtain ⟨n, hn, hnf⟩ := ht.not_function
  exact hnf qs b tag (Option.some.inj (hn.symm.trans hx))

/-- A flat expression refers to what it is computed from. -/
theorem Typed.refs_flat {item : Nat → Prop} (ht : Typed h noCall item ps x) (hn : h[x]? = some n)
    (hy : y ∈ n.refs) : y ∈ n.deps := by
  cases ht with
  | var _ v hget =>
    obtain rfl := Option.some.inj (hget.symm.trans hn)
    exact hy
  | op _ name outputs args hget =>
    obtain rfl := Option.some.inj (hget.symm.trans hn)
    exact hy
  | func _ f args hget hf => exact hf.elim
  | tuple _ fields hget =>
    obtain rfl := Option.some.inj (hget.symm.trans hn)
    exact hy
  | item _ t k m hget =>
    obtain rfl := Option.some.inj (hget.symm.trans hn)
    exact hy

/-- What a visit goes through below a flat expression, when replaced expressions are variables or
become expressions below them. -/
theorem visitReach_flat {item : Nat → Prop} (ht : Typed h noCall item ps x)
    (htarget : ∀ z y, Reach h x z → replace z = some y → Reach h z y ∨ IsVar h z)
    (hz : VisitReach replace h memo x z) : Reach h x z := by
  induction hz with
  | refl => exact .refl
  | @tail z y _ hd ih =>
    obtain ⟨-, n, hn, hy⟩ := hd
    cases hrep : replace z with
    | none => exact ih.tail ⟨n, hn, (ih.typed ht).refs_flat hn (visited_subset_refs hrep hy)⟩
    | some w =>
      cases htarget z w ih hrep with
      | inl hreach =>
        have hcase : y = w ∨ y ∈ n.deps := by
          cases n with
          | call | tupleGetItem =>
            simp only [visited, hrep, List.mem_singleton] at hy
            exact Or.inl hy
          | var => cases hy
          | tuple => exact Or.inr hy
          | function => exact absurd (ih.typed ht) (not_typed_function hn)
        exact hcase.elim (fun heq => heq ▸ ih.trans hreach) fun hyd => ih.tail ⟨n, hn, hyd⟩
      | inr hv =>
        obtain ⟨v, hv⟩ := hv
        obtain rfl := Option.some.inj (hv.symm.trans hn)
        cases hy

/-- The stencils of a flattened call are copies of those of the function, or those of the
arguments. -/
theorem flattenFunc_stencil (hw : Wf h) {b : Nat} {qs : List Nat} {tag : List String}
    (hx : h[x]? = some (.call (.func f) args)) (hok : FuncOk h f args.length qs b tag)
    (hargs : ∀ a ∈ args, a < h.length) (hrun : GroupOp.flattenFunc x h = some (r, h')) :
    ∃ image : Nat → Option Nat, ∀ name c, StencilOf h' r name c →
      (∃ z, StencilOf h f name z ∧ image z = some c) ∨ ∃ y ∈ args, StencilOf h y name c := by
  have hkeyvar {z y : Nat} (hrep : ReplaceMap.get (qs.zip args) z = some y) : IsVar h z :=
    hok.vars z (zip_get_mem hrep).1
  have hvis : Visitable (ReplaceMap.get (qs.zip args)) h (fun _ => none) (Reach h b) id :=
    visitable_flat hw hok.body fun z y _ hrep =>
      Or.inr ⟨hkeyvar hrep, hargs y (zip_get_mem hrep).2⟩
  have hbody := hok.body.lt
  obtain ⟨r', s, hvisit, hs, hr⟩ := visit_run hw hvis (by simp) (x := b) .refl (visitFuel h)
    (by simp only [id, visitFuel]; omega)
  obtain ⟨rfl, rfl⟩ : r' = r ∧ s.heap = h' := by
    simpa [GroupOp.flattenFunc, hx, hok.node, replaceParams, Mutation.start, hvisit] using hrun
  refine ⟨s.memo, fun name c hc => ?_⟩
  have hreach {z : Nat} (hz : VisitReach (ReplaceMap.get (qs.zip args)) h (fun _ => none) b z) :=
    visitReach_flat hok.body (fun z y _ hrep => Or.inr (hkeyvar hrep)) hz
  cases stencil_origin hs hvis hw (by simp) .refl hr hc with
  | inl himage =>
    obtain ⟨z, hz, hop, hzc⟩ := himage
    have hbz : StencilOf h b name z := ⟨(hreach hz).refReach, hop⟩
    exact Or.inl ⟨z, hbz.head hok.node (List.mem_append_right _ (List.mem_singleton.mpr rfl)), hzc⟩
  | inr htaken =>
    obtain ⟨w, ⟨z, -, hcase⟩, hwc⟩ := htaken
    rcases hcase with hseeded | ⟨-, hv, rfl⟩
    · cases hseeded
    · cases hrep : ReplaceMap.get (qs.zip args) z with
      | none =>
        rw [hrep] at hwc
        exact absurd hwc (not_stencilOf_var hv)
      | some y =>
        rw [hrep] at hwc
        exact Or.inr ⟨y, (zip_get_mem hrep).2, hwc⟩

theorem flattenCall_stencil (hw : Wf h) {callee : Callee}
    (hx : h[x]? = some (.call callee args)) (hc : ∀ f, callee = .func f → Callable h f args.length)
    (hrun : GroupOp.flattenCall x h = some (r, h')) :
    ∃ image : Nat → Option Nat, ∀ name c, StencilOf h' r name c →
      (∃ z, OwnStencil h x name z ∧ image z = some c) ∨ ∃ y ∈ args, StencilOf h y name c := by
  cases callee with
  | op name' outputs =>
    obtain ⟨rfl, rfl⟩ : x = r ∧ h = h' := by
      simpa [GroupOp.flattenCall, GroupOp.callsFunction, hx] using hrun
    refine ⟨some, fun name c hc => ?_⟩
    cases hc.cases hx with
    | inl heq => exact Or.inl ⟨x, .op (heq ▸ hc.op), congrArg some heq.symm⟩
    | inr hsub => exact Or.inr hsub
  | func f =>
    obtain ⟨qs, b, tag, hok⟩ := hc f rfl
    rw [flattenCall_func hx] at hrun
    have hargs (a : Nat) (ha : a ∈ args) : a < h.length := (wf_arg hw hx ha).trans (lt_of_get hx)
    obtain ⟨image, himage⟩ := flattenFunc_stencil hw hx hok hargs hrun
    refine ⟨image, fun name c hc => (himage name c hc).imp_left fun hz => ?_⟩
    obtain ⟨z, hz, hzc⟩ := hz
    exact ⟨z, .func hx hz, hzc⟩

/-- Flattening a call whose arguments have stencils of other names, all of them among `keep`. -/
theorem flattenCall_distinct (hw : Wf h) {callee : Callee}
    (hx : h[x]? = some (.call callee args)) (hc : ∀ f, callee = .func f → Callable h f args.length)
    (hrun : GroupOp.flattenCall x h = some (r, h')) (he : h <+: h') (ht : Tagged h x T)
    (hkeep : ∀ k ∈ keep, k < h.length) (hd : Distinct h keep T') (hT : ∀ name ∈ T, name ∉ T')
    (hargs : ∀ y ∈ args, ∀ name c, StencilOf h y name c → ∃ k ∈ keep, StencilOf h k name c) :
    Distinct h' (r :: keep) (T ++ T') := by
  obtain ⟨image, himage⟩ := flattenCall_stencil hw hx hc hrun
  have hcase {y : Nat} (hy : y ∈ r :: keep) {name : String} {c : Nat} (hc : StencilOf h' y name c) :
      (∃ z, OwnStencil h x name z ∧ image z = some c) ∨ ∃ k ∈ keep, StencilOf h k name c := by
    cases List.mem_cons.mp hy with
    | inl heq =>
      rw [heq] at hc
      refine (himage name c hc).imp_right fun hsub => ?_
      obtain ⟨y, hy, hyc⟩ := hsub
      exact hargs y hy name c hyc
    | inr hk => exact Or.inr ⟨y, hk, hc.of_ext hw he (hkeep y hk)⟩
  constructor
  · intro y hy name c hc
    rcases hcase hy hc with ⟨z, hz, -⟩ | ⟨k, hk, hkc⟩
    · exact List.mem_append_left _ (ht.names name z hz)
    · exact List.mem_append_right _ (hd.names k hk name c hkc)
  · intro y hy y' hy' name c c' hc hc'
    rcases hcase hy hc with ⟨z, hz, hzc⟩ | ⟨k, hk, hkc⟩ <;>
      rcases hcase hy' hc' with ⟨z', hz', hzc'⟩ | ⟨k', hk', hkc'⟩
    · obtain rfl := ht.unique name z z' hz hz'
      exact Option.some.inj (hzc.symm.trans hzc')
    · exact absurd (hd.names k' hk' name c' hkc') (hT name (ht.names name z hz))
    · exact absurd (hd.names k hk name c hkc) (hT name (ht.names name z' hz'))
    · exact hd.unique k hk k' hk' name c c' hkc hkc'

theorem makeItems_stencil (hw : Wf h) (hx : x < h.length) (n index : Nat)
    (hy : y ∈ (GroupOp.makeItems x n index h).1)
    (hc : StencilOf (GroupOp.makeItems x n index h).2 y name c) : StencilOf h x name c := by
  obtain ⟨he, hitems⟩ := makeItems_spec hw hx n index
  obtain ⟨i, -, hget⟩ := forall₂_mem hitems hy
  cases hc.cases hget with
  | inl heq =>
    obtain ⟨outputs, args, hop⟩ := hc.op
    rw [heq, hget] at hop
    cases hop
  | inr hsub =>
    obtain ⟨z, hz, hzc⟩ := hsub
    obtain rfl : z = x := List.mem_singleton.mp hz
    exact hzc.of_ext hw he.ext hx

theorem tensors_stencil (hw : Wf h) (hx : x < h.length) (hy : y ∈ (GroupOp.tensors x h).1)
    (hc : StencilOf (GroupOp.tensors x h).2 y name c) : StencilOf h x name c := by
  unfold GroupOp.tensors at hy hc
  cases hty : typeOf h x with
  | tensor =>
    simp only [hty, List.mem_singleton] at hy hc
    exact hy ▸ hc
  | tuple n =>
    simp only [hty] at hy hc
    exact makeItems_stencil hw hx n 0 hy hc

/-- The tuple of the tensors of two expressions has their stencils. -/
theorem tensorTuple_distinct {a b : Nat} (hw : Wf h) (ha : Typed h noCall anyItem ps a)
    (hb : Typed h noCall anyItem ps b) (hd : Distinct h [a, b] T) :
    Distinct (GroupOp.tensorTuple a b h).2 [(GroupOp.tensorTuple a b h).1] T := by
  obtain ⟨he₁, -, hty₁, -⟩ := tensors_spec hw ha
  obtain ⟨he₂, -, hty₂, -⟩ := tensors_spec he₁.wf (he₁.typed hw hb)
  have hsub {name : String} {c : Nat}
      (hc : StencilOf (GroupOp.tensorTuple a b h).2 (GroupOp.tensorTuple a b h).1 name c) :
      ∃ z ∈ [a, b], StencilOf h z name c := by
    unfold GroupOp.tensorTuple GroupOp.alloc at hc
    simp only at hc
    have hext := List.prefix_append (GroupOp.tensors b (GroupOp.tensors a h).2).2
      [Node.tuple ((GroupOp.tensors a h).1 ++ (GroupOp.tensors b (GroupOp.tensors a h).2).1)]
    cases hc.cases (List.getElem?_concat_length ..) with
    | inl heq =>
      obtain ⟨outputs, args, hop⟩ := hc.op
      rw [heq, List.getElem?_concat_length] at hop
      cases hop
    | inr hsub =>
      obtain ⟨y, hy, hyc⟩ := hsub
      cases List.mem_append.mp hy with
      | inl hy =>
        have hlt := (hty₁ y hy).1.lt
        have hyc₁ := (hyc.of_ext he₂.wf hext (hlt.trans_le he₂.ext.length_le)).of_ext he₁.wf he₂.ext
          hlt
        exact ⟨a, List.mem_cons_self, tensors_stencil hw ha.lt hy hyc₁⟩
      | inr hy =>
        have hyc₂ := hyc.of_ext he₂.wf hext (hty₂ y hy).1.lt
        have hb₁ := tensors_stencil he₁.wf (he₁.typed hw hb).lt hy hyc₂
        exact ⟨b, List.mem_cons_of_mem _ List.mem_cons_self, hb₁.of_ext hw he₁.ext hb.lt⟩
  constructor
  · intro x hx name c hc
    rw [List.mem_singleton.mp hx] at hc
    obtain ⟨z, hz, hzc⟩ := hsub hc
    exact hd.names z hz name c hzc
  · intro x hx y hy name c c' hc hc'
    rw [List.mem_singleton.mp hx] at hc
    rw [List.mem_singleton.mp hy] at hc'
    obtain ⟨z, hz, hzc⟩ := hsub hc
    obtain ⟨z', hz', hzc'⟩ := hsub hc'
    exact hd.unique z hz z' hz' name c c' hzc hzc'

/-- `EmitTuple` copies stencils. -/
theorem emitTuple_distinct (hw : Wf h) (ht : Typed h noCall anyItem ps x)
    (hrun : emitTuple x h = some (r, h')) (hd : Distinct h [x] T) : Distinct h' [r] T := by
  have htarget {z y : Nat} (he : emitTarget h z = some y) : Reach h z y ∧ y < z := by
    obtain ⟨t, k, fields, hz, ht, hk⟩ := emitTarget_some he
    have hmem := List.mem_of_getElem? hk
    have := wf_item hw hz
    have := wf_field hw ht hmem
    exact ⟨reach_dep hz (by simp [Node.deps]) (reach_dep ht hmem .refl), by omega⟩
  have hvis : Visitable (emitTarget h) h (fun _ => none) (Reach h x) id :=
    visitable_flat hw ht fun z y _ he => Or.inl (htarget he)
  obtain ⟨r', s, hvisit, hs, hr⟩ := visit_run hw hvis (by simp) (x := x) .refl (visitFuel h)
    (by have := ht.lt; simp only [id, visitFuel]; omega)
  obtain ⟨rfl, rfl⟩ : r' = r ∧ s.heap = h' := by
    simpa [emitTuple, Mutation.start, hvisit] using hrun
  have horigin {name : String} {c : Nat} (hc : StencilOf s.heap r' name c) :
      ∃ z, StencilOf h x name z ∧ s.memo z = some c := by
    have hreach {z : Nat} (hz : VisitReach (emitTarget h) h (fun _ => none) x z) :=
      visitReach_flat ht (fun z y _ he => Or.inl (htarget he).1) hz
    cases stencil_origin hs hvis hw (by simp) .refl hr hc with
    | inl himage =>
      obtain ⟨z, hz, hop, hzc⟩ := himage
      exact ⟨z, ⟨(hreach hz).refReach, hop⟩, hzc⟩
    | inr htaken =>
      obtain ⟨w, ⟨z, -, hcase⟩, hwc⟩ := htaken
      rcases hcase with hseeded | ⟨-, ⟨v, hv⟩, rfl⟩
      · cases hseeded
      · rw [emitTarget_none hv (by simp)] at hwc
        exact absurd hwc (not_stencilOf_var ⟨v, hv⟩)
  constructor
  · intro y hy name c hc
    rw [List.mem_singleton.mp hy] at hc
    obtain ⟨z, hz, -⟩ := horigin hc
    exact hd.names x (List.mem_singleton.mpr rfl) name z hz
  · intro y hy y' hy' name c c' hc hc'
    rw [List.mem_singleton.mp hy] at hc
    rw [List.mem_singleton.mp hy'] at hc'
    obtain ⟨z, hz, hzc⟩ := horigin hc
    obtain ⟨z', hz', hzc'⟩ := horigin hc'
    obtain rfl := hd.unique x (List.mem_singleton.mpr rfl) x (List.mem_singleton.mpr rfl) name z z'
      hz hz'
    exact Option.some.inj (hzc.symm.trans hzc')

end Flatten

end StencilGraph.Relay

import Mathlib.Data.List.Forall2
import StencilGraph.Relay.Mutator
import StencilGraph.Relay.Value

namespace StencilGraph.Relay

/-- The objects a visit of `x` goes on to. -/
def visited (replace : Nat → Option Nat) (x : Nat) : Node → List Nat
  | .var _ => []
  | .call callee args => match replace x with
    | some y => [y]
    | none => callee.refs ++ args
  | .tuple fields => fields
  | .tupleGetItem t _ => match replace x with
    | some y => [y]
    | none => [t]
  | .function params body _ => params ++ [body]

/-- `Callee` objects related by a memo table. -/
def SameCallee (memo : Nat → Option Nat) : Callee → Callee → Prop
  | .op name outputs, c => c = .op name outputs
  | .func f, c => ∃ f', memo f = some f' ∧ c = .func f'

/-- How the image `r` of the object `x` is made from the images of what `x` refers to. -/
def Rebuilt (replace : Nat → Option Nat) (s : Mutation) (x r : Nat) : Node → Prop
  | .var _ => r = (replace x).getD x
  | .call callee args => match replace x with
    | some y => s.memo y = some r
    | none => ∃ callee' args', s.heap[r]? = some (.call callee' args') ∧
      SameCallee s.memo callee callee' ∧ List.Forall₂ (fun a a' => s.memo a = some a') args args'
  | .tuple fields => ∃ fields', s.heap[r]? = some (.tuple fields') ∧
    List.Forall₂ (fun a a' => s.memo a = some a') fields fields'
  | .tupleGetItem t k => match replace x with
    | some y => s.memo y = some r
    | none => ∃ t', s.memo t = some t' ∧
      ((t' = t ∧ r = x) ∨ (t' ≠ t ∧ s.heap[r]? = some (.tupleGetItem t' k)))
  | .function params body tag => ∃ params' body', s.heap[r]? = some (.function params' body' tag) ∧
    List.Forall₂ (fun a a' => s.memo a = some a') params params' ∧ s.memo body = some body'

/-- A node that a visit rebuilds as a new object. -/
def Fresh (replace : Nat → Option Nat) (s : Mutation) (x : Nat) : Node → Prop
  | .var _ => False
  | .call _ _ => replace x = none
  | .tuple _ => True
  | .tupleGetItem t _ => replace x = none ∧ s.memo t ≠ some t
  | .function _ _ _ => True

/-- The state of a visit that started on the heap `h` with the memo table `memo`. -/
structure Rebuild (replace : Nat → Option Nat) (h : Heap) (memo : Nat → Option Nat) (s : Mutation) :
    Prop where
  ext : h <+: s.heap
  wf : Wf s.heap
  keep : ∀ x r, memo x = some r → s.memo x = some r
  bound : ∀ x r, s.memo x = some r → r < s.heap.length
  image : ∀ x r, s.memo x = some r → memo x = some r ∨
    ∃ n, h[x]? = some n ∧ Rebuilt replace s x r n
  fresh : ∀ x r n, s.memo x = some r → memo x = none → h[x]? = some n → Fresh replace s x n →
    h.length ≤ r
  inj : ∀ x y r n m, s.memo x = some r → s.memo y = some r → memo x = none → memo y = none →
    h[x]? = some n → h[y]? = some m → Fresh replace s x n → Fresh replace s y m → x = y

/-- What later steps of a visit leave in place. -/
structure Grows (s s' : Mutation) : Prop where
  heap : s.heap <+: s'.heap
  memo : ∀ x r, s.memo x = some r → s'.memo x = some r

theorem Grows.refl (s : Mutation) : Grows s s := ⟨List.prefix_refl _, fun _ _ h => h⟩

theorem Grows.trans {s₁ s₂ s₃ : Mutation} (h₁ : Grows s₁ s₂) (h₂ : Grows s₂ s₃) : Grows s₁ s₃ :=
  ⟨h₁.heap.trans h₂.heap, fun x r h => h₂.memo x r (h₁.memo x r h)⟩

variable {replace : Nat → Option Nat} {h : Heap} {memo : Nat → Option Nat} {s s' : Mutation}

theorem forall₂_mono {as as' : List Nat} (hg : Grows s s')
    (hf : List.Forall₂ (fun a a' => s.memo a = some a') as as') :
    List.Forall₂ (fun a a' => s'.memo a = some a') as as' :=
  hf.imp fun _ _ ha => hg.memo _ _ ha

theorem Rebuilt.mono (hg : Grows s s') {x r : Nat} {n : Node} (hr : Rebuilt replace s x r n) :
    Rebuilt replace s' x r n := by
  cases n with
  | var => exact hr
  | call callee args =>
    unfold Rebuilt at hr ⊢
    cases hrep : replace x with
    | some y =>
      simp only [hrep] at hr ⊢
      exact hg.memo _ _ hr
    | none =>
      simp only [hrep] at hr ⊢
      obtain ⟨c', as', hget, hc, has⟩ := hr
      refine ⟨c', as', get_ext hg.heap hget, ?_, forall₂_mono hg has⟩
      cases callee with
      | op => exact hc
      | func f =>
        obtain ⟨f', hf, rfl⟩ := hc
        exact ⟨f', hg.memo _ _ hf, rfl⟩
  | tuple fields =>
    obtain ⟨fs', hget, hfs⟩ := hr
    exact ⟨fs', get_ext hg.heap hget, forall₂_mono hg hfs⟩
  | tupleGetItem t k =>
    unfold Rebuilt at hr ⊢
    cases hrep : replace x with
    | some y =>
      simp only [hrep] at hr ⊢
      exact hg.memo _ _ hr
    | none =>
      simp only [hrep] at hr ⊢
      obtain ⟨t', ht, h1 | ⟨h1, h2⟩⟩ := hr
      · exact ⟨t', hg.memo _ _ ht, Or.inl h1⟩
      · exact ⟨t', hg.memo _ _ ht, Or.inr ⟨h1, get_ext hg.heap h2⟩⟩
  | function ps b tag =>
    obtain ⟨ps', b', hget, hps, hb⟩ := hr
    exact ⟨ps', b', get_ext hg.heap hget, forall₂_mono hg hps, hg.memo _ _ hb⟩

theorem Fresh.anti (hg : Grows s s') {x r : Nat} {n : Node} (hr : Rebuilt replace s x r n)
    (hf : Fresh replace s' x n) : Fresh replace s x n := by
  cases n with
  | tupleGetItem t k =>
    refine ⟨hf.1, fun ht => hf.2 (hg.memo _ _ ht)⟩
  | _ => exact hf

/-- Allocating a node whose references exist. -/
theorem Rebuild.alloc (hs : Rebuild replace h memo s) {n : Node} (hn : ∀ y ∈ n.refs, y < s.heap.length) :
    Rebuild replace h memo (s.alloc n).2 ∧ Grows s (s.alloc n).2 ∧
      (s.alloc n).2.heap[(s.alloc n).1]? = some n := by
  have hg : Grows s (s.alloc n).2 := ⟨List.prefix_append _ _, fun _ _ h => h⟩
  refine ⟨⟨hs.ext.trans hg.heap, wf_append hs.wf hn, hs.keep, ?_, ?_, hs.fresh, hs.inj⟩, hg, ?_⟩
  · intro x r hx
    have := hs.bound x r hx
    simp only [Mutation.alloc, List.length_append, List.length_singleton]
    omega
  · intro x r hx
    rcases hs.image x r hx with h1 | ⟨m, hm, hr⟩
    · exact Or.inl h1
    · exact Or.inr ⟨m, hm, hr.mono hg⟩
  · simp [Mutation.alloc]

/-- Recording the image of an object of the starting heap. -/
theorem Rebuild.record (hs : Rebuild replace h memo s) {x r : Nat} {n : Node}
    (hx : s.memo x = none) (hn : h[x]? = some n) (hr : Rebuilt replace s x r n)
    (hb : r < s.heap.length)
    (hfresh : Fresh replace s x n → h.length ≤ r ∧ ∀ y, s.memo y = some r → memo y = none →
      ∀ m, h[y]? = some m → Fresh replace s y m → False) :
    Rebuild replace h memo (s.record x r) ∧ Grows s (s.record x r) ∧
      (s.record x r).memo x = some r := by
  have hself : (s.record x r).memo x = some r := Function.update_self ..
  have hother {y : Nat} (hy : y ≠ x) : (s.record x r).memo y = s.memo y := Function.update_of_ne hy ..
  have hg : Grows s (s.record x r) := by
    refine ⟨List.prefix_refl _, fun y q hq => ?_⟩
    have hyx : y ≠ x := by
      rintro rfl
      simp [hx] at hq
    rw [hother hyx]
    exact hq
  have hcase {y q : Nat} (hq : (s.record x r).memo y = some q) :
      (y = x ∧ q = r) ∨ (y ≠ x ∧ s.memo y = some q) := by
    by_cases hyx : y = x
    · subst hyx
      rw [hself] at hq
      exact Or.inl ⟨rfl, (Option.some.inj hq).symm⟩
    · rw [hother hyx] at hq
      exact Or.inr ⟨hyx, hq⟩
  have hanti {y q : Nat} {m : Node} (hy : s.memo y = some q) (hym : memo y = none)
      (hm : h[y]? = some m) (hf : Fresh replace (s.record x r) y m) : Fresh replace s y m := by
    rcases hs.image y q hy with h1 | ⟨m', hm', hr'⟩
    · simp [hym] at h1
    · obtain rfl : m' = m := by simpa [hm'] using hm
      exact hf.anti hg hr'
  have hself_anti (hf : Fresh replace (s.record x r) x n) : Fresh replace s x n := hf.anti hg hr
  refine ⟨⟨hs.ext, hs.wf, ?_, ?_, ?_, ?_, ?_⟩, hg, hself⟩
  · intro y q hq
    exact hg.memo y q (hs.keep y q hq)
  · intro y q hq
    rcases hcase hq with ⟨-, rfl⟩ | ⟨-, hq⟩
    · exact hb
    · exact hs.bound y q hq
  · intro y q hq
    rcases hcase hq with ⟨rfl, rfl⟩ | ⟨-, hq⟩
    · exact Or.inr ⟨n, hn, hr.mono hg⟩
    · rcases hs.image y q hq with h1 | ⟨m, hm, hr'⟩
      · exact Or.inl h1
      · exact Or.inr ⟨m, hm, hr'.mono hg⟩
  · intro y q m hq hym hm hf
    rcases hcase hq with ⟨rfl, rfl⟩ | ⟨-, hq⟩
    · obtain rfl : n = m := by simpa [hn] using hm
      exact (hfresh (hself_anti hf)).1
    · exact hs.fresh y q m hq hym hm (hanti hq hym hm hf)
  · intro y z q m m' hyq hzq hym hzm hm hm' hfy hfz
    rcases hcase hyq with ⟨rfl, rfl⟩ | ⟨-, hyq'⟩
    · rcases hcase hzq with ⟨rfl, -⟩ | ⟨-, hzq'⟩
      · rfl
      · obtain rfl : n = m := by simpa [hn] using hm
        exact absurd (hanti hzq' hzm hm' hfz)
          (fun hf => (hfresh (hself_anti hfy)).2 z hzq' hzm m' hm' hf)
    · rcases hcase hzq with ⟨rfl, rfl⟩ | ⟨-, hzq'⟩
      · obtain rfl : n = m' := by simpa [hn] using hm'
        exact absurd (hanti hyq' hym hm hfy)
          (fun hf => (hfresh (hself_anti hfz)).2 y hyq' hym m hm hf)
      · exact hs.inj y z q m m' hyq' hzq' hym hzm hm hm' (hanti hyq' hym hm hfy)
          (hanti hzq' hzm hm' hfz)

/-- The start of a visit. -/
theorem rebuild_start (hw : Wf h) (hb : ∀ x r, memo x = some r → r < h.length) :
    Rebuild replace h memo ⟨h, memo⟩ := by
  refine ⟨List.prefix_refl h, hw, fun _ _ hx => hx, hb, fun _ _ hx => Or.inl hx, ?_, ?_⟩
  · intro x r n hx hn
    exact absurd (hx.symm.trans hn) (by simp)
  · intro x y r n m hx _ hn
    exact absurd (hx.symm.trans hn) (by simp)

/-- The objects of a visit, with a measure that decreases along it. -/
structure Visitable (replace : Nat → Option Nat) (h : Heap) (memo : Nat → Option Nat)
    (G : Nat → Prop) (μ : Nat → Nat) : Prop where
  node : ∀ x, G x → memo x = none → ∃ n, h[x]? = some n ∧ ∀ y ∈ visited replace x n,
    G y ∧ μ y < μ x
  target : ∀ x y, G x → replace x = some y → y < h.length

section Visit

variable {G : Nat → Prop} {μ : Nat → Nat}

/-- A part of a visit that records objects of measure below `bound`. -/
structure Advances (replace : Nat → Option Nat) (h : Heap) (memo : Nat → Option Nat) (μ : Nat → Nat)
    (bound : Nat) (s s' : Mutation) : Prop where
  rebuild : Rebuild replace h memo s'
  grows : Grows s s'
  below : ∀ z r, s'.memo z = some r → s.memo z = some r ∨ μ z < bound

theorem Advances.refl {bound : Nat} (hs : Rebuild replace h memo s) :
    Advances replace h memo μ bound s s := ⟨hs, Grows.refl s, fun _ _ hz => Or.inl hz⟩

theorem Advances.trans {bound : Nat} {s₁ s₂ : Mutation} (h₁ : Advances replace h memo μ bound s s₁)
    (h₂ : Advances replace h memo μ bound s₁ s₂) : Advances replace h memo μ bound s s₂ := by
  refine ⟨h₂.rebuild, h₁.grows.trans h₂.grows, fun z r hz => ?_⟩
  rcases h₂.below z r hz with hz | hz
  · exact h₁.below z r hz
  · exact Or.inr hz

theorem Advances.le {bound bound' : Nat} (h₁ : Advances replace h memo μ bound s s')
    (hle : bound ≤ bound') : Advances replace h memo μ bound' s s' :=
  ⟨h₁.rebuild, h₁.grows, fun z r hz => (h₁.below z r hz).imp id (fun hlt => by omega)⟩

/-- One visit returns the recorded image. -/
def VisitSpec (replace : Nat → Option Nat) (h : Heap) (memo : Nat → Option Nat) (μ : Nat → Nat)
    (x : Nat) (s : Mutation) (result : Option (Nat × Mutation)) : Prop :=
  ∃ r s', result = some (r, s') ∧ Advances replace h memo μ (μ x + 1) s s' ∧ s'.memo x = some r

theorem visitList_spec {f : Nat → Mutation → Option (Nat × Mutation)} {xs : List Nat} {bound : Nat}
    (hf : ∀ x ∈ xs, ∀ s, Rebuild replace h memo s → VisitSpec replace h memo μ x s (f x s))
    (hb : ∀ x ∈ xs, μ x < bound) (s : Mutation) (hs : Rebuild replace h memo s) :
    ∃ rs s', visitList f xs s = some (rs, s') ∧ Advances replace h memo μ bound s s' ∧
      List.Forall₂ (fun a a' => s'.memo a = some a') xs rs := by
  induction xs generalizing s with
  | nil => exact ⟨[], s, rfl, Advances.refl hs, .nil⟩
  | cons x xs ih =>
    obtain ⟨r, s₁, h₁, ha₁, hr⟩ := hf x (by simp) s hs
    obtain ⟨rs, s₂, h₂, ha₂, hrs⟩ := ih (fun y hy => hf y (by simp [hy]))
      (fun y hy => hb y (by simp [hy])) s₁ ha₁.rebuild
    refine ⟨r :: rs, s₂, by simp [visitList, h₁, h₂], (ha₁.le (hb x (by simp))).trans ha₂, ?_⟩
    exact .cons (ha₂.grows.memo _ _ hr) hrs

theorem visitCallee_spec {f : Nat → Mutation → Option (Nat × Mutation)} {c : Callee} {bound : Nat}
    (hf : ∀ x ∈ c.refs, ∀ s, Rebuild replace h memo s → VisitSpec replace h memo μ x s (f x s))
    (hb : ∀ x ∈ c.refs, μ x < bound) (s : Mutation) (hs : Rebuild replace h memo s) :
    ∃ c' s', visitCallee f c s = some (c', s') ∧ Advances replace h memo μ bound s s' ∧
      SameCallee s'.memo c c' := by
  cases c with
  | op name outputs => exact ⟨_, s, rfl, Advances.refl hs, rfl⟩
  | func g =>
    obtain ⟨r, s₁, h₁, ha₁, hr⟩ := hf g (by simp [Callee.refs]) s hs
    exact ⟨.func r, s₁, by simp [visitCallee, h₁], ha₁.le (hb g (by simp [Callee.refs])), r, hr, rfl⟩

/-- Recording `x` after its parts were visited. -/
theorem advances_record {x r : Nat} {n : Node} {s s₁ : Mutation}
    (ha : Advances replace h memo μ (μ x) s s₁) (hx : s.memo x = none) (hn : h[x]? = some n)
    (hr : Rebuilt replace s₁ x r n) (hb : r < s₁.heap.length)
    (hfresh : Fresh replace s₁ x n → h.length ≤ r ∧ ∀ y, s₁.memo y ≠ some r) :
    VisitSpec replace h memo μ x s (some (r, s₁.record x r)) := by
  have hx₁ : s₁.memo x = none := by
    cases hm : s₁.memo x with
    | none => rfl
    | some q =>
      rcases ha.below x q hm with h1 | h1
      · simp [hx] at h1
      · omega
  obtain ⟨h1, h2, h3⟩ := ha.rebuild.record hx₁ hn hr hb (fun hf =>
    ⟨(hfresh hf).1, fun y hy _ _ _ _ => (hfresh hf).2 y hy⟩)
  refine ⟨r, _, rfl, ⟨h1, ha.grows.trans h2, fun z q hz => ?_⟩, h3⟩
  by_cases hzx : z = x
  · subst hzx
    exact Or.inr (by omega)
  · have hz' : s₁.memo z = some q := by
      rw [← hz]
      exact (Function.update_of_ne hzx ..).symm
    rcases ha.below z q hz' with h1 | h1
    · exact Or.inl h1
    · exact Or.inr (by omega)

/-- Recording `x` with a newly allocated node. -/
theorem advances_alloc {x : Nat} {n m : Node} {s s₁ : Mutation}
    (ha : Advances replace h memo μ (μ x) s s₁) (hx : s.memo x = none) (hn : h[x]? = some n)
    (hm : ∀ y ∈ m.refs, ∃ z, s₁.memo z = some y)
    (hr : (s₁.alloc m).2.heap[(s₁.alloc m).1]? = some m → Grows s₁ (s₁.alloc m).2 →
      Rebuilt replace (s₁.alloc m).2 x (s₁.alloc m).1 n) :
    VisitSpec replace h memo μ x s
      (some ((s₁.alloc m).1, (s₁.alloc m).2.record x (s₁.alloc m).1)) := by
  obtain ⟨h1, h2, h3⟩ := ha.rebuild.alloc (n := m) (by
    intro y hy
    obtain ⟨z, hz⟩ := hm y hy
    exact ha.rebuild.bound z y hz)
  refine advances_record ⟨h1, ha.grows.trans h2, ha.below⟩ hx hn (hr h3 h2)
    (lt_of_get h3) ?_
  intro _
  refine ⟨(ha.rebuild.ext).length_le, fun y hy => ?_⟩
  have hb := ha.rebuild.bound y _ hy
  simp only [Mutation.alloc] at hb
  omega

theorem forall₂_mem {R : Nat → Nat → Prop} {as as' : List Nat} {y : Nat}
    (hf : List.Forall₂ R as as') (hy : y ∈ as') : ∃ z ∈ as, R z y := by
  induction hf with
  | nil => simp at hy
  | @cons a a' as as' ha _ ih =>
    rcases List.mem_cons.mp hy with rfl | hy
    · exact ⟨a, by simp, ha⟩
    · obtain ⟨z, hz, hzy⟩ := ih hy
      exact ⟨z, by simp [hz], hzy⟩

/-- A visit with a decreasing measure ends. -/
theorem visit_spec (hv : Visitable replace h memo G μ) (fuel x : Nat) (s : Mutation)
    (hfuel : μ x < fuel) (hx : G x) (hs : Rebuild replace h memo s) :
    VisitSpec replace h memo μ x s (visit replace fuel x s) := by
  induction fuel generalizing x s with
  | zero => omega
  | succ fuel ih =>
    unfold visit
    cases hm : s.memo x with
    | some r => exact ⟨r, s, rfl, Advances.refl hs, hm⟩
    | none =>
      have hmemo : memo x = none := by
        cases hq : memo x with
        | none => rfl
        | some q => simp [hs.keep x q hq] at hm
      obtain ⟨n, hn, hvis⟩ := hv.node x hx hmemo
      have hsn : s.heap[x]? = some n := get_ext hs.ext hn
      have hrec : ∀ y ∈ visited replace x n, ∀ s, Rebuild replace h memo s →
          VisitSpec replace h memo μ y s (visit replace fuel y s) := by
        intro y hy s hs
        obtain ⟨hGy, hμ⟩ := hvis y hy
        exact ih y s (by omega) hGy hs
      have hμ : ∀ y ∈ visited replace x n, μ y < μ x := fun y hy => (hvis y hy).2
      have hself : Advances replace h memo μ (μ x) s s := Advances.refl hs
      simp only [hsn]
      -- a replaced call or projection takes the image of its replacement
      have hredirect (y : Nat) (hy : y ∈ visited replace x n)
          (hr : ∀ s₁ r, s₁.memo y = some r → Rebuilt replace s₁ x r n)
          (hf : ∀ s₁, ¬ Fresh replace s₁ x n) :
          VisitSpec replace h memo μ x s
            ((visit replace fuel y s).bind fun p => some (p.1, p.2.record x p.1)) := by
        obtain ⟨r, s₁, h₁, ha₁, hr₁⟩ := hrec y hy s hs
        rw [h₁]
        have hlt := hμ y hy
        exact advances_record (ha₁.le (by omega)) hm hn (hr s₁ r hr₁)
          (ha₁.rebuild.bound y r hr₁) (fun h => absurd h (hf s₁))
      cases n with
      | var name =>
        refine advances_record hself hm hn rfl ?_ (fun h => absurd h id)
        have hle := hs.ext.length_le
        cases hrep : replace x with
        | none =>
          have := lt_of_get hn
          simp only [Option.getD_none]
          omega
        | some y =>
          have := hv.target x y hx hrep
          simp only [Option.getD_some]
          omega
      | call c args =>
        cases hrep : replace x with
        | some y =>
          exact hredirect y (by simp [visited, hrep])
            (fun s₁ r hr => by simp only [Rebuilt, hrep]; exact hr)
            (fun s₁ hf => by simp [Fresh, hrep] at hf)
        | none =>
          simp only [visited, hrep, List.mem_append] at hrec hμ
          obtain ⟨c', s₁, h₁, ha₁, hc⟩ := visitCallee_spec
            (fun y hy => hrec y (Or.inl hy)) (fun y hy => hμ y (Or.inl hy)) s hs
          obtain ⟨as', s₂, h₂, ha₂, has⟩ := visitList_spec
            (fun y hy => hrec y (Or.inr hy)) (fun y hy => hμ y (Or.inr hy)) s₁ ha₁.rebuild
          simp only [h₁, h₂, Option.bind_some]
          have hc₂ : SameCallee s₂.memo c c' := by
            cases c with
            | op => exact hc
            | func f =>
              obtain ⟨f', hf', rfl⟩ := hc
              exact ⟨f', ha₂.grows.memo _ _ hf', rfl⟩
          refine advances_alloc (ha₁.trans ha₂) hm hn ?_ ?_
          · intro y hy
            rcases List.mem_append.mp hy with hy | hy
            · cases c with
              | op =>
                obtain rfl : c' = _ := hc₂
                simp [Callee.refs] at hy
              | func f =>
                obtain ⟨f', hf', rfl⟩ := hc₂
                obtain rfl : y = f' := by simpa [Callee.refs] using hy
                exact ⟨f, hf'⟩
            · obtain ⟨z, -, hz⟩ := forall₂_mem has hy
              exact ⟨z, hz⟩
          · intro hget _
            simp only [Rebuilt, hrep]
            exact ⟨c', as', hget, hc₂, has⟩
      | tuple fields =>
        simp only [visited] at hrec hμ
        obtain ⟨fs', s₁, h₁, ha₁, hfs⟩ := visitList_spec hrec hμ s hs
        simp only [h₁, Option.bind_some]
        refine advances_alloc ha₁ hm hn ?_ (fun hget _ => ⟨fs', hget, hfs⟩)
        intro y hy
        obtain ⟨z, -, hz⟩ := forall₂_mem hfs hy
        exact ⟨z, hz⟩
      | tupleGetItem t k =>
        cases hrep : replace x with
        | some y =>
          exact hredirect y (by simp [visited, hrep])
            (fun s₁ r hr => by simp only [Rebuilt, hrep]; exact hr)
            (fun s₁ hf => by simp [Fresh, hrep] at hf)
        | none =>
          simp only [visited, hrep, List.mem_singleton, forall_eq] at hrec hμ
          obtain ⟨t', s₁, h₁, ha₁, ht⟩ := hrec s hs
          simp only [h₁, Option.bind_some]
          by_cases htt : t' = t
          · simp only [htt, if_true, Option.bind_some]
            refine advances_record (ha₁.le (by omega)) hm hn ?_ ?_ ?_
            · simp only [Rebuilt, hrep]
              exact ⟨t', ht, Or.inl ⟨htt, trivial⟩⟩
            · have := ha₁.rebuild.ext.length_le
              have := lt_of_get hn
              omega
            · intro hf
              exact absurd (htt ▸ ht) hf.2
          · simp only [htt, if_false, Option.bind_some]
            refine advances_alloc (ha₁.le (by omega)) hm hn ?_ ?_
            · intro y hy
              obtain rfl : y = t' := by simpa [Node.refs] using hy
              exact ⟨t, ht⟩
            · intro hget _
              simp only [Rebuilt, hrep]
              exact ⟨t', ht, Or.inr ⟨htt, hget⟩⟩
      | function ps b tag =>
        simp only [visited, List.mem_append, List.mem_singleton] at hrec hμ
        obtain ⟨ps', s₁, h₁, ha₁, hps⟩ := visitList_spec
          (fun y hy => hrec y (Or.inl hy)) (fun y hy => hμ y (Or.inl hy)) s hs
        obtain ⟨b', s₂, h₂, ha₂, hb⟩ := hrec b (Or.inr rfl) s₁ ha₁.rebuild
        have hμb := hμ b (Or.inr rfl)
        simp only [h₁, h₂, Option.bind_some]
        have hps₂ := forall₂_mono ha₂.grows hps
        refine advances_alloc (ha₁.trans (ha₂.le (by omega))) hm hn ?_
          (fun hget _ => ⟨ps', b', hget, hps₂, hb⟩)
        intro y hy
        rcases List.mem_append.mp hy with hy | hy
        · obtain ⟨z, -, hz⟩ := forall₂_mem hps₂ hy
          exact ⟨z, hz⟩
        · obtain rfl : y = b' := by simpa using hy
          exact ⟨b, hb⟩

end Visit

end StencilGraph.Relay

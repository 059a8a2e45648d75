import Mathlib.Data.List.Nodup
import Mathlib.Data.List.Perm.Subperm
import StencilGraph.Fuse.Creator

namespace StencilGraph.Fuse
open Framework

namespace Graph

/-- What `Update` and the pattern assignments may change: nodes appear or get edges allowed by
`allowed`. -/
structure Extends (allowed : Ref → Target × OpPattern → Prop) (g g' : Graph) : Prop where
  order : g'.postDfsOrder = g.postDfsOrder
  old : ∀ r n, g.nodeMap (.expr r) = some n → ∃ n' extra, g'.nodeMap (.expr r) = some n' ∧
    n'.ref = n.ref ∧ n'.index = n.index ∧ n'.outputs = n.outputs ++ extra ∧
    ∀ e ∈ extra, allowed r e
  new : ∀ r n', g.nodeMap (.expr r) = none → g'.nodeMap (.expr r) = some n' →
    n'.ref = none ∧ ∀ e ∈ n'.outputs, allowed r e

variable {allowed : Ref → Target × OpPattern → Prop} {g g₁ g₂ : Graph}

theorem Extends.refl (g : Graph) : Extends allowed g g := by
  refine ⟨rfl, fun r n h => ⟨n, [], h, rfl, rfl, by simp, by simp⟩, ?_⟩
  intro r n' h h'
  simp [h] at h'

theorem Extends.trans (h₁ : Extends allowed g g₁) (h₂ : Extends allowed g₁ g₂) :
    Extends allowed g g₂ := by
  refine ⟨h₂.order.trans h₁.order, ?_, ?_⟩
  · intro r n hn
    obtain ⟨n₁, ex₁, hn₁, hr₁, hi₁, ho₁, ha₁⟩ := h₁.old r n hn
    obtain ⟨n₂, ex₂, hn₂, hr₂, hi₂, ho₂, ha₂⟩ := h₂.old r n₁ hn₁
    refine ⟨n₂, ex₁ ++ ex₂, hn₂, hr₂.trans hr₁, hi₂.trans hi₁, by simp [ho₂, ho₁], ?_⟩
    intro e he
    rcases List.mem_append.mp he with he | he
    · exact ha₁ e he
    · exact ha₂ e he
  · intro r n₂ hnone hn₂
    cases hn₁ : g₁.nodeMap (.expr r) with
    | none => exact h₂.new r n₂ hn₁ hn₂
    | some n₁ =>
      obtain ⟨hr₁, ha₁⟩ := h₁.new r n₁ hnone hn₁
      obtain ⟨n, ex, hn, hr, -, ho, ha⟩ := h₂.old r n₁ hn₁
      obtain rfl : n = n₂ := by simpa [hn] using hn₂
      refine ⟨hr.trans hr₁, ?_⟩
      intro e he
      rw [ho] at he
      rcases List.mem_append.mp he with he | he
      · exact ha₁ e he
      · exact ha e he

theorem Extends.mono {allowed' : Ref → Target × OpPattern → Prop}
    (h : Extends allowed g g₁) (hle : ∀ r e, allowed r e → allowed' r e) :
    Extends allowed' g g₁ := by
  refine ⟨h.order, ?_, ?_⟩
  · intro r n hn
    obtain ⟨n', extra, h1, h2, h3, h4, h5⟩ := h.old r n hn
    exact ⟨n', extra, h1, h2, h3, h4, fun e he => hle r e (h5 e he)⟩
  · intro r n' hn hn'
    obtain ⟨h1, h2⟩ := h.new r n' hn hn'
    exact ⟨h1, fun e he => hle r e (h2 e he)⟩

/-- The node of an expression exists. -/
def Has (g : Graph) (r : Ref) : Prop := ∃ n, g.nodeMap (.expr r) = some n

theorem Extends.has (h : Extends allowed g g₁) {r : Ref} (hr : g.Has r) : g₁.Has r := by
  obtain ⟨n, hn⟩ := hr
  obtain ⟨n', _, hn', _⟩ := h.old r n hn
  exact ⟨n', hn'⟩

/-- An edge of the given kind leaves the node of `r`. -/
def HasEdge (g : Graph) (r : Ref) (e : Target × OpPattern) : Prop :=
  ∃ n, g.nodeMap (.expr r) = some n ∧ e ∈ n.outputs

theorem Extends.hasEdge (h : Extends allowed g g₁) {r : Ref} {e : Target × OpPattern}
    (hr : g.HasEdge r e) : g₁.HasEdge r e := by
  obtain ⟨n, hn, he⟩ := hr
  obtain ⟨n', ex, hn', -, -, ho, -⟩ := h.old r n hn
  exact ⟨n', hn', by simp [ho, he]⟩

theorem update_has (g : Graph) (r : Ref) (p : Option Target) (pat : OpPattern) :
    (g.update (.expr r) p pat).Has r :=
  ⟨_, by simp [update]; rfl⟩

theorem update_hasEdge (g : Graph) (r : Ref) (t : Target) (pat : OpPattern) :
    (g.update (.expr r) (some t) pat).HasEdge r (t, pat) :=
  ⟨_, by simp [update]; rfl, by simp⟩

theorem extends_of_other {key : Key} (hkey : ∀ r, key ≠ .expr r) (node : GraphNode) :
    Extends allowed g { g with nodeMap := Function.update g.nodeMap key (some node) } := by
  have hsame (r : Ref) : Function.update g.nodeMap key (some node) (.expr r) =
      g.nodeMap (.expr r) := Function.update_of_ne (fun h => hkey r h.symm) _ _
  refine ⟨rfl, ?_, ?_⟩
  · intro r n hn
    exact ⟨n, [], (hsame r).trans hn, rfl, rfl, by simp, by simp⟩
  · intro r n hnone hn
    have := (hsame r).symm.trans hn
    simp [hnone] at this

theorem update_extends (g : Graph) (key : Key) (p : Option Target) (pat : OpPattern)
    (h : ∀ r, key = .expr r → ∀ t, p = some t → allowed r (t, pat)) :
    Extends allowed g (g.update key p pat) := by
  by_cases hkey : ∃ a, key = .expr a
  swap
  · push Not at hkey
    exact extends_of_other hkey _
  obtain ⟨a, rfl⟩ := hkey
  refine ⟨rfl, ?_, ?_⟩
  · intro r n hn
    by_cases hra : r = a
    · subst hra
      cases p with
      | none => exact ⟨{ n with externRef := true }, [], by simp [update, hn], rfl, rfl, by simp,
          by simp⟩
      | some t =>
        refine ⟨{ n with outputs := n.outputs ++ [(t, pat)] }, [(t, pat)], by simp [update, hn],
          rfl, rfl, rfl, ?_⟩
        simpa using h r rfl t rfl
    · have hne : Key.expr r ≠ .expr a := by simpa using hra
      exact ⟨n, [], by simp [update, Function.update_of_ne hne, hn], rfl, rfl, by simp, by simp⟩
  · intro r n' hnone hn'
    by_cases hra : r = a
    · subst hra
      cases p with
      | none =>
        obtain rfl : _ = n' := by simpa [update, hnone] using hn'
        simp
      | some t =>
        obtain rfl : _ = n' := by simpa [update, hnone] using hn'
        simpa using h r rfl t rfl
    · have hne : Key.expr r ≠ .expr a := by simpa using hra
      simp [update, Function.update_of_ne hne, hnone] at hn'

theorem setPattern_eq {key : Key} {n : GraphNode} (pat : OpPattern) (hn : g.nodeMap key = some n) :
    g.setPattern key pat = some
      { g with nodeMap := Function.update g.nodeMap key (some { n with pattern := pat }) } := by
  simp [setPattern, hn]

theorem setPattern_extends (allowed : Ref → Target × OpPattern → Prop) (pat : OpPattern) {r : Ref}
    (h : g.Has r) :
    ∃ g', g.setPattern (.expr r) pat = some g' ∧ Extends allowed g g' := by
  obtain ⟨n, hn⟩ := h
  refine ⟨_, setPattern_eq pat hn, rfl, ?_, ?_⟩
  · intro q m hm
    by_cases hqr : q = r
    · subst hqr
      obtain rfl : n = m := by simpa [hn] using hm
      exact ⟨{ n with pattern := pat }, [], by simp, rfl, rfl, by simp, by simp⟩
    · have hne : Key.expr q ≠ .expr r := by simpa using hqr
      exact ⟨m, [], by simp [Function.update_of_ne hne, hm], rfl, rfl, by simp, by simp⟩
  · intro q m hnone hm
    by_cases hqr : q = r
    · subst hqr
      simp [hn] at hnone
    · have hne : Key.expr q ≠ .expr r := by simpa using hqr
      simp [Function.update_of_ne hne, hnone] at hm

/-- A loop of updates over a list of expressions reaches all of them. -/
theorem foldl_extends (allowed : Ref → Target × OpPattern → Prop) (step : Graph → Ref → Graph)
    (rs : List Ref) (hstep : ∀ g, ∀ r ∈ rs, Extends allowed g (step g r) ∧ (step g r).Has r)
    (g : Graph) :
    Extends allowed g (rs.foldl step g) ∧ ∀ r ∈ rs, (rs.foldl step g).Has r := by
  induction rs generalizing g with
  | nil => exact ⟨Extends.refl g, by simp⟩
  | cons r rs ih =>
    obtain ⟨he, hr⟩ := hstep g r (by simp)
    obtain ⟨he', hrs⟩ := ih (fun g q hq => hstep g q (by simp [hq])) (step g r)
    refine ⟨he.trans he', ?_⟩
    intro q hq
    rcases List.mem_cons.mp hq with rfl | hq
    · exact he'.has hr
    · exact hrs q hq

theorem foldl_hasEdge (step : Graph → Ref → Graph) (rs : List Ref)
    (hstep : ∀ g, ∀ r ∈ rs, Extends allowed g (step g r)) {r : Ref} (hr : r ∈ rs)
    {e : Target × OpPattern} (he : ∀ g, (step g r).HasEdge r e) (g : Graph) :
    (rs.foldl step g).HasEdge r e := by
  induction rs generalizing g with
  | nil => simp at hr
  | cons q rs ih =>
    rw [List.foldl_cons]
    by_cases hmem : r ∈ rs
    · exact ih (fun g x hx => hstep g x (by simp [hx])) hmem (step g q)
    · obtain rfl : r = q := by simpa [hmem] using hr
      have hext : Extends allowed (step g r) (rs.foldl step (step g r)) := by
        clear ih hr hmem
        generalize step g r = g'
        induction rs generalizing g' with
        | nil => exact Extends.refl g'
        | cons x xs ih =>
          exact (hstep g' x (by simp)).trans
            (ih (fun g y hy => hstep g y (by
              rcases List.mem_cons.mp hy with rfl | hy
              · simp
              · simp [hy])) _)
      exact hext.hasEdge (he g)

end Graph

namespace Creator
open Graph

variable {f : ExprHeap}

/-- The edges the visit of `r` may add. -/
def OwnEdge (f : ExprHeap) (parents : Target → Prop) (r c : Ref) (e : Target × OpPattern) : Prop :=
  parents e.1 ∧ c ∈ f.children r

theorem enterCall_extends {r : Ref} {op : RelayOp} {args : List Ref} {dd : Bool} {g : Graph}
    (hnode : f.node r = .call op args dd) (hr : g.Has r) :
    ∃ g', enterCall f r op args dd g = some g' ∧
      Extends (OwnEdge f (· = .node (.expr r)) r) g g' ∧ ∀ c ∈ f.children r, g'.Has c := by
  have hch : f.children r = args := by simp [ExprHeap.children, hnode, ExprNode.children]
  obtain ⟨g₁, h₁, he₁⟩ := setPattern_extends (OwnEdge f (· = .node (.expr r)) r)
    (opPattern f r op dd) hr
  have he₂ : Extends (OwnEdge f (· = .node (.expr r)) r) g₁ (g₁.update (.op op.id) none .nonFusable) :=
    update_extends _ _ _ _ (by simp)
  obtain ⟨he₃, hhas⟩ := foldl_extends (OwnEdge f (· = .node (.expr r)) r)
    (fun g arg => g.update (.expr arg) (some (.node (.expr r)))
      (edgePattern f r arg (opPattern f r op dd))) args
    (by
      intro g a ha
      refine ⟨update_extends _ _ _ _ ?_, update_has _ _ _ _⟩
      rintro q heq t ht
      obtain rfl : a = q := by simpa using heq
      obtain rfl : _ = t := by simpa using ht
      exact ⟨rfl, hch ▸ ha⟩)
    (g₁.update (.op op.id) none .nonFusable)
  have hrun : enterCall f r op args dd g = some (args.foldl (fun g arg =>
      g.update (.expr arg) (some (.node (.expr r))) (edgePattern f r arg (opPattern f r op dd)))
      (g₁.update (.op op.id) none .nonFusable)) := by
    simp [enterCall, h₁]
  refine ⟨_, hrun, ?_, ?_⟩
  · exact (he₁.trans he₂).trans he₃
  · rw [hch]
    exact hhas

theorem enterTuple_extends (parent : Target) {r : Ref} {fields : List Ref} {g : Graph}
    (hnode : f.node r = .tuple fields) (hr : g.Has r) :
    ∃ g', enterTuple f parent r fields g = some g' ∧
      Extends (OwnEdge f (· = parent) r) g g' ∧ (∀ c ∈ f.children r, g'.Has c) ∧
      ∀ c ∈ fields, (f.checkedType c).isTensor = true → g'.HasEdge c (parent, .injective) := by
  have hch : f.children r = fields := by simp [ExprHeap.children, hnode, ExprNode.children]
  obtain ⟨g₁, h₁, he₁⟩ := setPattern_extends (OwnEdge f (· = parent) r) .tuple hr
  have hstep : ∀ g, ∀ c ∈ fields, Extends (OwnEdge f (· = parent) r) g
      (if (f.checkedType c).isTensor then g.update (.expr c) (some parent) .injective
        else g.update (.expr c) none .nonFusable) ∧
      (if (f.checkedType c).isTensor then g.update (.expr c) (some parent) .injective
        else g.update (.expr c) none .nonFusable).Has c := by
    intro g c hc
    split
    · refine ⟨update_extends _ _ _ _ ?_, update_has _ _ _ _⟩
      rintro q heq t ht
      obtain rfl : c = q := by simpa using heq
      obtain rfl : _ = t := by simpa using ht
      exact ⟨rfl, hch ▸ hc⟩
    · exact ⟨update_extends _ _ _ _ (by simp), update_has _ _ _ _⟩
  obtain ⟨he₂, hhas⟩ := foldl_extends _ _ fields hstep g₁
  have hrun : enterTuple f parent r fields g = some (fields.foldl (fun g c =>
      if (f.checkedType c).isTensor then g.update (.expr c) (some parent) .injective
      else g.update (.expr c) none .nonFusable) g₁) := by
    simp [enterTuple, h₁]
  refine ⟨_, hrun, he₁.trans he₂, by rw [hch]; exact hhas, ?_⟩
  intro c hc htensor
  refine foldl_hasEdge _ fields (fun g x hx => (hstep g x hx).1) hc ?_ g₁
  intro g
  rw [if_pos htensor]
  exact update_hasEdge _ _ _ _

theorem enterTupleGetItem_extends {r tuple index : Ref} {g : Graph}
    (hnode : f.node r = .tupleGetItem tuple index) (htyped : f.TypedAt r) (hr : g.Has r) :
    ∃ g', enterTupleGetItem f r tuple g = some g' ∧
      Extends (OwnEdge f (· = .node (.expr r)) r) g g' ∧ ∀ c ∈ f.children r, g'.Has c := by
  have hch : f.children r = [tuple] := by simp [ExprHeap.children, hnode, ExprNode.children]
  simp only [ExprHeap.TypedAt, hnode] at htyped
  obtain ⟨tys, -, hty, -⟩ := htyped
  unfold enterTupleGetItem
  rw [hty]
  simp only [hch, List.mem_singleton, forall_eq]
  split
  · exact ⟨_, rfl, update_extends _ _ _ _ (by simp), update_has _ _ _ _⟩
  · obtain ⟨g₁, h₁, he₁⟩ := setPattern_extends
      (OwnEdge f (· = .node (.expr r)) r) .injective hr
    refine ⟨g₁.update (.expr tuple) (some (.node (.expr r))) .injective, by simp [h₁],
      he₁.trans ?_, update_has _ _ _ _⟩
    refine update_extends _ _ _ _ ?_
    rintro q heq t ht
    obtain rfl : tuple = q := by simpa using heq
    obtain rfl : _ = t := by simpa using ht
    exact ⟨rfl, by simp [hch]⟩

/-- The C++ methods never fail on a node whose parent was visited. -/
theorem cppEnter_extends {r : Ref} {g : Graph} (htyped : f.TypedAt r) (hr : g.Has r) :
    ∃ g', cppEnter f r g = some g' ∧
      Extends (OwnEdge f (· = .node (.expr r)) r) g g' ∧ ∀ c ∈ f.children r, g'.Has c := by
  unfold cppEnter
  cases hnode : f.node r with
  | var => exact ⟨g, rfl, Extends.refl g, by simp [ExprHeap.children, hnode, ExprNode.children]⟩
  | constant =>
    exact ⟨g, rfl, Extends.refl g, by simp [ExprHeap.children, hnode, ExprNode.children]⟩
  | call op args dd => exact enterCall_extends hnode hr
  | tuple fields =>
    obtain ⟨g', h, he, hhas, -⟩ := enterTuple_extends (.node (.expr r)) hnode hr
    exact ⟨g', h, he, hhas⟩
  | tupleGetItem tuple index => exact enterTupleGetItem_extends hnode htyped hr

/-- Finishing `r` records its key and index and changes no edge. -/
structure Finishes (r : Ref) (g g' : Graph) : Prop where
  order : g'.postDfsOrder = g.postDfsOrder ++ [.expr r]
  other : ∀ q, q ≠ r → g'.nodeMap (.expr q) = g.nodeMap (.expr q)
  self : ∃ n n', g.nodeMap (.expr r) = some n ∧ g'.nodeMap (.expr r) = some n' ∧ n.ref = none ∧
    n'.ref = some (.expr r) ∧ n'.index = g.postDfsOrder.length ∧ n'.outputs = n.outputs

theorem addNode_eq {key : Key} {g : Graph} {n : GraphNode} (hn : g.nodeMap key = some n)
    (href : n.ref = none) : g.addNode key = some
      { nodeMap := Function.update g.nodeMap key
          (some { n with ref := some key, index := g.postDfsOrder.length })
        postDfsOrder := g.postDfsOrder ++ [key] } := by
  simp [addNode, hn, href]

theorem addNode_finishes {r : Ref} {g : Graph} {n : GraphNode} (hn : g.nodeMap (.expr r) = some n)
    (href : n.ref = none) : ∃ g', g.addNode (.expr r) = some g' ∧ Finishes r g g' := by
  refine ⟨_, addNode_eq hn href, rfl, ?_, n, _, hn, Function.update_self .., href, rfl, rfl, rfl⟩
  intro q hq
  have hne : Key.expr q ≠ .expr r := by simpa using hq
  simp [Function.update_of_ne hne]

theorem leave_finishes {r : Ref} {g : Graph} {n : GraphNode} (hn : g.nodeMap (.expr r) = some n)
    (href : n.ref = none) : ∃ g', leave f r g = some g' ∧ Finishes r g g' := by
  obtain ⟨g₁, h₁, hf₁⟩ := addNode_finishes hn href
  unfold leave
  cases hnode : f.node r with
  | constant ndim dtype =>
    obtain ⟨m, m', hm, hm', hr, hr', hi, ho⟩ := hf₁.self
    simp only [h₁, Option.bind_eq_bind, Option.bind_some]
    refine ⟨_, setPattern_eq _ hm', hf₁.order, ?_, ?_⟩
    · intro q hq
      have hne : Key.expr q ≠ .expr r := by simpa using hq
      simp only [Function.update_of_ne hne]
      exact hf₁.other q hq
    · exact ⟨m, _, hm, Function.update_self .., hr, hr', hi, ho⟩
  | var => exact ⟨g₁, h₁, hf₁⟩
  | call => exact ⟨g₁, h₁, hf₁⟩
  | tuple => exact ⟨g₁, h₁, hf₁⟩
  | tupleGetItem => exact ⟨g₁, h₁, hf₁⟩

end Creator

end StencilGraph.Fuse

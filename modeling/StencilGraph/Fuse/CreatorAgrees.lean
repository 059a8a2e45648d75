import StencilGraph.Fuse.CreatorGraph
import StencilGraph.Fuse.PartitionClosed

namespace StencilGraph.Fuse.Creator
open Framework Graph

/-- The graph after the objects of `memo` are finished and those of `opened` entered. -/
structure Indexing (f : ExprHeap) (roots opened memo : List Ref) (g : Graph) : Prop where
  nodup : memo.Nodup
  inside : ∀ r, r ∈ memo ∨ r ∈ opened → r < f.exprs.length
  order : g.postDfsOrder = memo.reverse.map Key.expr
  hasRoots : ∀ r ∈ roots, g.Has r
  hasOpen : ∀ o ∈ opened, g.Has o ∧ ∀ c ∈ f.children o, g.Has c
  finished : ∀ r ∈ memo, ∃ n, g.nodeMap (.expr r) = some n ∧ memo.reverse[n.index]? = some r
  unfinished : ∀ r n, g.nodeMap (.expr r) = some n → r ∉ memo → n.ref = none
  before : ∀ q ∈ memo, ∀ c ∈ f.children q, c ∈ memo ∧ ∀ nq nc, g.nodeMap (.expr q) = some nq →
    g.nodeMap (.expr c) = some nc → nc.index < nq.index
  edges : ∀ r n, g.nodeMap (.expr r) = some n → ∀ e ∈ n.outputs,
    ∃ q, e.1 = .node (.expr q) ∧ r ∈ f.children q ∧ (q ∈ memo ∨ q ∈ opened)

variable {f : ExprHeap} {roots opened memo : List Ref} {g g' : Graph} {i : Ref}

theorem indexing_enter (h : Indexing f roots opened memo g) (hi : i < f.exprs.length)
    (hhas : g.Has i) (he : Extends (OwnEdge f (· = .node (.expr i)) i) g g')
    (hchildren : ∀ c ∈ f.children i, g'.Has c) : Indexing f roots (i :: opened) memo g' := by
  refine ⟨h.nodup, ?_, he.order.trans h.order, fun r hr => he.has (h.hasRoots r hr), ?_, ?_, ?_, ?_,
    ?_⟩
  · intro r hr
    rcases hr with hr | hr
    · exact h.inside r (Or.inl hr)
    · rcases List.mem_cons.mp hr with rfl | hr
      · exact hi
      · exact h.inside r (Or.inr hr)
  · intro o ho
    rcases List.mem_cons.mp ho with rfl | ho
    · exact ⟨he.has hhas, hchildren⟩
    · obtain ⟨h1, h2⟩ := h.hasOpen o ho
      exact ⟨he.has h1, fun c hc => he.has (h2 c hc)⟩
  · intro r hr
    obtain ⟨n, hn, hidx⟩ := h.finished r hr
    obtain ⟨n', _, hn', -, hi', -, -⟩ := he.old r n hn
    exact ⟨n', hn', by rw [hi']; exact hidx⟩
  · intro r n' hn' hr
    cases hn : g.nodeMap (.expr r) with
    | none => exact (he.new r n' hn hn').1
    | some n =>
      obtain ⟨m, _, hm, href, -⟩ := he.old r n hn
      obtain rfl : m = n' := by simpa [hm] using hn'
      rw [href]
      exact h.unfinished r n hn hr
  · intro q hq c hc
    obtain ⟨hcm, hlt⟩ := h.before q hq c hc
    refine ⟨hcm, ?_⟩
    intro nq nc hnq hnc
    obtain ⟨mq, hmq, -⟩ := h.finished q hq
    obtain ⟨mc, hmc, -⟩ := h.finished c hcm
    obtain ⟨m, _, hm, -, hiq, -⟩ := he.old q mq hmq
    obtain rfl : m = nq := by simpa [hm] using hnq
    obtain ⟨m', _, hm', -, hic, -⟩ := he.old c mc hmc
    obtain rfl : m' = nc := by simpa [hm'] using hnc
    rw [hiq, hic]
    exact hlt mq mc hmq hmc
  · have hown (r : Ref) (e : Target × OpPattern) (ho : OwnEdge f (· = .node (.expr i)) i r e) :
        ∃ q, e.1 = .node (.expr q) ∧ r ∈ f.children q ∧ (q ∈ memo ∨ q ∈ i :: opened) :=
      ⟨i, ho.1, ho.2, Or.inr (by simp)⟩
    intro r n' hn' e hmem
    cases hn : g.nodeMap (.expr r) with
    | none => exact hown r e ((he.new r n' hn hn').2 e hmem)
    | some n =>
      obtain ⟨m, extra, hm, -, -, hout, hall⟩ := he.old r n hn
      obtain rfl : m = n' := by simpa [hm] using hn'
      rw [hout] at hmem
      rcases List.mem_append.mp hmem with hmem | hmem
      · obtain ⟨q, hq, hc, hmo⟩ := h.edges r n hn e hmem
        exact ⟨q, hq, hc, hmo.imp id (fun h => by simp [h])⟩
      · exact hown r e (hall e hmem)

theorem indexing_leave (hlt : ∀ r, ∀ c ∈ f.children r, c < r)
    (h : Indexing f roots (i :: opened) memo g) (hi : i ∉ memo)
    (hdone : ∀ c ∈ f.children i, c ∈ memo) (hf : Finishes i g g') :
    Indexing f roots opened (i :: memo) g' := by
  obtain ⟨n, n', hn, hn', href, href', hidx, hout⟩ := hf.self
  have hhas {r : Ref} (hr : g.Has r) : g'.Has r := by
    by_cases hri : r = i
    · subst hri
      exact ⟨n', hn'⟩
    · obtain ⟨m, hm⟩ := hr
      exact ⟨m, (hf.other r hri).trans hm⟩
  have hlen : g.postDfsOrder.length = memo.reverse.length := by rw [h.order, List.length_map]
  refine ⟨List.nodup_cons.mpr ⟨hi, h.nodup⟩, ?_, ?_, fun r hr => hhas (h.hasRoots r hr), ?_, ?_, ?_,
    ?_, ?_⟩
  · intro r hr
    apply h.inside r
    simp only [List.mem_cons] at hr ⊢
    tauto
  · rw [hf.order, h.order]
    simp
  · intro o ho
    obtain ⟨h1, h2⟩ := h.hasOpen o (by simp [ho])
    exact ⟨hhas h1, fun c hc => hhas (h2 c hc)⟩
  · intro r hr
    by_cases hri : r = i
    · subst hri
      refine ⟨n', hn', ?_⟩
      rw [hidx, hlen, List.reverse_cons, List.getElem?_append_right le_rfl]
      simp
    · have hrm : r ∈ memo := by simpa [hri] using hr
      obtain ⟨m, hm, hmi⟩ := h.finished r hrm
      refine ⟨m, (hf.other r hri).trans hm, ?_⟩
      obtain ⟨hb, -⟩ := List.getElem?_eq_some_iff.mp hmi
      rw [List.reverse_cons, List.getElem?_append_left hb]
      exact hmi
  · intro r m hm hr
    simp only [List.mem_cons, not_or] at hr
    rw [hf.other r hr.1] at hm
    exact h.unfinished r m hm hr.2
  · intro q hq c hc
    by_cases hqi : q = i
    · subst hqi
      refine ⟨by simp [hdone c hc], ?_⟩
      intro nq nc hnq hnc
      obtain rfl : n' = nq := by simpa [hn'] using hnq
      have hci : c ≠ q := (hlt q c hc).ne
      rw [hf.other c hci] at hnc
      obtain ⟨m, hm, hmi⟩ := h.finished c (hdone c hc)
      obtain rfl : m = nc := by simpa [hm] using hnc
      obtain ⟨hb, -⟩ := List.getElem?_eq_some_iff.mp hmi
      rw [hidx, hlen]
      exact hb
    · have hqm : q ∈ memo := by simpa [hqi] using hq
      obtain ⟨hcm, hlt'⟩ := h.before q hqm c hc
      have hci : c ≠ i := by
        rintro rfl
        exact hi hcm
      refine ⟨by simp [hcm], ?_⟩
      rw [hf.other q hqi, hf.other c hci]
      exact hlt'
  · intro r m hm e he
    have hedge : ∃ q, e.1 = .node (.expr q) ∧ r ∈ f.children q ∧ (q ∈ memo ∨ q ∈ i :: opened) := by
      by_cases hri : r = i
      · subst hri
        obtain rfl : n' = m := by simpa [hn'] using hm
        rw [hout] at he
        exact h.edges r n hn e he
      · rw [hf.other r hri] at hm
        exact h.edges r m hm e he
    obtain ⟨q, hq, hc, hmo⟩ := hedge
    refine ⟨q, hq, hc, ?_⟩
    simp only [List.mem_cons] at hmo ⊢
    tauto

theorem enterFunction_spec (f : ExprHeap) (g : Graph)
    (hempty : ∀ r, g.nodeMap (.expr r) = none) (horder : g.postDfsOrder = []) :
    Indexing f (f.params ++ [f.body]) [] [] (enterFunction f g) := by
  obtain ⟨he, hp⟩ := foldl_extends (fun _ _ => False)
    (fun g p => g.update (.expr p) none .nonFusable) f.params
    (fun g p _ => ⟨update_extends _ _ _ _ (by simp), update_has _ _ _ _⟩) g
  have he' : Extends (fun _ _ => False) (f.params.foldl
      (fun g p => g.update (.expr p) none .nonFusable) g) (enterFunction f g) :=
    update_extends _ _ _ _ (by simp)
  have hall := he.trans he'
  refine ⟨List.nodup_nil, by simp, by rw [hall.order, horder]; rfl, ?_, by simp, by simp, ?_,
    by simp, ?_⟩
  · intro r hr
    rcases List.mem_append.mp hr with hr | hr
    · exact he'.has (hp r hr)
    · rw [List.mem_singleton.mp hr]
      exact update_has _ _ _ _
  · intro r n hn _
    exact (hall.new r n (hempty r) hn).1
  · intro r n hn e hmem
    exact absurd ((hall.new r n (hempty r) hn).2 e hmem) id

/-- The C++ creator returns a finished graph. -/
theorem cppCreate_indexing (f : RelayFunction) (hc : f.compiler = false) :
    ∃ memo g, cppCreate f.toExprHeap = some g ∧
      Indexing f.toExprHeap (f.params ++ [f.body]) [] memo g ∧
      ∀ r ∈ f.params ++ [f.body], r ∈ memo := by
  have hroots : ∀ r ∈ f.params ++ [f.body], r < f.exprs.length := by
    intro r hr
    rcases List.mem_append.mp hr with hr | hr
    · exact f.params_lt r hr
    · rw [List.mem_singleton.mp hr]
      exact f.body_lt
  have hinv : (visitor f.toExprHeap (cppEnter f.toExprHeap)).Invariant (f.params ++ [f.body]) False
      (fun opened memo g => Indexing f.toExprHeap (f.params ++ [f.body]) opened memo g) := by
    constructor
    · intro i opened memo g h hm hopen hi
      have hlt : i < f.exprs.length := by
        rcases hi with hi | ⟨o, ho, -⟩
        · exact hroots i hi
        · exact (hopen o ho).trans (h.inside o (Or.inr ho))
      have hhas : g.Has i := by
        rcases hi with hi | ⟨o, ho, hio⟩
        · exact h.hasRoots i hi
        · exact (h.hasOpen o ho).2 i hio
      obtain ⟨g', hg', he, hch⟩ := cppEnter_extends (f.typed i hlt) hhas
      simp only [visitor, Outcome, hg']
      exact indexing_enter h hlt hhas he hch
    · intro i opened memo g h hm hdone
      obtain ⟨n, hn⟩ := (h.hasOpen i (by simp)).1
      obtain ⟨g', hg', hf⟩ := leave_finishes (f := f.toExprHeap) hn (h.unfinished i n hn hm)
      simp only [visitor, Outcome, hg']
      exact indexing_leave f.children_lt h hm hdone hf
  have hstart := enterFunction_spec f.toExprHeap (Graph.empty.update .function none .nonFusable)
    (fun r => by simp [Graph.update, Graph.empty]) rfl
  obtain ⟨⟨memo, g⟩, hrun, hfin, hdone, -, -⟩ :=
    (Visitor.visitAll_finished f.children_lt hinv f.exprs.length _ hroots hstart).exists
  exact ⟨memo, g, by simp [cppCreate, prepare, hc, hrun], hfin, hdone⟩

/-- The index an edge resolves to. -/
def targetIndex (g : Graph) : Target → Nat
  | .node key => ((g.nodeMap key).map GraphNode.index).getD 0
  | .builtinTuple => 0

/-- The node of a finished expression with resolved edges. -/
def resolved (g : Graph) (r : Ref) : Node :=
  let n := (g.nodeMap (.expr r)).getD ⟨none, 0, false, .nonFusable, []⟩
  ⟨r, n.externRef, n.pattern, n.outputs.map fun e => ⟨targetIndex g e.1, e.2⟩⟩

theorem mapM_eq_map {α β : Type} {φ : α → Option β} {ψ : α → β} {xs : List α}
    (h : ∀ x ∈ xs, φ x = some (ψ x)) : xs.mapM φ = some (xs.map ψ) := by
  induction xs with
  | nil => rfl
  | cons x xs ih => simp [h x (by simp), ih (fun y hy => h y (by simp [hy]))]

theorem forwardNode_resolved (h : Indexing f roots [] memo g) {r : Ref} (hr : r ∈ memo) :
    g.forwardNode (.expr r) = some (resolved g r) := by
  obtain ⟨n, hn, -⟩ := h.finished r hr
  have hedges : n.outputs.mapM g.edge =
      some (n.outputs.map fun e => ⟨targetIndex g e.1, e.2⟩) := by
    refine mapM_eq_map ?_
    intro e he
    obtain ⟨q, hq, -, hm⟩ := h.edges r n hn e he
    obtain ⟨m, hm, -⟩ := h.finished q (by simpa using hm)
    simp [Graph.edge, hq, targetIndex, hm]
  simp [Graph.forwardNode, hn, hedges, resolved]

/-- In a finished graph every edge goes to a later index. -/
theorem forwardGraph_indexed (h : Indexing f roots [] memo g) :
    ∃ fg : IndexedForwardGraph, g.forwardGraph = some fg.toForwardGraph ∧
      fg.size = memo.length := by
  have hmap : g.postDfsOrder.mapM g.forwardNode =
      some (memo.reverse.map (resolved g)) := by
    rw [h.order, List.mapM_map]
    refine mapM_eq_map ?_
    intro r hr
    exact forwardNode_resolved h (List.mem_reverse.mp hr)
  have hsize : (ForwardGraph.mk (memo.reverse.map (resolved g))).size = memo.length := by
    simp [ForwardGraph.size]
  refine ⟨⟨⟨memo.reverse.map (resolved g)⟩, ?_⟩, by simp [Graph.forwardGraph, hmap], hsize⟩
  intro k e he
  simp only [ForwardGraph.outputs, List.getElem?_map, Option.map_map] at he
  cases hk : memo.reverse[k]? with
  | none => simp [hk] at he
  | some r =>
    obtain ⟨hkl, hkr⟩ := List.getElem?_eq_some_iff.mp hk
    have hr : r ∈ memo := List.mem_reverse.mp (List.mem_of_getElem? hk)
    obtain ⟨n, hn, hidx⟩ := h.finished r hr
    simp only [hk, Option.map_some, Option.getD_some, Function.comp_apply, resolved, hn,
      List.mem_map] at he
    obtain ⟨x, hx, rfl⟩ := he
    obtain ⟨q, hq, hc, hm⟩ := h.edges r n hn x hx
    have hqm : q ∈ memo := by simpa using hm
    obtain ⟨m, hm', hmidx⟩ := h.finished q hqm
    have hnk : n.index = k := by
      obtain ⟨hnl, hnr⟩ := List.getElem?_eq_some_iff.mp hidx
      exact (List.Nodup.getElem_inj_iff (List.nodup_reverse.mpr h.nodup)).mp (hnr.trans hkr.symm)
    have hlt := (h.before q hqm r hc).2 m n hm' hn
    obtain ⟨hml, -⟩ := List.getElem?_eq_some_iff.mp hmidx
    rw [List.length_reverse] at hml
    simp only [hsize, hq, targetIndex, hm', Option.map_some, Option.getD_some]
    omega

/-- The expressions reached from the parameters and the body. -/
inductive Reachable (f : ExprHeap) : Ref → Prop where
  | root (r : Ref) (h : r ∈ f.params ++ [f.body]) : Reachable f r
  | child (r c : Ref) (h : Reachable f r) (hc : c ∈ f.children r) : Reachable f c

/-- No projection and no tuple with a tensor field is reached. -/
def Portable (f : ExprHeap) : Prop :=
  f.compiler = true ∨ ∀ r, Reachable f r → (∀ t k, f.node r ≠ .tupleGetItem t k) ∧
    ∀ fields, f.node r = .tuple fields → ∀ c ∈ fields, (f.checkedType c).isTensor = false

theorem pyEnter_eq_cppEnter {r : Ref} (hproj : ∀ t k, f.node r ≠ .tupleGetItem t k)
    (htuple : ∀ fields, f.node r = .tuple fields → ∀ c ∈ fields,
      (f.checkedType c).isTensor = false) (g : Graph) : pyEnter f r g = cppEnter f r g := by
  unfold pyEnter cppEnter
  cases hnode : f.node r with
  | var => rfl
  | constant => rfl
  | call => rfl
  | tupleGetItem t k => exact absurd hnode (hproj t k)
  | tuple fields =>
    have hfield := htuple fields hnode
    change enterTuple f .builtinTuple r fields g = enterTuple f (.node (.expr r)) r fields g
    unfold enterTuple
    congr 1
    funext g₁
    congr 1
    refine List.foldl_ext _ _ g₁ fun g c hc => ?_
    simp [hfield c hc]

theorem pyCreate_eq_cppCreate (h : Portable f) : pyCreate f = cppCreate f := by
  unfold pyCreate cppCreate prepare
  by_cases hc : f.compiler = true
  · simp [hc]
  · have hreach := h.resolve_left hc
    simp only [hc]
    refine congrArg (Option.map Prod.snd) ?_
    refine Visitor.visitAll_congr (v := visitor f (cppEnter f)) (w := visitor f (pyEnter f))
      (Reachable f) rfl rfl ?_ ?_ _ ?_ _
    · intro r hr g
      exact pyEnter_eq_cppEnter (hreach r hr).1 (hreach r hr).2 g
    · intro r hr c hc
      exact .child r c hr hc
    · intro r hr
      exact .root r hr

theorem has_of_setPattern {r : Ref} {pat : OpPattern} (h : g.setPattern (.expr r) pat = some g') :
    g.Has r := by
  unfold Graph.setPattern at h
  cases hn : g.nodeMap (.expr r) with
  | none => simp [hn] at h
  | some n => exact ⟨n, hn⟩

/-- What a Python method that did not raise has done. -/
theorem pyEnter_some {r : Ref} (h : pyEnter f r g = some g') :
    Extends (fun _ _ => True) g g' ∧ (∀ t k, f.node r ≠ .tupleGetItem t k) ∧
      ∀ fields, f.node r = .tuple fields → ∀ c ∈ fields, (f.checkedType c).isTensor = true →
        g'.HasEdge c (.builtinTuple, .injective) := by
  unfold pyEnter at h
  cases hnode : f.node r with
  | var =>
    obtain rfl : g = g' := by simpa [hnode] using h
    exact ⟨Extends.refl g, by simp, by simp⟩
  | constant =>
    obtain rfl : g = g' := by simpa [hnode] using h
    exact ⟨Extends.refl g, by simp, by simp⟩
  | call op args dd =>
    simp only [hnode] at h
    have hhas : g.Has r := by
      unfold enterCall at h
      obtain ⟨g₁, h₁, -⟩ := Option.bind_eq_some_iff.mp h
      exact has_of_setPattern h₁
    obtain ⟨g₂, h₂, he, -⟩ := enterCall_extends hnode hhas
    obtain rfl : g₂ = g' := by simpa [h₂] using h
    exact ⟨he.mono fun _ _ _ => trivial, by simp, by simp⟩
  | tuple fields =>
    simp only [hnode] at h
    have hhas : g.Has r := by
      unfold enterTuple at h
      obtain ⟨g₁, h₁, -⟩ := Option.bind_eq_some_iff.mp h
      exact has_of_setPattern h₁
    obtain ⟨g₂, h₂, he, -, hedge⟩ := enterTuple_extends .builtinTuple hnode hhas
    obtain rfl : g₂ = g' := by simpa [h₂] using h
    refine ⟨he.mono fun _ _ _ => trivial, by simp, ?_⟩
    intro fs hfs
    obtain rfl : fields = fs := by simpa using hfs
    exact hedge
  | tupleGetItem t k => simp [hnode] at h

theorem leave_some {r : Ref} (h : leave f r g = some g') : Finishes r g g' := by
  have hadd : ∃ g₁, g.addNode (.expr r) = some g₁ := by
    unfold leave at h
    cases hnode : f.node r with
    | constant =>
      simp only [hnode] at h
      obtain ⟨g₁, h₁, -⟩ := Option.bind_eq_some_iff.mp h
      exact ⟨g₁, h₁⟩
    | var => exact ⟨g', by simpa [hnode] using h⟩
    | call => exact ⟨g', by simpa [hnode] using h⟩
    | tuple => exact ⟨g', by simpa [hnode] using h⟩
    | tupleGetItem => exact ⟨g', by simpa [hnode] using h⟩
  obtain ⟨g₁, h₁⟩ := hadd
  unfold Graph.addNode at h₁
  cases hn : g.nodeMap (.expr r) with
  | none => simp [hn] at h₁
  | some n =>
    by_cases href : n.ref = none
    · obtain ⟨g₂, h₂, hf⟩ := leave_finishes (f := f) hn href
      obtain rfl : g₂ = g' := by simpa [h₂] using h
      exact hf
    · simp [hn, href] at h₁

theorem Finishes.hasEdge {r q : Ref} {e : Target × OpPattern} (h : Finishes r g g')
    (he : g.HasEdge q e) : g'.HasEdge q e := by
  obtain ⟨n, hn, hmem⟩ := he
  by_cases hqr : q = r
  · subst hqr
    obtain ⟨m, m', hm, hm', -, -, -, hout⟩ := h.self
    obtain rfl : m = n := by simpa [hm] using hn
    exact ⟨m', hm', by rw [hout]; exact hmem⟩
  · exact ⟨n, (h.other q hqr).trans hn, hmem⟩

/-- What a Python run that did not raise knows about the visited expressions. -/
structure Marked (f : ExprHeap) (opened memo : List Ref) (g : Graph) : Prop where
  order : g.postDfsOrder = memo.reverse.map Key.expr
  closed : ∀ q ∈ memo, ∀ c ∈ f.children q, c ∈ memo
  visited : ∀ q, q ∈ memo ∨ q ∈ opened → (∀ t k, f.node q ≠ .tupleGetItem t k) ∧
    ∀ fields, f.node q = .tuple fields → ∀ c ∈ fields, (f.checkedType c).isTensor = true →
      g.HasEdge c (.builtinTuple, .injective)

theorem pyCreate_marked (f : RelayFunction) (hc : f.compiler = false)
    (hrun : pyCreate f.toExprHeap = some g) :
    ∃ memo, Marked f.toExprHeap [] memo g ∧ ∀ r ∈ f.params ++ [f.body], r ∈ memo := by
  have hinv : (visitor f.toExprHeap (pyEnter f.toExprHeap)).Invariant (f.params ++ [f.body]) True
      (fun opened memo g => Marked f.toExprHeap opened memo g) := by
    constructor
    · intro i opened memo g h _ _ _
      simp only [visitor, Outcome]
      split
      · trivial
      · rename_i g' hg'
        obtain ⟨he, hproj, hedge⟩ := pyEnter_some hg'
        refine ⟨he.order.trans h.order, h.closed, ?_⟩
        intro q hq
        by_cases hqi : q = i
        · subst hqi
          exact ⟨hproj, hedge⟩
        · obtain ⟨h1, h2⟩ := h.visited q (by simpa [hqi] using hq)
          exact ⟨h1, fun fs hfs c hc ht => he.hasEdge (h2 fs hfs c hc ht)⟩
    · intro i opened memo g h _ hdone
      simp only [visitor, Outcome]
      split
      · trivial
      · rename_i g' hg'
        have hf := leave_some hg'
        refine ⟨by rw [hf.order, h.order]; simp, ?_, ?_⟩
        · intro q hq c hc
          rcases List.mem_cons.mp hq with rfl | hq
          · exact List.mem_cons_of_mem _ (hdone c hc)
          · exact List.mem_cons_of_mem _ (h.closed q hq c hc)
        · intro q hq
          obtain ⟨h1, h2⟩ := h.visited q (by
            simp only [List.mem_cons] at hq ⊢
            tauto)
          exact ⟨h1, fun fs hfs c hc ht => hf.hasEdge (h2 fs hfs c hc ht)⟩
  have hroots : ∀ r ∈ f.params ++ [f.body], r < f.exprs.length := by
    intro r hr
    rcases List.mem_append.mp hr with hr | hr
    · exact f.params_lt r hr
    · rw [List.mem_singleton.mp hr]
      exact f.body_lt
  have hstart := enterFunction_spec f.toExprHeap (Graph.empty.update .function none .nonFusable)
    (fun r => by simp [Graph.update, Graph.empty]) rfl
  have hfin := Visitor.visitAll_finished f.children_lt hinv f.exprs.length _ hroots
    ⟨hstart.order, by simp, by simp⟩
  simp only [pyCreate, prepare, hc, Bool.false_eq_true, if_false, Option.map_eq_some_iff] at hrun
  obtain ⟨⟨memo, g₁⟩, hvisit, rfl⟩ := hrun
  rw [hvisit] at hfin
  exact ⟨memo, hfin.1, hfin.2.1⟩

/-- Both creators return, with the same nodes in the same order. -/
def SameGraph (f : ExprHeap) : Prop :=
  ∃ g g', pyCreate f = some g ∧ cppCreate f = some g' ∧
    g.postDfsOrder = g'.postDfsOrder ∧ g.nodes = g'.nodes

/-- Both passes assign the same groups. -/
def SameGroups (f : ExprHeap) (optLevel maxFuseDepth : Int) : Prop :=
  ∃ gs, fuseGroups .python (pyCreate f) optLevel maxFuseDepth = some gs ∧
    fuseGroups .cpp (cppCreate f) optLevel maxFuseDepth = some gs

theorem sameGraph_iff (f : RelayFunction) : SameGraph f.toExprHeap ↔ Portable f.toExprHeap := by
  constructor
  · rintro ⟨g, g', hpy, hcpp, horder, hnodes⟩
    by_cases hc : f.compiler = true
    · exact Or.inl hc
    · rw [Bool.not_eq_true] at hc
      obtain ⟨memo, hmark, hroots⟩ := pyCreate_marked f hc hpy
      obtain ⟨memo', g₁, hcpp', hidx, -⟩ := cppCreate_indexing f hc
      obtain rfl : g₁ = g' := by simpa [hcpp'] using hcpp
      have hmem : ∀ r, Reachable f.toExprHeap r → r ∈ memo := by
        intro r hr
        induction hr with
        | root r h => exact hroots r h
        | child r c _ hc ih => exact hmark.closed r ih c hc
      refine Or.inr fun r hr => ⟨(hmark.visited r (Or.inl (hmem r hr))).1, ?_⟩
      intro fields hfields c hcf
      by_contra htensor
      rw [Bool.not_eq_false] at htensor
      -- the edge to the builtin would also be in the C++ graph
      have hcr : c ∈ memo := hmem c (.child r c hr (by
        simp [ExprHeap.children, hfields, ExprNode.children, hcf]))
      obtain ⟨n, hn, hedge⟩ := (hmark.visited r (Or.inl (hmem r hr))).2 fields hfields c hcf htensor
      have hkey : Key.expr c ∈ g.postDfsOrder := by
        rw [hmark.order]
        exact List.mem_map_of_mem (List.mem_reverse.mpr hcr)
      have hsame : g.nodeMap (.expr c) = g₁.nodeMap (.expr c) := by
        unfold Graph.nodes at hnodes
        rw [← horder] at hnodes
        exact List.map_inj_left.mp hnodes _ hkey
      obtain ⟨q, hq, -⟩ := hidx.edges c n (hsame.symm.trans hn) _ hedge
      simp at hq
  · intro h
    have heq := pyCreate_eq_cppCreate h
    by_cases hc : f.compiler = true
    · have hsome : cppCreate f.toExprHeap = some (Graph.empty.update .function none .nonFusable) := by
        simp [cppCreate, prepare, hc]
      exact ⟨_, _, heq.trans hsome, hsome, rfl, rfl⟩
    · rw [Bool.not_eq_true] at hc
      obtain ⟨memo, g, hcpp, -, -⟩ := cppCreate_indexing f hc
      exact ⟨g, g, heq.trans hcpp, hcpp, rfl, rfl⟩

theorem fits_cpp {n : Nat} (h : n < 2 ^ 16) : GraphPartitioner.Fits .cpp n := by
  intro x hx
  have hle : n * n ≤ (2 ^ 16 - 1) * (2 ^ 16 - 1) := Nat.mul_le_mul (by omega) (by omega)
  exact Nat.mod_eq_of_lt (by omega)

theorem sameGroups_of_portable (f : RelayFunction) (h : Portable f.toExprHeap)
    (hsize : f.exprs.length < 2 ^ 16) (optLevel maxFuseDepth : Int) :
    SameGroups f.toExprHeap optLevel maxFuseDepth := by
  have hgraph : ∃ g, ∃ fg : IndexedForwardGraph, cppCreate f.toExprHeap = some g ∧
      g.forwardGraph = some fg.toForwardGraph ∧ fg.size < 2 ^ 16 := by
    by_cases hc : f.compiler = true
    · refine ⟨_, ⟨⟨[]⟩, by simp [ForwardGraph.outputs]⟩, by simp [cppCreate, prepare, hc]; rfl, ?_, ?_⟩
      · rfl
      · exact Nat.two_pow_pos 16
    · rw [Bool.not_eq_true] at hc
      obtain ⟨memo, g, hcpp, hidx, -⟩ := cppCreate_indexing f hc
      obtain ⟨fg, hfg, hlen⟩ := forwardGraph_indexed hidx
      refine ⟨g, fg, hcpp, hfg, ?_⟩
      have hvis : GraphPartitioner.Visits f.exprs.length memo :=
        ⟨hidx.nodup, fun v hv => hidx.inside v (Or.inl hv)⟩
      have := hvis.length_le
      omega
  obtain ⟨g, fg, hcpp, hfg, hlt⟩ := hgraph
  obtain ⟨gs, hrun, -, hpy⟩ := GraphPartitioner.partition_spec fg .cpp optLevel maxFuseDepth
  obtain ⟨-, hpy⟩ := hpy (fits_cpp hlt) (GraphPartitioner.counted_initGroup _)
  simp only at hrun
  refine ⟨gs, ?_, ?_⟩
  · simp [fuseGroups, pyCreate_eq_cppCreate h, hcpp, hfg, hpy]
  · simp [fuseGroups, hcpp, hfg, hrun]

/-- `fn (%x: Tensor[(4)]) { (%x, %x).0 }`. -/
def projection : RelayFunction where
  exprs := [⟨.var, .tensor [.intImm 4]⟩,
    ⟨.tuple [0, 0], .tuple [.tensor [.intImm 4], .tensor [.intImm 4]]⟩,
    ⟨.tupleGetItem 1 0, .tensor [.intImm 4]⟩]
  params := [0]
  body := 2
  compiler := false
  children_lt := by
    intro r c hc
    match r with
    | 0 => simp [ExprHeap.children, ExprHeap.node, ExprNode.children] at hc
    | 1 =>
      obtain rfl : c = 0 := by simpa [ExprHeap.children, ExprHeap.node, ExprNode.children] using hc
      exact Nat.zero_lt_one
    | 2 =>
      obtain rfl : c = 1 := by simpa [ExprHeap.children, ExprHeap.node, ExprNode.children] using hc
      exact Nat.lt_succ_self 1
    | r + 3 => simp [ExprHeap.children, ExprHeap.node, ExprNode.children] at hc
  params_lt := by simp
  params_var := by simp [ExprHeap.node]
  body_lt := by simp
  typed := by
    intro r hr
    match r with
    | 0 => simp [ExprHeap.TypedAt, ExprHeap.node]
    | 1 => simp [ExprHeap.TypedAt, ExprHeap.node, ExprHeap.checkedType]
    | 2 => simp [ExprHeap.TypedAt, ExprHeap.node, ExprHeap.checkedType]
    | r + 3 => exact absurd hr (Nat.not_lt.mpr (Nat.le_add_left 3 r))

end StencilGraph.Fuse.Creator

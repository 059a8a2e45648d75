import StencilGraph.Dnn.TopoSortOrder
import StencilGraph.Relay.FusionRun

namespace StencilGraph.Relay
open Framework Relation

/-! ### The copy of `BuildGraph` that generates code -/

namespace CodegenBuildGraph

/-- A projection gives the expression it projects, whatever that is. -/
def depends (h : Heap) (call : Nat) : List Nat :=
  (GroupOp.callArgs h call).filterMap fun (a : Nat) => match h[a]? with
    | some (.call _ _) => some a
    | some (.tupleGetItem t _) => some t
    | _ => none

def getCallList (h : Heap) (expr : Nat) : Option (List Nat) := do
  let (_, callList) ← (BuildGraph.visitor h).visit (expr + 1) expr ([], [])
  let graph := callList.map fun call => (call, depends h call)
  let sorted ← BuildGraph.topoSort graph graph.length []
  if (∀ c ∈ callList, c ∈ sorted) ∧ ∀ c ∈ sorted, c ∈ callList then some sorted else none

end CodegenBuildGraph

open BuildGraph
open Dnn (Ordered Ordered.append)

section Sorting

variable {deps : Nat → List Nat} {sorted result : List Nat}

/-- A pass adds a call when the calls it depends on are sorted. -/
theorem topoRound_ordered (nodes : List Nat) (h : Ordered deps sorted) :
    Ordered deps (topoRound (nodes.map fun c => (c, deps c)) sorted) := by
  induction nodes generalizing sorted with
  | nil => exact h
  | cons node nodes ih =>
    rw [List.map_cons, topoRound_cons]
    apply ih
    by_cases hadd : node ∉ sorted ∧ ∀ d ∈ deps node, d ∈ sorted
    · rw [if_pos hadd]
      apply h.append
      intro c hc d hd
      cases List.mem_singleton.mp hc
      exact hadd.2 d hd
    · rw [if_neg hadd]
      exact h

theorem topoSort_ordered {nodes : List Nat} {fuel : Nat} (h : Ordered deps sorted)
    (hrun : topoSort (nodes.map fun c => (c, deps c)) fuel sorted = some result) :
    Ordered deps result := by
  induction fuel generalizing sorted with
  | zero =>
    unfold topoSort at hrun
    split_ifs at hrun
    cases hrun
    exact h
  | succ fuel ih =>
    unfold topoSort at hrun
    split_ifs at hrun
    · exact ih (topoRound_ordered nodes h) hrun
    · cases hrun
      exact h

theorem ordered_nil : Ordered deps [] := by
  intro before c after heq
  exact absurd heq.symm (List.append_ne_nil_of_right_ne_nil _ (List.cons_ne_nil _ _))

end Sorting

variable {m m' : Module} {h : Heap} {ps L callList : List Nat} {b x : Nat}

/-- The two copies find the same dependences: what a call of `main` projects is a call. -/
theorem depends_codegen (hm : Main h ps b) (hx : TopCall h b x) :
    CodegenBuildGraph.depends h x = depends h x := by
  unfold CodegenBuildGraph.depends depends
  apply List.filterMap_congr
  intro y hy
  rcases arg_cases hm hx.2 hx.1 hy with hv | hc | hi
  · obtain ⟨name, hv⟩ := hv
    rw [hv]
  · obtain ⟨c, args, hc⟩ := hc
    rw [hc]
  · obtain ⟨t, k, hi, c, args, ht⟩ := hi
    have hstrip : stripItems h h.length t = t := by
      cases h.length with
      | zero => rfl
      | succ n => simp only [stripItems, ht]
    simp only [hi, hstrip]

/-- What the call list is: the calls that the visitor collects, each once, in an order in which every
call comes after the calls it uses a result of. -/
structure TopologicalOrder (h : Heap) (b : Nat) (callList sorted : List Nat) : Prop where
  collected : ∀ x, x ∈ callList ↔ TopCall h b x
  once : callList.Nodup
  outside : ∀ x ∈ callList, ¬ Inside h (Reach h b) x
  perm : sorted.Perm callList
  after : ∀ before x rest, sorted = before ++ x :: rest → ∀ d, IsCall h d → Uses h d x → d ∈ before

/-- `BuildGraph.get_call_list` of a module that fusion reaches: the visitor collects the calls of `main`,
`topo_sort` ends with them in a topological order, and both copies of the class return it. -/
theorem call_list_topological (hm : m.Stencil ps b) (hrun : ReflTransGen FusionStep m m') :
    ∃ b' tag memo callList sorted, m'.heap[m'.main]? = some (.function ps b' tag) ∧
      (visitor m'.heap).visit (m'.main + 1) m'.main ([], []) = some (memo, callList) ∧
      TopologicalOrder m'.heap b' callList sorted ∧
      BuildGraph.getCallList m'.heap m'.main = some sorted ∧
      CodegenBuildGraph.getCallList m'.heap m'.main = some sorted := by
  obtain ⟨b', hok, -⟩ := run_spec hm.ok hrun
  obtain ⟨tag, hnode⟩ := hok.node
  obtain ⟨memo, callList, hvisit, hn, hcalls⟩ := visit_calls hok.main hnode
  obtain ⟨L, hsort, hnodup, hmem⟩ := sort_calls hok.main hn hcalls
  have hgraph : (callList.map fun call => (call, CodegenBuildGraph.depends m'.heap call)) =
      callList.map fun call => (call, depends m'.heap call) := by
    apply List.map_congr_left
    intro c hc
    rw [depends_codegen hok.main ((hcalls c).mp hc)]
  have hsame : (∀ c ∈ callList, c ∈ L) ∧ ∀ c ∈ L, c ∈ callList :=
    ⟨fun c hc => (hmem c).mpr hc, fun c hc => (hmem c).mp hc⟩
  refine ⟨b', tag, memo, callList, L, hnode, hvisit, ?_, ?_, ?_⟩
  · refine ⟨hcalls, hn, fun x hx => ?_, (List.perm_ext_iff_of_nodup hnodup hn).mpr hmem, ?_⟩
    · exact hok.main.apart x (Or.inr ((hcalls x).mp hx).2)
    · intro before x rest heq d hd huses
      have hx : TopCall m'.heap b' x := by
        apply (hcalls x).mp
        apply (hmem x).mp
        rw [heq]
        exact List.mem_append_right _ List.mem_cons_self
      have hdep : d ∈ depends m'.heap x :=
        (mem_depends hok.main hx).mpr ⟨(huses.topCall hok.main hx hd).1, hx, huses⟩
      exact topoSort_ordered ordered_nil hsort before x rest heq d hdep
  · unfold BuildGraph.getCallList
    simp only [hvisit, Option.bind_eq_bind, Option.bind_some, hsort]
    exact if_pos hsame
  · unfold CodegenBuildGraph.getCallList
    simp only [hvisit, Option.bind_eq_bind, Option.bind_some, hgraph, hsort]
    exact if_pos hsame

theorem call_list_topological_sample : ∃ m' b' tag memo callList sorted, FusionStep sampleModule m' ∧
    m'.heap[m'.main]? = some (.function [0] b' tag) ∧
    (visitor m'.heap).visit (m'.main + 1) m'.main ([], []) = some (memo, callList) ∧
    TopologicalOrder m'.heap b' callList sorted ∧
    CodegenBuildGraph.getCallList m'.heap m'.main = some sorted := by
  obtain ⟨m', hstep⟩ := sampleModule_step
  obtain ⟨b', tag, memo, callList, sorted, hnode, hvisit, horder, -, hcodegen⟩ :=
    call_list_topological sampleModule_stencil (.single hstep)
  exact ⟨m', b', tag, memo, callList, sorted, hstep, hnode, hvisit, horder, hcodegen⟩

end StencilGraph.Relay

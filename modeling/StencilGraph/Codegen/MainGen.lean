import StencilGraph.Codegen.CallArgs
import StencilGraph.Stream.StreamList

namespace StencilGraph.Codegen
open Framework Relay Stream Relation StreamSolver CodeGen NodeAutoFusion

/-- The calls of the stream lists. -/
def streamCalls (streams : Streams) : List Nat := streams.flatten.filterMap Element.call?

/-- `out_variables` of `maingen_v1`: what is written and never read. -/
def outVariables (h : Heap) (callSequence : List Nat) (streams : Streams) : Option (List String) := do
  let args ← (streamCalls streams).mapM (getCallArgs h callSequence)
  let midOutVars := (args.flatMap Prod.fst).dedup
  let midInVars := (args.flatMap Prod.snd).dedup
  some (midOutVars.filter (· ∉ midInVars))

/-- The buffer of a value, as `GET_CALL_ARGS` names it; a loaded field has none. -/
def bufferOf (h : Heap) (callSequence : List Nat) (a : Nat) : Option String :=
  if isVar h a then none else (inputName "" h callSequence a).map fun name => "func_" ++ name

variable {h : Heap} {ps L : List Nat} {b x a : Nat} {N : String → Prop} {r : Result}
  {levels : List (List Nat)} {streams : Streams}

theorem mem_streamCalls : x ∈ streamCalls streams ↔ ∃ s ∈ streams, Element.call x ∈ s := by
  unfold streamCalls
  rw [List.mem_filterMap]
  constructor
  · intro ⟨e, he, hx⟩
    obtain ⟨s, hs, hes⟩ := List.mem_flatten.mp he
    cases e with
    | call y =>
      obtain rfl := Option.some.inj hx
      exact ⟨s, hs, hes⟩
    | sync step => cases hx
  · intro ⟨s, hs, hxs⟩
    exact ⟨.call x, List.mem_flatten.mpr ⟨s, hs, hxs⟩, rfl⟩

/-- Removing syncs keeps the calls. -/
theorem mem_streamCalls_removeTag (i : Nat) :
    x ∈ streamCalls (removeTag streams (.sync i)) ↔ x ∈ streamCalls streams := by
  rw [mem_streamCalls, mem_streamCalls]
  unfold removeTag
  constructor
  · intro ⟨s, hs, hx⟩
    obtain ⟨s', hs', rfl⟩ := List.mem_map.mp hs
    exact ⟨s', hs', List.mem_of_mem_erase hx⟩
  · intro ⟨s, hs, hx⟩
    refine ⟨_, List.mem_map_of_mem hs, ?_⟩
    exact (List.mem_erase_of_ne (by simp)).mpr hx

theorem mem_streamCalls_foldl {f : Streams → Nat → Streams}
    (hf : ∀ streams i x, x ∈ streamCalls (f streams i) ↔ x ∈ streamCalls streams) (steps : List Nat) :
    x ∈ streamCalls (steps.foldl f streams) ↔ x ∈ streamCalls streams := by
  induction steps generalizing streams with
  | nil => rfl
  | cons i steps ih => rw [List.foldl_cons, ih, hf]

theorem mem_stream {i : Nat} :
    Element.call x ∈ stream levels i ↔ ∃ l ∈ levels, l[i]? = some x := by
  unfold stream
  rw [List.mem_flatMap]
  constructor
  · intro ⟨e, he, hx⟩
    refine ⟨e.1, List.fst_mem_of_mem_zipIdx he, ?_⟩
    cases List.mem_append.mp hx with
    | inl hx =>
      split at hx
      · cases List.mem_singleton.mp hx
      · cases hx
    | inr hx =>
      obtain ⟨y, hy, heq⟩ := List.mem_map.mp hx
      obtain rfl := Element.call.inj heq
      exact Option.mem_toList.mp hy
  · intro ⟨l, hl, hx⟩
    obtain ⟨step, hstep⟩ := List.mem_iff_getElem?.mp hl
    refine ⟨(l, step), List.mem_zipIdx_iff_getElem?.mpr hstep, ?_⟩
    exact List.mem_append_right _ (List.mem_map_of_mem (Option.mem_toList.mpr hx))

/-- The streams hold the calls of the levels. -/
theorem generateCodegenStreamlist_calls {expr : Nat}
    (hgen : generateCodegenStreamlist h expr levels = some streams) :
    x ∈ streamCalls streams ↔ x ∈ levels.flatten := by
  unfold generateCodegenStreamlist at hgen
  cases hgraph : buildGraph h expr with
  | none => simp [hgraph] at hgen
  | some graph =>
    simp only [hgraph, Option.bind_eq_bind, Option.bind_some, Option.some.injEq] at hgen
    rw [← hgen, mem_streamCalls_foldl fun streams i x => ?_, mem_streamCalls_foldl fun streams i x => ?_]
    · rw [mem_streamCalls, List.mem_flatten]
      constructor
      · intro ⟨s, hs, hx⟩
        obtain ⟨i, -, rfl⟩ := List.mem_map.mp hs
        obtain ⟨l, hl, hx⟩ := mem_stream.mp hx
        exact ⟨l, hl, List.mem_of_getElem? hx⟩
      · intro ⟨l, hl, hx⟩
        obtain ⟨i, hi⟩ := List.mem_iff_getElem?.mp hx
        have hlt := (List.getElem?_eq_some_iff.mp hi).1
        have hwide := (maxStreamNumber_le_iff.mp (le_refl (maxStreamNumber levels))).2 l hl
        refine ⟨_, List.mem_map_of_mem (List.mem_range.mpr (hlt.trans_le hwide)), ?_⟩
        exact mem_stream.mpr ⟨l, hl, hi⟩
    · unfold removeIndependent
      split
      · rfl
      · exact mem_streamCalls_removeTag i
    · unfold removeSingle
      split
      · exact mem_streamCalls_removeTag i
      · rfl

section Buffers

variable (hm : Main h ps b) (hn : Named h b N) (hN : ∀ name, N name → ∃ n : Nat, name = toString n)
  (hL : ∀ x, x ∈ L ↔ TopCall h b x)

include hm hn hN hL

theorem getCallArgs_eq (hx : TopCall h b x) : getCallArgs h L x =
    some ((resultsOf h x).map fun r => "func_" ++ nameOf "" (bufferName h L) r,
      (resultsRead h x).map fun r => "func_" ++ nameOf "" (bufferName h L) r) := by
  simp only [getCallArgs, callInputList_eq hm hn hN hL hx, callOutputList_eq hm hn hN hL hx,
    Option.bind_eq_bind, Option.bind_some, List.map_map]
  rfl

theorem outVariables_eq {l : List Nat} (hcalls : ∀ x ∈ l, TopCall h b x) :
    l.mapM (getCallArgs h L) = some (l.map fun x =>
      ((resultsOf h x).map fun r => "func_" ++ nameOf "" (bufferName h L) r,
        (resultsRead h x).map fun r => "func_" ++ nameOf "" (bufferName h L) r)) := by
  induction l with
  | nil => rfl
  | cons x l ih =>
    rw [List.mapM_cons, getCallArgs_eq hm hn hN hL (hcalls x List.mem_cons_self),
      ih fun y hy => hcalls y (List.mem_cons_of_mem _ hy)]
    rfl

/-- The output buffers: those of the results that no call reads. -/
theorem outVariables_spec (hcalls : ∀ x, x ∈ streamCalls streams ↔ TopCall h b x) :
    ∃ vars, outVariables h L streams = some vars ∧
      ∀ r, TopCall h b r.1 → r ∈ resultsOf h r.1 →
        ("func_" ++ nameOf "" (bufferName h L) r ∈ vars ↔
          ∀ x, TopCall h b x → r ∉ resultsRead h x) := by
  have hargs := outVariables_eq hm hn hN hL (l := streamCalls streams) fun x hx => (hcalls x).mp hx
  refine ⟨_, by simp only [outVariables, hargs, Option.bind_eq_bind, Option.bind_some]; rfl,
    fun r htop hr => ?_⟩
  have hinj {r' : Result} (hr' : TopCall h b r'.1)
      (heq : "func_" ++ nameOf "" (bufferName h L) r' = "func_" ++ nameOf "" (bufferName h L) r) :
      r' = r :=
    nameOf_inj hm hn hN hL (Or.inr rfl) hr' htop ((String.append_right_inj "func_").mp heq)
  rw [List.mem_filter, List.mem_dedup, decide_eq_true_eq, List.mem_dedup]
  constructor
  · intro hmem x hx hread
    apply hmem.2
    rw [List.mem_flatMap]
    refine ⟨_, List.mem_map_of_mem ((hcalls x).mpr hx), ?_⟩
    exact List.mem_map_of_mem (f := fun r => "func_" ++ nameOf "" (bufferName h L) r) hread
  · intro hno
    constructor
    · rw [List.mem_flatMap]
      refine ⟨_, List.mem_map_of_mem ((hcalls r.1).mpr htop), ?_⟩
      exact List.mem_map_of_mem (f := fun r => "func_" ++ nameOf "" (bufferName h L) r) hr
    · intro hmem
      obtain ⟨e, he, hname⟩ := List.mem_flatMap.mp hmem
      obtain ⟨x, hx, rfl⟩ := List.mem_map.mp he
      obtain ⟨r', hr', heq⟩ := List.mem_map.mp hname
      have hxtop := (hcalls x).mp hx
      obtain rfl := hinj (top_of_read hm hxtop hr').1 heq
      exact hno x hxtop hr'

end Buffers

variable {m m' : Module}

/-- The generated main reports every stored value exactly when every stored value is a result that no
call reads. -/
theorem outputs_reported_iff (hm : m.Stencil ps b) (hssa : SsaNumbers m.heap b)
    (hrun : ReflTransGen FusionStep m m') :
    ∃ b' tag, m'.heap[m'.main]? = some (.function ps b' tag) ∧
      ∃ callSequence levels streams vars,
        BuildGraph.getCallList m'.heap m'.main = some callSequence ∧
        (∀ fuel, m'.heap.length < fuel → solve fuel m'.heap m'.main = some levels) ∧
        generateCodegenStreamlist m'.heap m'.main levels = some streams ∧
        outVariables m'.heap callSequence streams = some vars ∧
        ((∀ a ∈ retCalls m'.heap b', ∃ buffer, bufferOf m'.heap callSequence a = some buffer ∧
            buffer ∈ vars) ↔
          ∀ a ∈ retCalls m'.heap b', ∃ r, resultOf m'.heap a = some r ∧
            ∀ x ∈ callSequence, r ∉ resultsRead m'.heap x) := by
  obtain ⟨b', hok, hn⟩ := run_named hm hssa.distinct hrun
  obtain ⟨tag, hmain⟩ := hok.node
  obtain ⟨L, hlist, -, hL⟩ := getCallList_spec hok.main hmain
  have hno := hssa.ssaNames.noUnderscore
  obtain ⟨graph, hgraph, -⟩ := buildGraph_spec hok.main hmain hn hno
  obtain ⟨levels, n, hsolve, hl, hall⟩ := solve_spec hok.main hmain hn hno
  obtain ⟨streams, hgen, -⟩ := generateCodegenStreamlist_length levels hgraph
  have hcalls (x : Nat) : x ∈ streamCalls streams ↔ TopCall m'.heap b' x :=
    (generateCodegenStreamlist_calls hgen).trans (hall x)
  obtain ⟨vars, hvars, hmem⟩ := outVariables_spec hok.main hn hssa.number hL hcalls
  refine ⟨b', tag, hmain, L, levels, streams, vars, hlist, hsolve, hgen, hvars, ?_⟩
  apply forall₂_congr
  intro a ha
  obtain ⟨hreach, hty⟩ := mem_retCalls hok.main ha
  rcases resultOf_tensor hok.main hreach hty with ⟨hvar, hres⟩ | ⟨r, hvar, hres, htop, hr⟩
  · simp [bufferOf, hvar, hres]
  · have hbuf : bufferOf m'.heap L a = some ("func_" ++ nameOf "" (bufferName m'.heap L) r) := by
      simp [bufferOf, hvar, inputName_eq hok.main hn hssa.number hL hres htop]
    simp only [hbuf, hres, Option.some.injEq, exists_eq_left', hmem r htop hr, hL]

/-- Two stencils in a row, both stored. -/
def chainModule : Module :=
  ⟨[.var "data_0", .call (.op "1" 1) [0], .call (.op "2" 1) [1], .tuple [1, 2],
    .function [0] 3 []], 4⟩

theorem chainModule_stencil : chainModule.Stencil [0] 3 := by
  have h0 : Typed chainModule.heap noCall (IsCall chainModule.heap) [0] 0 :=
    .var 0 "data_0" rfl (by simp)
  have h1 : Typed chainModule.heap noCall (IsCall chainModule.heap) [0] 1 :=
    .op 1 "1" 1 [0] rfl (by simpa using h0) (by decide)
  have h2 : Typed chainModule.heap noCall (IsCall chainModule.heap) [0] 2 :=
    .op 2 "2" 1 [1] rfl (by simpa using h1) (by decide)
  refine ⟨?_, ⟨[], rfl⟩, by decide, ?_, .tuple 3 [1, 2] rfl (by simpa using ⟨h1, h2⟩) (by decide),
    Or.inr ⟨[1, 2], rfl⟩⟩
  · have hwf : ∀ x < 5, ∀ n ∈ chainModule.heap[x]?, ∀ y ∈ n.refs, y < x := by decide
    exact fun x n hx => hwf x (lt_of_get hx) n hx
  · intro p hp
    obtain rfl : p = 0 := by simpa using hp
    exact ⟨"data_0", rfl⟩

theorem chainModule_ssaNumbers : SsaNumbers chainModule.heap 3 :=
  ssaNumbers_of_tags [(1, 1), (2, 2)] (by decide) (by decide)

/-- The first stencil is stored, but it is read by the second one and not reported. -/
theorem stored_value_unreported : chainModule.Stencil [0] 3 ∧ SsaNumbers chainModule.heap 3 ∧
    ∃ callSequence levels streams vars,
      BuildGraph.getCallList chainModule.heap chainModule.main = some callSequence ∧
      solve 6 chainModule.heap chainModule.main = some levels ∧
      generateCodegenStreamlist chainModule.heap chainModule.main levels = some streams ∧
      outVariables chainModule.heap callSequence streams = some vars ∧
      ∃ a ∈ retCalls chainModule.heap 3, ¬ ∃ buffer,
        bufferOf chainModule.heap callSequence a = some buffer ∧ buffer ∈ vars := by
  refine ⟨chainModule_stencil, chainModule_ssaNumbers, [1, 2], [[1], [2]], [[.call 1, .call 2]],
    ["func_2"], by decide, by decide, by decide, by decide, 1, by decide, ?_⟩
  intro hex
  obtain ⟨buffer, hbuf, hmem⟩ := hex
  have hname : bufferOf chainModule.heap [1, 2] 1 = some "func_1" := by decide
  obtain rfl := Option.some.inj (hbuf.symm.trans hname)
  exact absurd hmem (by decide)

theorem outputs_reported_twice : ∃ callSequence streams vars,
    outVariables twiceModule.heap callSequence streams = some vars ∧
      ∀ a ∈ retCalls twiceModule.heap 4, ∃ buffer,
        bufferOf twiceModule.heap callSequence a = some buffer ∧ buffer ∈ vars := by
  obtain ⟨b', tag, hmain, L, levels, streams, vars, hlist, -, -, hvars, hiff⟩ :=
    outputs_reported_iff twiceModule_stencil twiceModule_ssaNumbers .refl
  have hnode : twiceModule.heap[twiceModule.main]? = some (.function [0] 4 []) := rfl
  cases hmain.symm.trans hnode
  have hseq : BuildGraph.getCallList twiceModule.heap twiceModule.main = some [1, 4] := by decide
  obtain rfl := Option.some.inj (hlist.symm.trans hseq)
  refine ⟨_, streams, vars, hvars, hiff.mpr fun a ha => ?_⟩
  have hfour : a ∈ [4] := ha
  rw [List.mem_singleton.mp hfour]
  exact ⟨(4, none), by decide, by decide⟩

end StencilGraph.Codegen

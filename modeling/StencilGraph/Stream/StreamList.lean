import StencilGraph.Stream.Levels

namespace StencilGraph.Stream
open Framework Relay Relation StreamSolver

/-- An element of a stream: a call, or the text `sync_<step>`. -/
inductive Element where
  | call (x : Nat)
  | sync (step : Nat)
  deriving DecidableEq, Repr

def Element.call? : Element → Option Nat
  | .call x => some x
  | .sync _ => none

abbrev Streams := List (List Element)

namespace CodeGen

/-- `max_stream_number`. -/
def maxStreamNumber (levels : List (List Nat)) : Nat := levels.foldl (fun n l => max n l.length) 1

/-- The `i`-th stream: the `i`-th call of every level, with a sync before every level but the
first. -/
def stream (levels : List (List Nat)) (i : Nat) : List Element :=
  levels.zipIdx.flatMap fun (l, step) =>
    (if step ≠ 0 then [.sync step] else []) ++ (l[i]?).toList.map .call

/-- The calls that follow a tag, up to the next tag. -/
def callsAfter (tag : Element) (l : List Element) : List Nat :=
  ((l.drop (l.idxOf tag + 1)).takeWhile fun e => e.call?.isSome).filterMap Element.call?

/-- The calls before a tag, back to the previous tag. -/
def callsBefore (tag : Element) (l : List Element) : List Nat :=
  ((l.take (l.idxOf tag)).reverse.takeWhile fun e => e.call?.isSome).filterMap Element.call?

def isConsumerProduce (graph : Graph) (mine others : List Nat) : Bool :=
  mine.any fun a => others.any fun b => b ∈ graph.input a

/-- `FLAG` of a tag: a call after the tag reads a call before it in another stream. -/
def needed (graph : Graph) (streams : Streams) (tag : Element) : Bool :=
  let haveTag := streams.filter (tag ∈ ·)
  haveTag.any fun mine => haveTag.any fun other =>
    decide (other ≠ mine) && isConsumerProduce graph (callsAfter tag mine) (callsBefore tag other)

def removeTag (streams : Streams) (tag : Element) : Streams := streams.map (·.erase tag)

/-- (b): a tag without a dependence across it is removed. -/
def removeIndependent (graph : Graph) (streams : Streams) (i : Nat) : Streams :=
  if needed graph streams (.sync i) then streams else removeTag streams (.sync i)

/-- (a): a tag of one stream only is removed. -/
def removeSingle (elements : List Element) (streams : Streams) (i : Nat) : Streams :=
  if elements.count (.sync i) = 1 then removeTag streams (.sync i) else streams

def generateCodegenStreamlist (h : Heap) (expr : Nat) (levels : List (List Nat)) :
    Option Streams := do
  let streams := (List.range (maxStreamNumber levels)).map (stream levels)
  let maxStep := levels.length
  let graph ← buildGraph h expr
  let streams := (List.range' 1 (maxStep - 1)).foldl (removeIndependent graph) streams
  let elements := streams.flatten
  some ((List.range maxStep).foldl (removeSingle elements) streams)

end CodeGen

namespace GenMain

/-- `pthread_t threads[8]`. -/
def threadsLength : Nat := 8

/-- The indices of the emitted `pthread_create(&threads[index], ...)`. -/
def pthreadCreate (streams : Streams) : List Nat := streams.zipIdx.map Prod.snd

/-- The indices of the emitted `pthread_join(threads[index], NULL)`. -/
def pthreadJoin (streams : Streams) : List Nat := streams.zipIdx.map Prod.snd

end GenMain

namespace CodeGen

variable {h : Heap} {expr : Nat} {levels : List (List Nat)} {graph : Graph} {streams : Streams}

theorem length_removeTag (tag : Element) : (removeTag streams tag).length = streams.length :=
  List.length_map _

theorem length_removeIndependent (i : Nat) :
    (removeIndependent graph streams i).length = streams.length := by
  unfold removeIndependent
  split
  · rfl
  · exact length_removeTag _

theorem length_removeSingle {elements : List Element} (i : Nat) :
    (removeSingle elements streams i).length = streams.length := by
  unfold removeSingle
  split
  · exact length_removeTag _
  · rfl

theorem length_foldl {f : Streams → Nat → Streams} (hf : ∀ streams i, (f streams i).length = streams.length)
    (steps : List Nat) : (steps.foldl f streams).length = streams.length := by
  induction steps generalizing streams with
  | nil => rfl
  | cons i steps ih => rw [List.foldl_cons, ih, hf]

/-- Removing syncs keeps the number of streams. -/
theorem generateCodegenStreamlist_length (levels : List (List Nat))
    (hgraph : buildGraph h expr = some graph) :
    ∃ streams, generateCodegenStreamlist h expr levels = some streams ∧
      streams.length = maxStreamNumber levels := by
  refine ⟨_, by simp only [generateCodegenStreamlist, hgraph, Option.bind_eq_bind,
    Option.bind_some]; rfl, ?_⟩
  rw [length_foldl fun streams i => length_removeSingle i,
    length_foldl fun streams i => length_removeIndependent i, List.length_map, List.length_range]

theorem maxStreamNumber_le_iff {n : Nat} :
    maxStreamNumber levels ≤ n ↔ 1 ≤ n ∧ ∀ l ∈ levels, l.length ≤ n := by
  have hfold (k : Nat) : levels.foldl (fun n l => max n l.length) k ≤ n ↔
      k ≤ n ∧ ∀ l ∈ levels, l.length ≤ n := by
    induction levels generalizing k with
    | nil => simp
    | cons l levels ih =>
      rw [List.foldl_cons, ih, Nat.max_le, List.forall_mem_cons, and_assoc]
  exact hfold 1

end CodeGen

open CodeGen GenMain

variable {m m' : Module} {ps : List Nat} {b : Nat}

theorem pthreadCreate_eq_range (streams : Streams) :
    pthreadCreate streams = List.range streams.length := by
  unfold pthreadCreate
  rw [List.zipIdx_map_snd, List.range_eq_range']

/-- The emitted thread indices stay within the array exactly when no nine calls of `main` have
longest dependence paths of one length. -/
theorem thread_indices_in_bounds_iff (hm : m.Stencil ps b) (hssa : SsaNames m.heap b)
    (hrun : ReflTransGen FusionStep m m') :
    ∃ b' tag, m'.heap[m'.main]? = some (.function ps b' tag) ∧
      ∃ levels streams, (∀ fuel, m'.heap.length < fuel → solve fuel m'.heap m'.main = some levels) ∧
        generateCodegenStreamlist m'.heap m'.main levels = some streams ∧
        (streams.length ≤ threadsLength ∧
            (∀ index ∈ pthreadCreate streams, index < threadsLength) ∧
            (∀ index ∈ pthreadJoin streams, index < threadsLength) ↔
          ∀ (k : Nat) (calls : List Nat), calls.Nodup →
            (∀ x ∈ calls, TopCall m'.heap b' x ∧ Longest (Dep m'.heap b') x k) →
            calls.length ≤ 8) := by
  obtain ⟨b', hok, hn⟩ := run_named hm hssa.distinct hrun
  obtain ⟨tag, hmain⟩ := hok.node
  obtain ⟨graph, hgraph, -⟩ := buildGraph_spec hok.main hmain hn hssa.noUnderscore
  obtain ⟨levels, n, hsolve, hl, hall⟩ := solve_spec hok.main hmain hn hssa.noUnderscore
  obtain ⟨streams, hgen, hlen⟩ := generateCodegenStreamlist_length levels hgraph
  refine ⟨b', tag, hmain, levels, streams, hsolve, hgen, ?_⟩
  have hbounds : (streams.length ≤ threadsLength ∧
      (∀ index ∈ pthreadCreate streams, index < threadsLength) ∧
      (∀ index ∈ pthreadJoin streams, index < threadsLength)) ↔
        ∀ l ∈ levels, l.length ≤ threadsLength := by
    have hindex : streams.length ≤ threadsLength →
        ∀ index ∈ pthreadCreate streams, index < threadsLength := by
      intro hle index hindex
      rw [pthreadCreate_eq_range, List.mem_range] at hindex
      omega
    have hwide : streams.length ≤ threadsLength ↔ ∀ l ∈ levels, l.length ≤ threadsLength := by
      rw [hlen, maxStreamNumber_le_iff]
      exact ⟨And.right, fun hl => ⟨by decide, hl⟩⟩
    rw [← hwide]
    exact ⟨And.left, fun hle => ⟨hle, hindex hle, hindex hle⟩⟩
  rw [hbounds]
  constructor
  · intro hwidth k calls hnodup hcalls
    by_cases hnone : calls = []
    · simp [hnone]
    · obtain ⟨x, hx⟩ := List.exists_mem_of_ne_nil calls hnone
      -- the level of one of the calls holds them all
      obtain ⟨level, hlevel, hxl⟩ := List.mem_flatten.mp ((hall x).mpr (hcalls x hx).1)
      obtain ⟨j, hj⟩ := List.mem_iff_getElem?.mp hlevel
      obtain rfl := ((hl.level j level hj x).mp hxl).2.unique (hcalls x hx).2
      have hsub : calls ⊆ level := fun y hy => (hl.level j level hj y).mpr (hcalls y hy)
      exact (hnodup.subperm hsub).length_le.trans (hwidth level hlevel)
  · intro hcond level hlevel
    obtain ⟨j, hj⟩ := List.mem_iff_getElem?.mp hlevel
    apply hcond j level
    · exact (List.nodup_flatten.mp hl.nodup).1 level hlevel
    · intro x hx
      exact (hl.level j level hj x).mp hx

/-- A program of nine stencils that all read the one input. -/
def wideModule : Module :=
  ⟨[.var "in", .call (.op "1" 1) [0], .call (.op "2" 1) [0], .call (.op "3" 1) [0],
    .call (.op "4" 1) [0], .call (.op "5" 1) [0], .call (.op "6" 1) [0], .call (.op "7" 1) [0],
    .call (.op "8" 1) [0], .call (.op "9" 1) [0], .tuple [1, 2, 3, 4, 5, 6, 7, 8, 9],
    .function [0] 10 []], 11⟩

theorem wideModule_calls (x : Nat) (h1 : 1 ≤ x) (h9 : x ≤ 9) :
    wideModule.heap[x]? = some (.call (.op (toString x) 1) [0]) := by
  have hall : ∀ x < 10, 1 ≤ x → wideModule.heap[x]? = some (.call (.op (toString x) 1) [0]) := by
    decide
  exact hall x (by omega) h1

theorem wideModule_stencil : wideModule.Stencil [0] 10 := by
  have h0 : Typed wideModule.heap noCall (IsCall wideModule.heap) [0] 0 :=
    .var 0 "in" rfl (by simp)
  have hcall (x : Nat) (h1 : 1 ≤ x) (h9 : x ≤ 9) :
      Typed wideModule.heap noCall (IsCall wideModule.heap) [0] x :=
    .op x (toString x) 1 [0] (wideModule_calls x h1 h9) (by simpa using h0) (by decide)
  have htensor : ∀ a ∈ [1, 2, 3, 4, 5, 6, 7, 8, 9], typeOf wideModule.heap a = .tensor := by decide
  have hrange : ∀ a ∈ [1, 2, 3, 4, 5, 6, 7, 8, 9], 1 ≤ a ∧ a ≤ 9 := by decide
  refine ⟨?_, ⟨[], rfl⟩, by decide, ?_, .tuple 10 _ rfl (fun a ha => ?_) htensor, Or.inr ⟨_, rfl⟩⟩
  · have hwf : ∀ x < 12, ∀ n ∈ wideModule.heap[x]?, ∀ y ∈ n.refs, y < x := by decide
    exact fun x n hx => hwf x (lt_of_get hx) n hx
  · intro p hp
    obtain rfl : p = 0 := by simpa using hp
    exact ⟨"in", rfl⟩
  · exact hcall a (hrange a ha).1 (hrange a ha).2

theorem wideModule_ssaNames : SsaNames wideModule.heap 10 := by
  have hname {x : Nat} {name : String} (hx : OpCall wideModule.heap x name) :
      x < 12 ∧ name = toString x := by
    obtain ⟨outputs, args, hget⟩ := hx
    have htag : GroupOp.tagNames wideModule.heap x = some [name] := by
      simp [GroupOp.tagNames, hget]
    have hall : ∀ x < 12, GroupOp.tagNames wideModule.heap x = none ∨
        GroupOp.tagNames wideModule.heap x = some [toString x] := by decide
    have hlt := lt_of_get hget
    cases hall x hlt with
    | inl hno => cases htag.symm.trans hno
    | inr hs => exact ⟨hlt, by simpa using htag.symm.trans hs⟩
  constructor
  · intro x y name _ _ hx hy
    have heq := (hname hx).2.symm.trans (hname hy).2
    have hinj : ∀ x < 12, ∀ y < 12, toString x = toString y → x = y := by decide
    exact hinj x (hname hx).1 y (hname hy).1 heq
  · intro name hname'
    obtain ⟨x, -, hx⟩ := hname'
    rw [(hname hx).2]
    exact noUnderscore_number x

/-- Nine streams are started on eight threads. -/
theorem wideModule_overflows : wideModule.Stencil [0] 10 ∧ SsaNames wideModule.heap 10 ∧
    ∃ levels streams, solve 13 wideModule.heap wideModule.main = some levels ∧
      generateCodegenStreamlist wideModule.heap wideModule.main levels = some streams ∧
      ¬ streams.length ≤ threadsLength ∧ ∃ index ∈ pthreadCreate streams, ¬ index < threadsLength := by
  refine ⟨wideModule_stencil, wideModule_ssaNames, [[1, 2, 3, 4, 5, 6, 7, 8, 9]],
    (List.range 9).map fun i => [.call (i + 1)], by decide, by decide, by decide, 8, by decide,
    by decide⟩

theorem thread_indices_in_bounds_sample : ∃ m' levels streams, FusionStep sampleModule m' ∧
    solve (m'.heap.length + 1) m'.heap m'.main = some levels ∧
    generateCodegenStreamlist m'.heap m'.main levels = some streams := by
  obtain ⟨m', hstep⟩ := sampleModule_step
  obtain ⟨b', tag, -, levels, streams, hsolve, hgen, -⟩ :=
    thread_indices_in_bounds_iff sampleModule_stencil sampleModule_ssaNames (.single hstep)
  exact ⟨m', levels, streams, hstep, hsolve _ (Nat.lt_succ_self _), hgen⟩

end StencilGraph.Stream

import StencilGraph.Framework.Layers
import StencilGraph.Relay.Exclusion
import StencilGraph.Stream.CallNodes

namespace StencilGraph.Stream
open Framework Relay Relation NodeAutoFusion

namespace StreamSolver

variable {h : Heap} {ps l : List Nat} {b x y d k : Nat} {tag : List String}

section Graph

variable (hm : Main h ps b) (hl : ∀ x, x ∈ l ↔ TopCall h b x)

include hm

theorem isStencilNode_top (hx : TopCall h b x) : isStencilNode h x = true := by
  obtain ⟨⟨callee, args, hget⟩, hr⟩ := hx
  cases callee with
  | op name outputs => simp [isStencilNode, hget]
  | func f =>
    obtain ⟨qs, bd, ftag, hok⟩ := ((hm.typed hr).call hget).1 f rfl
    simp only [isStencilNode, opTag, hget, hok.node]
    exact decide_eq_true (fuseTagText_has_fuse ftag)

include hl

/-- The inputs of a node are the calls it depends on. -/
theorem mem_inputs_iff_dep (hx : TopCall h b x) : d ∈ inputs h l x ↔ Dep h b d x := by
  rw [← mem_inputs_iff hm hx]
  unfold inputs NodeAutoFusion.inputs
  rw [List.mem_dedup, List.mem_filterMap, List.mem_filterMap]
  refine exists_congr fun y => and_congr_right fun hy => ?_
  have hreach : Reach h b y := by
    obtain ⟨⟨callee, args, hget⟩, hr⟩ := hx
    rw [callArgs_call hget] at hy
    exact hr.tail ⟨_, hget, hy⟩
  have hnot (hno : ¬ IsCall h y) : y ∉ l := fun hyl => hno ((hl y).mp hyl).1
  rcases arg_cases hm hx.2 hx.1 hy with ⟨name, hv⟩ | ⟨callee, args, hc⟩ | ⟨t, k, hi, -⟩
  · have hyl := hnot (by rintro ⟨callee, args, hc⟩; cases hv.symm.trans hc)
    simp [source, hv, hyl]
  · have hyl : y ∈ l := (hl y).mpr ⟨⟨callee, args, hc⟩, hreach⟩
    simp [source, hc, hyl]
  · have hyl := hnot (by rintro ⟨callee, args, hc⟩; cases hi.symm.trans hc)
    simp [source, hi, hyl]

theorem mem_findFather (hx : TopCall h b x) :
    y ∈ findAll (inputs h l) h.length x ↔ TransGen (Dep h b) y x := by
  rw [mem_findAll (D := TopCall h b) (R := Function.swap (Dep h b)) (μ := id)
    (fun x hx y => mem_inputs_iff_dep hm hl hx) (fun x y hx hxy => ⟨hxy.1, hxy.lt hm⟩) _ x hx
    (hm.typed hx.2).lt, transGen_swap]

end Graph

/-- The graph after `k` rounds: the calls with a path of `k` edges below them. -/
structure Remaining (h : Heap) (b k : Nat) (g : DepenceGraph) : Prop where
  nodup : (g.map Prod.fst).Nodup
  mem : ∀ x, x ∈ g.map Prod.fst ↔ TopCall h b x ∧ PathTo (Dep h b) k x
  input : ∀ e ∈ g, ∀ y, y ∈ e.2.input ↔ TransGen (Dep h b) y e.1 ∧ PathTo (Dep h b) k y

theorem transGen_top (hyx : TransGen (Dep h b) y x) : TopCall h b y := by
  obtain ⟨z, hyz, -⟩ := TransGen.head'_iff.mp hyx
  exact hyz.1

/-- One round takes the calls whose longest path has `k` edges. -/
theorem findMaxForThisLevel_spec (hm : Main h ps b) {g : DepenceGraph} (hg : Remaining h b k g) :
    (findMaxForThisLevel h g).1.Nodup ∧
      (∀ x, x ∈ (findMaxForThisLevel h g).1 ↔ TopCall h b x ∧ Longest (Dep h b) x k) ∧
      Remaining h b (k + 1) (findMaxForThisLevel h g).2 := by
  have htop {e : Nat × Depence} (he : e ∈ g) := (hg.mem e.1).mp (List.mem_map_of_mem he)
  -- a call is taken when nothing is left that it depends on
  have htaken {e : Nat × Depence} (he : e ∈ g) :
      ((isStencilNode h e.1 && e.2.input.all fun element => !isStencilNode h element) = true) ↔
        ¬ PathTo (Dep h b) (k + 1) e.1 := by
    rw [isStencilNode_top hm (htop he).1, Bool.true_and, List.all_eq_true, pathTo_succ_iff]
    constructor
    · intro hall ⟨y, hy, hpath⟩
      have hno := hall y ((hg.input e he y).mpr ⟨hy, hpath⟩)
      rw [isStencilNode_top hm (transGen_top hy)] at hno
      cases hno
    · intro hno y hy
      exact absurd ⟨y, (hg.input e he y).mp hy⟩ hno
  have hlevel (x : Nat) : x ∈ (findMaxForThisLevel h g).1 ↔
      TopCall h b x ∧ Longest (Dep h b) x k := by
    unfold findMaxForThisLevel
    rw [List.mem_map, longest_iff]
    constructor
    · intro ⟨e, he, hex⟩
      obtain ⟨heg, hq⟩ := List.mem_filter.mp he
      rw [← hex]
      exact ⟨(htop heg).1, (htop heg).2, (htaken heg).mp hq⟩
    · intro ⟨hx, hpath, hno⟩
      obtain ⟨e, he, rfl⟩ := List.mem_map.mp ((hg.mem x).mpr ⟨hx, hpath⟩)
      exact ⟨e, List.mem_filter.mpr ⟨he, (htaken he).mpr hno⟩, rfl⟩
  have hleft {x : Nat} (hx : TopCall h b x) (hpath : PathTo (Dep h b) k x) :
      x ∉ (findMaxForThisLevel h g).1 ↔ PathTo (Dep h b) (k + 1) x := by
    rw [hlevel, longest_iff]
    constructor
    · intro hno
      by_contra hlong
      exact hno ⟨hx, hpath, hlong⟩
    · intro hlong hno
      exact hno.2.2 hlong
  have hfst : (findMaxForThisLevel h g).2.map Prod.fst =
      (g.filter fun node => node.1 ∉ (findMaxForThisLevel h g).1).map Prod.fst := by
    unfold findMaxForThisLevel
    rw [List.map_map]
    rfl
  refine ⟨(hg.nodup.sublist (List.filter_sublist.map _)), hlevel, ?_, fun x => ?_, fun e he y => ?_⟩
  · rw [hfst]
    exact hg.nodup.sublist (List.filter_sublist.map _)
  · rw [hfst, List.mem_map]
    constructor
    · intro ⟨e, he, hex⟩
      obtain ⟨heg, hq⟩ := List.mem_filter.mp he
      rw [← hex]
      exact ⟨(htop heg).1, (hleft (htop heg).1 (htop heg).2).mp (by simpa using hq)⟩
    · intro ⟨hx, hpath⟩
      obtain ⟨e, he, rfl⟩ := List.mem_map.mp ((hg.mem x).mpr ⟨hx, hpath.pred⟩)
      refine ⟨e, List.mem_filter.mpr ⟨he, ?_⟩, rfl⟩
      simpa using (hleft hx hpath.pred).mpr hpath
  · obtain ⟨e', he', rfl⟩ := List.mem_map.mp he
    have heg := (List.mem_filter.mp he').1
    change y ∈ e'.2.input.filter (· ∉ (findMaxForThisLevel h g).1) ↔ _
    rw [List.mem_filter, hg.input e' heg y]
    constructor
    · intro ⟨⟨hy, hpath⟩, hno⟩
      exact ⟨hy, (hleft (transGen_top hy) hpath).mp (by simpa using hno)⟩
    · intro ⟨hy, hpath⟩
      refine ⟨⟨hy, hpath.pred⟩, ?_⟩
      simpa using (hleft (transGen_top hy) hpath.pred).mpr hpath

theorem pathTo_le (hm : Main h ps b) (hp : PathTo (Dep h b) k x) : k ≤ x := by
  induction hp with
  | single => exact Nat.zero_le _
  | extend hyx _ ih => exact ih.trans_lt (hyx.lt hm)

/-- The levels found in `k` rounds. -/
structure Levels (h : Heap) (b k : Nat) (streamlist : List (List Nat)) : Prop where
  length : streamlist.length = k
  level : ∀ j level, streamlist[j]? = some level →
    ∀ x, x ∈ level ↔ TopCall h b x ∧ Longest (Dep h b) x j
  nodup : streamlist.flatten.Nodup
  mem : ∀ x, x ∈ streamlist.flatten ↔ TopCall h b x ∧ ¬ PathTo (Dep h b) k x

theorem Levels.snoc {streamlist : List (List Nat)} {level : List Nat}
    (hs : Levels h b k streamlist) (hn : level.Nodup)
    (hlevel : ∀ x, x ∈ level ↔ TopCall h b x ∧ Longest (Dep h b) x k) :
    Levels h b (k + 1) (streamlist ++ [level]) := by
  have hflat : (streamlist ++ [level]).flatten = streamlist.flatten ++ level := by simp
  refine ⟨by simp [hs.length], fun j level' hj => ?_, ?_, fun x => ?_⟩
  · by_cases hjk : j < k
    · rw [List.getElem?_append_left (by rw [hs.length]; exact hjk)] at hj
      exact hs.level j level' hj
    · obtain rfl : j = k := by
        have := (List.getElem?_eq_some_iff.mp hj).1
        rw [List.length_append, hs.length, List.length_singleton] at this
        omega
      rw [← hs.length, List.getElem?_concat_length] at hj
      rw [← Option.some.inj hj]
      exact hlevel
  · rw [hflat]
    apply List.Nodup.append hs.nodup hn
    intro x hx hxl
    exact ((hs.mem x).mp hx).2 ((hlevel x).mp hxl).2.path
  · rw [hflat, List.mem_append, hs.mem, hlevel, longest_iff]
    constructor
    · intro hcase
      cases hcase with
      | inl hold => exact ⟨hold.1, fun hlong => hold.2 hlong.pred⟩
      | inr hnew => exact ⟨hnew.1, hnew.2.2⟩
    · intro ⟨hx, hno⟩
      by_cases hpath : PathTo (Dep h b) k x
      · exact Or.inr ⟨hx, hpath, hno⟩
      · exact Or.inl ⟨hx, hpath⟩

section Loop

variable {nodes : List Nat} (hm : Main h ps b) (hnodup : nodes.Nodup)
  (hnodes : ∀ x, x ∈ nodes ↔ TopCall h b x)

include hm hnodup hnodes

theorem solveLoop_spec (fuel : Nat) {streamlist : List (List Nat)} {g : DepenceGraph}
    (hs : Levels h b k streamlist) (hg : Remaining h b k g) (hk : k ≤ h.length)
    (hfuel : h.length < fuel + k) :
    ∃ levels n, solveLoop h nodes.length fuel streamlist g = some levels ∧ Levels h b n levels ∧
      ∀ x, x ∈ levels.flatten ↔ TopCall h b x := by
  induction fuel generalizing k streamlist g with
  | zero => omega
  | succ fuel ih =>
    have hsub : streamlist.flatten ⊆ nodes := fun x hx => (hnodes x).mpr ((hs.mem x).mp hx).1
    unfold solveLoop
    split
    · rename_i hlen
      refine ⟨streamlist, k, rfl, hs, fun x => ?_⟩
      rw [← hnodes]
      exact ((hs.nodup.subperm hsub).perm_of_length_le hlen.ge).mem_iff
    · rename_i hlen
      -- no path is as long as the heap, so a call is left
      have hlt : k < h.length := by
        by_contra hge
        have hall : nodes ⊆ streamlist.flatten := by
          intro x hx
          have htop := (hnodes x).mp hx
          refine (hs.mem x).mpr ⟨htop, fun hp => ?_⟩
          have := pathTo_le hm hp
          have := (hm.typed htop.2).lt
          omega
        exact hlen ((hs.nodup.subperm hsub).antisymm (hnodup.subperm hall)).length_eq
      obtain ⟨hn, hlevel, hg'⟩ := findMaxForThisLevel_spec hm hg
      exact ih (hs.snoc hn hlevel) hg' hlt (by omega)

end Loop

theorem solveLoop_mono {n fuel : Nat} {streamlist levels : List (List Nat)} {g : DepenceGraph}
    (hrun : solveLoop h n fuel streamlist g = some levels) :
    solveLoop h n (fuel + 1) streamlist g = some levels := by
  induction fuel generalizing streamlist g with
  | zero => cases hrun
  | succ fuel ih =>
    unfold solveLoop at hrun ⊢
    split at hrun
    · rename_i hlen
      rw [if_pos hlen]
      exact hrun
    · rename_i hlen
      rw [if_neg hlen]
      exact ih hrun

/-- `build_graph` keeps the calls of `main`. -/
theorem buildGraph_spec {N : String → Prop} {m : Nat} (hm : Main h ps b)
    (hmain : h[m]? = some (.function ps b tag)) (hn : Named h b N)
    (hN : ∀ name, N name → NoUnderscore name) :
    ∃ graph, buildGraph h m = some graph ∧ graph.nodes.Nodup ∧
      (∀ x, x ∈ graph.nodes ↔ TopCall h b x) ∧ graph.input = inputs h graph.nodes := by
  obtain ⟨L, hrun, hL⟩ := GetCallNode.getCallList_collects hm hmain hn
  obtain ⟨hnodup, hmem⟩ := removeFused_spec hm hn hN hL
  have hkeys : ∀ c ∈ removeFused h L.length 0 L, ∀ d ∈ inputs h (removeFused h L.length 0 L) c,
      d ∈ removeFused h L.length 0 L := by
    intro c hc d hd
    exact (hmem d).mpr ((mem_inputs_iff_dep hm hmem ((hmem c).mp hc)).mp hd).1
  have hbuild : buildGraph h m = some ⟨removeFused h L.length 0 L,
      inputs h (removeFused h L.length 0 L), outputs h (removeFused h L.length 0 L)⟩ := by
    simp only [buildGraph, hrun, Option.bind_eq_bind, Option.bind_some]
    exact if_pos hkeys
  exact ⟨_, hbuild, hnodup, hmem, rfl⟩

/-- `solve` ends and gives the levels of the calls of `main`. -/
theorem solve_spec {N : String → Prop} {m : Nat} (hm : Main h ps b)
    (hmain : h[m]? = some (.function ps b tag)) (hn : Named h b N)
    (hN : ∀ name, N name → NoUnderscore name) :
    ∃ levels n, (∀ fuel, h.length < fuel → solve fuel h m = some levels) ∧ Levels h b n levels ∧
      ∀ x, x ∈ levels.flatten ↔ TopCall h b x := by
  obtain ⟨graph, hgraph, hnodup, hmem, hinput⟩ := buildGraph_spec hm hmain hn hN
  have hfst : (buildDepence h graph).map Prod.fst = graph.nodes := by
    simp [buildDepence, Function.comp_def]
  have hg : Remaining h b 0 (buildDepence h graph) := by
    refine ⟨hfst ▸ hnodup, fun x => ?_, fun e he y => ?_⟩
    · rw [hfst, hmem]
      exact ⟨fun hx => ⟨hx, .single x⟩, And.left⟩
    · obtain ⟨node, hnode, rfl⟩ := List.mem_map.mp he
      rw [List.mem_dedup, hinput, mem_findFather hm hmem ((hmem node).mp hnode)]
      exact ⟨fun hy => ⟨hy, .single y⟩, And.left⟩
  have hs : Levels h b 0 [] :=
    ⟨rfl, by simp, List.nodup_nil, fun x => ⟨fun hx => absurd hx List.not_mem_nil,
      fun hx => absurd (.single x) hx.2⟩⟩
  obtain ⟨levels, n, hrun, hlevels, hall⟩ := solveLoop_spec hm hnodup hmem (h.length + 1) hs hg
    (Nat.zero_le _) (by omega)
  refine ⟨levels, n, fun fuel hfuel => ?_, hlevels, hall⟩
  have hmore : solveLoop h graph.nodes.length fuel [] (buildDepence h graph) = some levels := by
    induction fuel, hfuel using Nat.le_induction with
    | base => exact hrun
    | succ fuel _ ih => exact solveLoop_mono ih
  simp only [solve, hgraph, Option.bind_eq_bind, Option.bind_some]
  exact hmore

/-- The stencils of a program are named by SSA values: each value is assigned once, and its name has
no underscore, as the numbers have none. -/
structure SsaNames (h : Heap) (b : Nat) : Prop where
  distinct : DistinctStencils h b
  noUnderscore : ∀ name, StencilName h b name → NoUnderscore name

variable {m m' : Module}

/-- The levels are a schedule of the calls of `main`: each call once, on the level given by the
longest path of dependences that ends in it. -/
theorem levels_are_longest_paths (hm : m.Stencil ps b) (hssa : SsaNames m.heap b)
    (hrun : ReflTransGen FusionStep m m') :
    ∃ b' tag, m'.heap[m'.main]? = some (.function ps b' tag) ∧
      (∃ graph, buildGraph m'.heap m'.main = some graph ∧ graph.nodes.Nodup ∧
        ∀ x, x ∈ graph.nodes ↔ TopCall m'.heap b' x) ∧
      ∃ levels, (∀ fuel, m'.heap.length < fuel → solve fuel m'.heap m'.main = some levels) ∧
        levels.flatten.Nodup ∧ (∀ x, x ∈ levels.flatten ↔ TopCall m'.heap b' x) ∧
        (∀ k level, levels[k]? = some level → ∀ x ∈ level,
          Longest (Dep m'.heap b') x k ∧ ∀ y ∈ level, ¬ TransGen (Dep m'.heap b') x y) ∧
        ∀ k level, levels[k + 1]? = some level → ∀ x ∈ level,
          ∃ before, levels[k]? = some before ∧ ∃ y ∈ before, Dep m'.heap b' y x := by
  obtain ⟨b', hok, hn⟩ := run_named hm hssa.distinct hrun
  obtain ⟨tag, hmain⟩ := hok.node
  obtain ⟨graph, hgraph, hnodup, hnodes, -⟩ := buildGraph_spec hok.main hmain hn hssa.noUnderscore
  obtain ⟨levels, n, hsolve, hl, hall⟩ := solve_spec hok.main hmain hn hssa.noUnderscore
  refine ⟨b', tag, hmain, ⟨graph, hgraph, hnodup, hnodes⟩, levels, hsolve, hl.nodup, hall, ?_, ?_⟩
  · intro k level hk x hx
    have hlong := ((hl.level k level hk x).mp hx).2
    refine ⟨hlong, fun y hy hxy => ?_⟩
    exact absurd (Longest.lt hxy hlong ((hl.level k level hk y).mp hy).2) (lt_irrefl k)
  · intro k level hk x hx
    obtain ⟨y, hyx, hlong⟩ := ((hl.level (k + 1) level hk x).mp hx).2.pred
    have hlt : k < levels.length := by
      have := (List.getElem?_eq_some_iff.mp hk).1
      omega
    obtain ⟨before, hbefore⟩ : ∃ before, levels[k]? = some before :=
      ⟨_, List.getElem?_eq_getElem hlt⟩
    exact ⟨before, hbefore, y, (hl.level k before hbefore y).mpr ⟨hyx.1, hlong⟩, hyx⟩

theorem sampleModule_ssaNames : SsaNames sampleModule.heap 5 := by
  have hname {x : Nat} {name : String} (hx : OpCall sampleModule.heap x name) :
      x = 1 ∧ name = "s1" ∨ x = 3 ∧ name = "s2" := by
    obtain ⟨outputs, args, hget⟩ := hx
    have htag : GroupOp.tagNames sampleModule.heap x = some [name] := by
      simp [GroupOp.tagNames, hget]
    have hall : ∀ x < 7, GroupOp.tagNames sampleModule.heap x = none ∨
        x = 1 ∧ GroupOp.tagNames sampleModule.heap x = some ["s1"] ∨
        x = 3 ∧ GroupOp.tagNames sampleModule.heap x = some ["s2"] := by decide
    rcases hall x (lt_of_get hget) with hno | ⟨hx, hs⟩ | ⟨hx, hs⟩
    · cases htag.symm.trans hno
    · exact Or.inl ⟨hx, by simpa using htag.symm.trans hs⟩
    · exact Or.inr ⟨hx, by simpa using htag.symm.trans hs⟩
  constructor
  · intro x y name _ _ hx hy
    rcases hname hx with ⟨rfl, rfl⟩ | ⟨rfl, rfl⟩ <;> rcases hname hy with ⟨rfl, heq⟩ | ⟨rfl, heq⟩
    · rfl
    · exact absurd heq (by decide)
    · exact absurd heq (by decide)
    · rfl
  · intro name hname'
    obtain ⟨x, -, hx⟩ := hname'
    unfold NoUnderscore
    rcases hname hx with ⟨-, rfl⟩ | ⟨-, rfl⟩ <;> decide

theorem levels_are_longest_paths_sample :
    solve 8 sampleModule.heap sampleModule.main = some [[1], [3]] ∧
      ∃ m', FusionStep sampleModule m' ∧ ∃ levels,
        solve (m'.heap.length + 1) m'.heap m'.main = some levels ∧ levels.flatten.Nodup := by
  obtain ⟨m', hstep⟩ := sampleModule_step
  obtain ⟨b', tag, -, -, levels, hsolve, hnodup, -⟩ :=
    levels_are_longest_paths sampleModule_stencil sampleModule_ssaNames (.single hstep)
  exact ⟨by decide, m', hstep, levels, hsolve _ (Nat.lt_succ_self _), hnodup⟩

end StreamSolver

end StencilGraph.Stream

import Mathlib.Data.List.Perm.Subperm
import StencilGraph.Relay.CallGraph

namespace StencilGraph.Relay
open Framework Relation

namespace BuildGraph

variable {graph : List (Nat × List Nat)} {sorted : List Nat}

theorem topoRound_cons (node : Nat) (depend : List Nat) (graph : List (Nat × List Nat))
    (sorted : List Nat) : topoRound ((node, depend) :: graph) sorted = topoRound graph
      (if node ∉ sorted ∧ ∀ d ∈ depend, d ∈ sorted then sorted ++ [node] else sorted) := rfl

/-- What one pass over the dependence graph adds. -/
theorem topoRound_spec (hn : sorted.Nodup) (graph : List (Nat × List Nat)) :
    (topoRound graph sorted).Nodup ∧ sorted <+: topoRound graph sorted ∧
      (∀ x ∈ topoRound graph sorted, x ∈ sorted ∨ x ∈ graph.map Prod.fst) ∧
      ∀ e ∈ graph, (∀ d ∈ e.2, d ∈ sorted) → e.1 ∈ topoRound graph sorted := by
  induction graph generalizing sorted with
  | nil => exact ⟨hn, List.prefix_refl _, fun _ hx => Or.inl hx, by simp⟩
  | cons e graph ih =>
    obtain ⟨node, depend⟩ := e
    rw [topoRound_cons]
    by_cases hadd : node ∉ sorted ∧ ∀ d ∈ depend, d ∈ sorted
    · rw [if_pos hadd]
      obtain ⟨h1, h2, h3, h4⟩ := ih (List.Nodup.append hn (List.nodup_singleton node)
        (by simpa using hadd.1))
      refine ⟨h1, (List.prefix_append _ _).trans h2, fun x hx => ?_, fun e he hd => ?_⟩
      · rcases h3 x hx with hx | hx
        · rcases List.mem_append.mp hx with hx | hx
          · exact Or.inl hx
          · exact Or.inr (by simp at hx; simp [hx])
        · exact Or.inr (by simp at hx ⊢; exact Or.inr hx)
      · rcases List.mem_cons.mp he with rfl | he
        · exact h2.subset (by simp)
        · exact h4 e he fun d hd' => List.mem_append_left _ (hd d hd')
    · rw [if_neg hadd]
      obtain ⟨h1, h2, h3, h4⟩ := ih hn
      refine ⟨h1, h2, fun x hx => (h3 x hx).imp id (fun hx => by simp at hx ⊢; exact Or.inr hx),
        fun e he hd => ?_⟩
      rcases List.mem_cons.mp he with rfl | he
      · by_cases hmem : node ∈ sorted
        · exact h2.subset hmem
        · exact absurd ⟨hmem, hd⟩ hadd
      · exact h4 e he hd

/-- A pass finds the next node of a graph whose dependences go to smaller nodes. -/
theorem topoRound_grows (hn : sorted.Nodup) (hnodes : (graph.map Prod.fst).Nodup)
    (hdep : ∀ e ∈ graph, ∀ d ∈ e.2, d < e.1 ∧ d ∈ graph.map Prod.fst)
    (hlt : sorted.length < graph.length) : sorted.length < (topoRound graph sorted).length := by
  have hmissing : ∃ e ∈ graph, e.1 ∉ sorted := by
    by_contra hall
    push Not at hall
    have hsub : graph.map Prod.fst ⊆ sorted := by
      intro x hx
      obtain ⟨e, he, rfl⟩ := List.mem_map.mp hx
      exact hall e he
    have := (hnodes.subperm hsub).length_le
    simp only [List.length_map] at this
    omega
  -- the smallest missing node has all its dependences
  obtain ⟨e, he, hes, hmin⟩ : ∃ e ∈ graph, e.1 ∉ sorted ∧ ∀ d ∈ e.2, d ∈ sorted := by
    obtain ⟨e, he, hes⟩ := hmissing
    induction hk : e.1 using Nat.strong_induction_on generalizing e with
    | _ k ih =>
      by_cases hall : ∀ d ∈ e.2, d ∈ sorted
      · exact ⟨e, he, hes, hall⟩
      · push Not at hall
        obtain ⟨d, hd, hds⟩ := hall
        obtain ⟨hlt, hmem⟩ := hdep e he d hd
        obtain ⟨e', he', rfl⟩ := List.mem_map.mp hmem
        exact ih e'.1 (by omega) e' he' hds rfl
  obtain ⟨-, hpre, -, hadd⟩ := topoRound_spec hn graph
  rcases hpre.length_le.lt_or_eq with hlt' | heq
  · exact hlt'
  · have hsame := hpre.eq_of_length heq
    exact absurd (hsame ▸ hadd e he hmin) hes

theorem topoSort_spec (hnodes : (graph.map Prod.fst).Nodup)
    (hdep : ∀ e ∈ graph, ∀ d ∈ e.2, d < e.1 ∧ d ∈ graph.map Prod.fst) (fuel : Nat)
    (hn : sorted.Nodup) (hsub : ∀ x ∈ sorted, x ∈ graph.map Prod.fst)
    (hfuel : graph.length ≤ sorted.length + fuel) :
    ∃ result, topoSort graph fuel sorted = some result ∧ result.Nodup ∧
      ∀ x, x ∈ result ↔ x ∈ graph.map Prod.fst := by
  have hdone {sorted : List Nat} (hn : sorted.Nodup) (hsub : ∀ x ∈ sorted, x ∈ graph.map Prod.fst)
      (hlt : ¬ sorted.length < graph.length) (x : Nat) : x ∈ sorted ↔ x ∈ graph.map Prod.fst := by
    have hsp := hn.subperm (show sorted ⊆ graph.map Prod.fst from hsub)
    exact (hsp.perm_of_length_le (by simp only [List.length_map]; omega)).mem_iff
  induction fuel generalizing sorted with
  | zero =>
    have hlt : ¬ sorted.length < graph.length := by omega
    exact ⟨sorted, by simp [topoSort, hlt], hn, hdone hn hsub hlt⟩
  | succ fuel ih =>
    by_cases hlt : sorted.length < graph.length
    · obtain ⟨h1, -, h3, -⟩ := topoRound_spec hn graph
      have hgrow := topoRound_grows hn hnodes hdep hlt
      obtain ⟨result, hrun, hres⟩ := ih h1 (fun x hx => (h3 x hx).elim (hsub x) id) (by omega)
      exact ⟨result, by simp [topoSort, hlt, hrun], hres⟩
    · exact ⟨sorted, by simp [topoSort, hlt], hn, hdone hn hsub hlt⟩

end BuildGraph

variable {h : Heap} {ps L : List Nat} {b m x y d : Nat} {tag : List String}

open BuildGraph

/-- What `BuildGraph` has seen: the calls among the opened and the finished objects. -/
structure Seen (h : Heap) (ps : List Nat) (b m : Nat) (opened memo callList : List Nat) : Prop where
  nodup : callList.Nodup
  calls : ∀ x, x ∈ callList ↔ IsCall h x ∧ (x ∈ opened ∨ x ∈ memo)
  below : ∀ x, x ∈ opened ∨ x ∈ memo → x = m ∨ x ∈ ps ∨ Reach h b x
  closed : ∀ x ∈ memo, ∀ y ∈ children h x, y ∈ memo

theorem children_main (hmain : h[m]? = some (.function ps b tag)) : children h m = ps ++ [b] := by
  simp [children, hmain]

theorem children_expr (hm : Main h ps b) (hx : x ∈ ps ∨ Reach h b x) {n : Node}
    (hn : h[x]? = some n) : children h x = n.deps := by
  have hnf : ∀ qs b tag, n ≠ .function qs b tag := by
    rcases hx with hx | hx
    · obtain ⟨name, hv⟩ := hm.vars x hx
      obtain rfl := Option.some.inj (hv.symm.trans hn)
      simp
    · obtain ⟨n', hn', hnf⟩ := (hm.typed hx).not_function
      obtain rfl := Option.some.inj (hn'.symm.trans hn)
      exact hnf
  unfold children
  rw [hn]
  cases n with
  | function qs b tag => exact absurd rfl (hnf qs b tag)
  | _ => rfl

theorem seen_invariant (hm : Main h ps b) (hmain : h[m]? = some (.function ps b tag)) :
    (visitor h).Invariant [m] False (Seen h ps b m) := by
  constructor
  · intro i opened memo s hs him hopen hi
    have hio : i ∉ opened := fun ho => absurd (hopen i ho) (lt_irrefl i)
    have hbelow : i = m ∨ i ∈ ps ∨ Reach h b i := by
      rcases hi with hi | ⟨o, ho, hc⟩
      · exact Or.inl (by simpa using hi)
      · change i ∈ children h o at hc
        rcases hs.below o (Or.inl ho) with rfl | hexpr
        · rw [children_main hmain] at hc
          rcases List.mem_append.mp hc with hc | hc
          · exact Or.inr (Or.inl hc)
          · obtain rfl : i = b := by simpa using hc
            exact Or.inr (Or.inr ReflTransGen.refl)
        · cases hn : h[o]? with
          | none => simp [children, hn] at hc
          | some n =>
            rw [children_expr hm hexpr hn] at hc
            rcases hexpr with hp | hr
            · obtain ⟨name, hv⟩ := hm.vars o hp
              obtain rfl := Option.some.inj (hv.symm.trans hn)
              simp [Node.deps] at hc
            · exact Or.inr (Or.inr (hr.tail ⟨n, hn, hc⟩))
    have hnew : i ∉ s := by
      intro his
      rcases (hs.calls i).mp his with ⟨-, h1 | h1⟩
      · exact hio h1
      · exact him h1
    change Seen h ps b m (i :: opened) memo (if isCall h i then s ++ [i] else s)
    refine ⟨?_, fun x => ?_, fun x hx => ?_, hs.closed⟩
    · split
      · exact List.Nodup.append hs.nodup (List.nodup_singleton i) (by simpa using hnew)
      · exact hs.nodup
    · have hci := isCall_iff (h := h) (x := i)
      split
      · rename_i hc
        rw [List.mem_append, hs.calls, List.mem_singleton, List.mem_cons]
        constructor
        · rintro (⟨h1, h2⟩ | rfl)
          · exact ⟨h1, h2.imp Or.inr id⟩
          · exact ⟨hci.mp hc, Or.inl (Or.inl rfl)⟩
        · rintro ⟨h1, (rfl | h2) | h2⟩
          · exact Or.inr rfl
          · exact Or.inl ⟨h1, Or.inl h2⟩
          · exact Or.inl ⟨h1, Or.inr h2⟩
      · rename_i hc
        rw [hs.calls, List.mem_cons]
        constructor
        · rintro ⟨h1, h2⟩
          exact ⟨h1, h2.imp Or.inr id⟩
        · rintro ⟨h1, (rfl | h2) | h2⟩
          · exact absurd (hci.mpr h1) hc
          · exact ⟨h1, Or.inl h2⟩
          · exact ⟨h1, Or.inr h2⟩
    · rcases hx with hx | hx
      · rcases List.mem_cons.mp hx with rfl | hx
        · exact hbelow
        · exact hs.below x (Or.inl hx)
      · exact hs.below x (Or.inr hx)
  · intro i opened memo s hs him hch
    change Seen h ps b m opened (i :: memo) s
    refine ⟨hs.nodup, fun x => ?_, fun x hx => ?_, fun x hx y hy => ?_⟩
    · rw [hs.calls]
      simp only [List.mem_cons]
      tauto
    · refine hs.below x ?_
      simp only [List.mem_cons] at hx ⊢
      tauto
    · rcases List.mem_cons.mp hx with rfl | hx
      · exact List.mem_cons_of_mem _ (hch y hy)
      · exact List.mem_cons_of_mem _ (hs.closed x hx y hy)

theorem mem_depends (hm : Main h ps b) (hx : TopCall h b x) :
    d ∈ depends h x ↔ Dep h b d x := by
  rw [← mem_inputs_iff hm hx]
  unfold depends NodeAutoFusion.inputs
  rw [List.mem_dedup, List.mem_filterMap, List.mem_filterMap]
  refine exists_congr fun y => and_congr_right fun hy => ?_
  unfold NodeAutoFusion.source
  rcases arg_cases hm hx.2 hx.1 hy with ⟨name, hv⟩ | ⟨c, args, hc⟩ | ⟨t, k, hi, c, args, ht⟩
  · simp [hv]
  · simp [hc]
  · have hstrip (n : Nat) : stripItems h n t = t := by
      cases n with
      | zero => rfl
      | succ n => simp [stripItems, ht]
    simp [hi, hstrip]

/-- The visitor collects every call of `main` once. -/
theorem visit_calls (hm : Main h ps b) (hmain : h[m]? = some (.function ps b tag)) :
    ∃ memo callList, (visitor h).visit (m + 1) m ([], []) = some (memo, callList) ∧ callList.Nodup ∧
      ∀ x, x ∈ callList ↔ TopCall h b x := by
  have hchildren : ∀ i, ∀ c ∈ (visitor h).children i, c < i := by
    intro i c hc
    change c ∈ children h i at hc
    cases hn : h[i]? with
    | none => simp [children, hn] at hc
    | some n =>
      refine hm.wf i n hn c ?_
      cases n with
      | function qs b tag => simpa [children, hn, Node.refs] using hc
      | _ =>
        refine deps_subset_refs ?_
        simpa [children, hn] using hc
  obtain ⟨⟨memo, callList⟩, hrun, hs, hdone, -, -⟩ := (Visitor.visit_finished hchildren
    (seen_invariant hm hmain) (m + 1) m [] [] [] (by omega) (by simp) (Or.inl (by simp))
    ⟨List.nodup_nil, by simp, by simp, by simp⟩).exists
  simp only at hs hdone
  have hmm : m ∈ memo := hdone m (by simp)
  have hbm : b ∈ memo := hs.closed m hmm b (by simp [children_main hmain])
  have hreach {x : Nat} (hx : Reach h b x) : x ∈ memo := by
    induction hx with
    | refl => exact hbm
    | tail hz hd ih =>
      obtain ⟨n, hn, hy⟩ := hd
      exact hs.closed _ ih _ (by rw [children_expr hm (Or.inr hz) hn]; exact hy)
  refine ⟨memo, callList, hrun, hs.nodup, fun x => ?_⟩
  rw [hs.calls]
  constructor
  · rintro ⟨hc, hx⟩
    refine ⟨hc, ?_⟩
    obtain ⟨c, args, hget⟩ := hc
    rcases hs.below x hx with rfl | hp | hr
    · simp [hmain] at hget
    · obtain ⟨name, hv⟩ := hm.vars x hp
      simp [hget] at hv
    · exact hr
  · rintro ⟨hc, hr⟩
    exact ⟨hc, Or.inr (hreach hr)⟩

/-- The sort of the calls of `main` ends. -/
theorem sort_calls {callList : List Nat} (hm : Main h ps b) (hn : callList.Nodup)
    (hcalls : ∀ x, x ∈ callList ↔ TopCall h b x) :
    ∃ L, topoSort (callList.map fun call => (call, depends h call))
        (callList.map fun call => (call, depends h call)).length [] = some L ∧
      L.Nodup ∧ ∀ x, x ∈ L ↔ x ∈ callList := by
  have hfst : (callList.map fun call => (call, depends h call)).map Prod.fst = callList := by
    simp [Function.comp_def]
  obtain ⟨L, hsort, hnodup, hmem⟩ := topoSort_spec
    (by rw [hfst]; exact hn)
    (by
      intro e he d hd
      obtain ⟨c, hc, rfl⟩ := List.mem_map.mp he
      have hdep := (mem_depends hm ((hcalls c).mp hc)).mp hd
      rw [hfst, hcalls]
      exact ⟨hdep.lt hm, hdep.1⟩)
    (callList.map fun call => (call, depends h call)).length List.nodup_nil (by simp) (by simp)
  rw [hfst] at hmem
  exact ⟨L, hsort, hnodup, hmem⟩

/-- `get_call_list` returns every call of `main` once. -/
theorem getCallList_spec (hm : Main h ps b) (hmain : h[m]? = some (.function ps b tag)) :
    ∃ L, getCallList h m = some L ∧ L.Nodup ∧ ∀ x, x ∈ L ↔ TopCall h b x := by
  obtain ⟨memo, callList, hrun, hn, hcalls⟩ := visit_calls hm hmain
  obtain ⟨L, hsort, hnodup, hmem⟩ := sort_calls hm hn hcalls
  refine ⟨L, ?_, hnodup, fun x => (hmem x).trans (hcalls x)⟩
  unfold getCallList
  simp only [hrun, Option.bind_eq_bind, Option.bind_some, hsort]
  exact if_pos ⟨fun c hc => (hmem c).mpr hc, fun c hc => (hmem c).mp hc⟩

end StencilGraph.Relay

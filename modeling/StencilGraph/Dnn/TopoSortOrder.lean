import StencilGraph.Dnn.TopoSort
import StencilGraph.Framework.Contraction

namespace StencilGraph.Dnn
open Framework

section Ordered

variable {deps : Nat → List Nat} {acc : List Nat} {relations : List (Nat × List Nat)}

/-- Every call comes after the calls it depends on. -/
def Ordered (deps : Nat → List Nat) (sorted : List Nat) : Prop :=
  ∀ before c after, sorted = before ++ c :: after → ∀ d ∈ deps c, d ∈ before

/-- What is not open any more is sorted. -/
def Tracks (deps : Nat → List Nat) (acc : List Nat) (relations : List (Nat × List Nat)) : Prop :=
  ∀ entry ∈ relations, ∀ d ∈ deps entry.1, d ∈ entry.2 ∨ d ∈ acc

theorem Ordered.append (h : Ordered deps acc) {nodes : List Nat}
    (hnodes : ∀ c ∈ nodes, ∀ d ∈ deps c, d ∈ acc) : Ordered deps (acc ++ nodes) := by
  intro before c after heq d hd
  cases List.append_eq_append_iff.mp heq with
  | inl hin =>
    obtain ⟨middle, hbefore, hnodes'⟩ := hin
    have hc : c ∈ nodes := by
      rw [hnodes']
      exact List.mem_append_right _ List.mem_cons_self
    rw [hbefore]
    exact List.mem_append_left _ (hnodes c hc d hd)
  | inr hout =>
    obtain ⟨middle, hacc, hrest⟩ := hout
    cases middle with
    | nil =>
      have hc : c ∈ nodes := by
        rw [← List.nil_append nodes, ← hrest]
        exact List.mem_cons_self
      rw [List.append_nil] at hacc
      rw [← hacc]
      exact hnodes c hc d hd
    | cons c' middle =>
      obtain ⟨hcc', -⟩ := List.cons.inj hrest
      rw [← hcc'] at hacc
      exact h before c middle hacc d hd

theorem Tracks.pop (h : Tracks deps acc relations) (node : Nat) :
    Tracks deps (acc ++ [node]) (popNode relations node) := by
  intro entry hentry d hd
  obtain ⟨entry', hentry', rfl⟩ := List.mem_map.mp hentry
  cases h entry' (List.mem_of_mem_filter hentry') d hd with
  | inl hopen =>
    by_cases hdn : d = node
    · rw [hdn]
      exact Or.inr (List.mem_append_right _ (List.mem_singleton.mpr rfl))
    · exact Or.inl ((List.mem_erase_of_ne hdn).mpr hopen)
  | inr hacc => exact Or.inr (List.mem_append_left _ hacc)

theorem Tracks.popAll (h : Tracks deps acc relations) (nodes : List Nat) :
    Tracks deps (acc ++ nodes) (nodes.foldl popNode relations) := by
  induction nodes generalizing acc relations with
  | nil =>
    rw [List.append_nil]
    exact h
  | cons node nodes ih =>
    have hnext := ih (h.pop node)
    rw [List.append_assoc] at hnext
    exact hnext

/-- A call without open dependences depends on sorted calls only. -/
theorem Tracks.addNodes (h : Tracks deps acc relations) :
    ∀ c ∈ addNodes relations, ∀ d ∈ deps c, d ∈ acc := by
  intro c hc d hd
  obtain ⟨entry, hentry, rfl⟩ := List.mem_map.mp hc
  have hnil : entry.2 = [] := by simpa using (List.mem_filter.mp hentry).2
  apply (h entry (List.mem_of_mem_filter hentry) d hd).resolve_left
  rw [hnil]
  exact List.not_mem_nil

theorem topoLoop_ordered (fuel : Nat) (relations : List (Nat × List Nat)) (acc l : List Nat)
    (hordered : Ordered deps acc) (htracks : Tracks deps acc relations)
    (hrun : topoLoop fuel relations acc = some l) : Ordered deps l := by
  induction fuel generalizing relations acc with
  | zero =>
    cases relations with
    | nil =>
      rw [← Option.some.inj hrun]
      exact hordered
    | cons entry relations => cases hrun
  | succ fuel ih =>
    cases relations with
    | nil =>
      rw [← Option.some.inj hrun]
      exact hordered
    | cons entry relations =>
      exact ih _ _ (hordered.append htracks.addNodes) (htracks.popAll _) hrun

end Ordered

variable {args : Nat → List Nat} {fuel : Nat} {group l : List Nat}

theorem sortCalls_ordered (hrun : sortCalls args fuel group = some l) :
    Ordered (dependsOn args group) l := by
  apply topoLoop_ordered fuel _ [] l _ _ hrun
  · intro before c after heq
    cases before <;> cases heq
  · intro entry hentry d hd
    obtain ⟨c, -, rfl⟩ := List.mem_map.mp hentry
    exact Or.inl hd

/-- The calls of `group` are sorted: `topo_sort` ends with all of them, each after the calls of the
group that it takes as arguments. -/
def Sorts (args : Nat → List Nat) (group : List Nat) : Prop :=
  ∃ fuel l, sortCalls args fuel group = some l ∧ l.Perm group ∧ Ordered (dependsOn args group) l

/-- The argument relation restricted to the group. -/
def ArgIn (args : Nat → List Nat) (group : List Nat) (d c : Nat) : Prop :=
  c ∈ group ∧ d ∈ dependsOn args group c

/-- A group without cycles is sorted when no call of it takes the same call of it twice. -/
theorem topo_sort_iff (args : Nat → List Nat) (group : List Nat) (hnodup : group.Nodup)
    (hacyclic : Acyclic (ArgIn args group)) :
    Sorts args group ↔ ∀ c ∈ group, (dependsOn args group c).Nodup := by
  constructor
  · intro hsorts
    obtain ⟨fuel, l, hrun, -, -⟩ := hsorts
    exact nodup_of_sortCalls hnodup hrun
  · intro hdepends
    obtain ⟨rank, hrank⟩ := hacyclic.exists_rank group.toFinset (by
      intro d c hdc
      rw [List.mem_toFinset]
      simpa using (List.mem_filter.mp hdc.2).2)
    obtain ⟨l, hrun⟩ := @sortCalls_total rank args _ _ hnodup hdepends
      (fun c hc d hd => hrank d c ⟨hc, hd⟩) (Nat.le_refl _)
    exact ⟨_, l, hrun, sortCalls_perm hnodup hrun, sortCalls_ordered hrun⟩

theorem acyclic_of_lt (hlt : ∀ d c, ArgIn args group d c → d < c) : Acyclic (ArgIn args group) := by
  have hpath : ∀ d c, Relation.TransGen (ArgIn args group) d c → d < c := by
    intro d c h
    induction h with
    | single h => exact hlt _ _ h
    | tail _ h ih => exact ih.trans (hlt _ _ h)
  intro c hc
  exact absurd (hpath c c hc) (Nat.lt_irrefl c)

/-- Two calls, the second before the first. -/
theorem topo_sort_two :
    Sorts (fun c => if c = 1 then [0, 7] else [7]) [1, 0] ↔
      ∀ c ∈ [1, 0], (dependsOn (fun c => if c = 1 then [0, 7] else [7]) [1, 0] c).Nodup := by
  apply topo_sort_iff _ _ (by decide)
  apply acyclic_of_lt
  intro d c hdc
  cases List.mem_cons.mp hdc.1 with
  | inl hc =>
    rw [hc] at hdc ⊢
    have hd : d ∈ [0] := hdc.2
    rw [List.mem_singleton.mp hd]
    exact Nat.one_pos
  | inr hc =>
    rw [List.mem_singleton.mp hc] at hdc
    exact absurd hdc.2 List.not_mem_nil

/-- A product of a call with itself is never sorted. -/
theorem topo_sort_square :
    [0, 1].Nodup ∧ Acyclic (ArgIn (fun c => if c = 1 then [0, 0] else []) [0, 1]) ∧
      ¬ Sorts (fun c => if c = 1 then [0, 0] else []) [0, 1] := by
  refine ⟨by decide, ?_, ?_⟩
  · apply acyclic_of_lt
    intro d c hdc
    cases List.mem_cons.mp hdc.1 with
    | inl hc =>
      rw [hc] at hdc
      exact absurd hdc.2 List.not_mem_nil
    | inr hc =>
      rw [List.mem_singleton.mp hc] at hdc ⊢
      have hd : d ∈ [0, 0] := hdc.2
      simp only [List.mem_cons, List.not_mem_nil, or_false, or_self] at hd
      rw [hd]
      exact Nat.one_pos
  · intro hsorts
    obtain ⟨fuel, l, hrun, -, -⟩ := hsorts
    have hdepends := nodup_of_sortCalls (by decide) hrun 1 (by decide)
    revert hdepends
    decide

end StencilGraph.Dnn

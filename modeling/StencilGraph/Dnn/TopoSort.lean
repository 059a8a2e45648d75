import Mathlib
import StencilGraph.Dnn.Partition

namespace StencilGraph.Dnn

section Topo

variable {relations : List (Nat × List Nat)}

/-- The calls that are still to be sorted. -/
abbrev keys (relations : List (Nat × List Nat)) : List Nat := relations.map Prod.fst

theorem keys_popNode (relations : List (Nat × List Nat)) (node : Nat) :
    keys (popNode relations node) = (keys relations).filter (· ≠ node) := by
  unfold keys popNode
  rw [List.map_map, List.filter_map]
  rfl

theorem keys_foldl_popNode (nodes : List Nat) (relations : List (Nat × List Nat)) :
    keys (nodes.foldl popNode relations) = (keys relations).filter (· ∉ nodes) := by
  induction nodes generalizing relations with
  | nil => simp
  | cons node nodes ih =>
    rw [List.foldl_cons, ih, keys_popNode, List.filter_filter]
    apply List.filter_congr
    intro k _
    simp [Bool.and_comm]

theorem addNodes_sublist (relations : List (Nat × List Nat)) :
    (addNodes relations).Sublist (keys relations) :=
  List.filter_sublist.map Prod.fst

/-- A round moves the calls without open dependences to the sorted ones. -/
theorem round_perm (hnodup : (keys relations).Nodup) :
    (addNodes relations ++ keys ((addNodes relations).foldl popNode relations)).Perm
      (keys relations) := by
  rw [keys_foldl_popNode]
  have hsub := addNodes_sublist relations
  apply (List.perm_ext_iff_of_nodup _ hnodup).mpr
  · intro k
    rw [List.mem_append, List.mem_filter]
    constructor
    · intro h
      cases h with
      | inl h => exact hsub.subset h
      | inr h => exact h.1
    · intro h
      by_cases hk : k ∈ addNodes relations
      · exact Or.inl hk
      · exact Or.inr ⟨h, by simpa using hk⟩
  · apply List.Nodup.append (hsub.nodup hnodup) (hnodup.filter _)
    intro k hk hk'
    simp only [List.mem_filter, decide_eq_true_eq] at hk'
    exact hk'.2 hk

theorem topoLoop_perm (fuel : Nat) (relations : List (Nat × List Nat)) (acc l : List Nat)
    (hnodup : (keys relations).Nodup) (hrun : topoLoop fuel relations acc = some l) :
    l.Perm (acc ++ keys relations) := by
  induction fuel generalizing relations acc with
  | zero =>
    cases relations with
    | nil =>
      obtain rfl := Option.some.inj hrun
      simp
    | cons entry relations => cases hrun
  | succ fuel ih =>
    cases relations with
    | nil =>
      obtain rfl := Option.some.inj hrun
      simp
    | cons entry relations =>
      have hperm := round_perm hnodup
      have hnodup' : (keys ((addNodes (entry :: relations)).foldl popNode (entry :: relations))).Nodup := by
        rw [keys_foldl_popNode]
        exact hnodup.filter _
      apply (ih _ _ hnodup' hrun).trans
      rw [List.append_assoc]
      exact hperm.append_left acc

/-- An entry that is never freed: a dependence in it occurs twice, or on a call that is not there. -/
def Stuck (relations : List (Nat × List Nat)) : Prop :=
  ∃ entry ∈ relations, ∃ d, 2 ≤ entry.2.count d ∨ (d ∈ entry.2 ∧ d ∉ keys relations)

/-- The call can be popped: it is there and has no open dependence. -/
def Free (relations : List (Nat × List Nat)) (node : Nat) : Prop :=
  node ∈ keys relations ∧ ∀ entry ∈ relations, entry.1 = node → entry.2 = []

theorem Free.pop {node other : Nat} (h : Free relations node) (hne : node ≠ other) :
    Free (popNode relations other) node := by
  obtain ⟨hkey, hfree⟩ := h
  constructor
  · rw [keys_popNode]
    exact List.mem_filter.mpr ⟨hkey, by simpa using hne⟩
  · intro entry hentry heq
    obtain ⟨entry', hentry', rfl⟩ := List.mem_map.mp hentry
    have hnil := hfree entry' (List.mem_of_mem_filter hentry') heq
    show entry'.2.erase other = []
    rw [hnil]
    rfl

theorem free_of_addNodes (hnodup : (keys relations).Nodup) (node : Nat)
    (h : node ∈ addNodes relations) : Free relations node := by
  obtain ⟨entry, hentry, rfl⟩ := List.mem_map.mp h
  have hmem := List.mem_of_mem_filter hentry
  have hnil : entry.2 = [] := by simpa using (List.mem_filter.mp hentry).2
  refine ⟨List.mem_map_of_mem hmem, fun entry' hentry' heq => ?_⟩
  rw [List.inj_on_of_nodup_map hnodup hentry' hmem heq]
  exact hnil

theorem Stuck.pop {node : Nat} (h : Stuck relations) (hfree : Free relations node) :
    Stuck (popNode relations node) := by
  obtain ⟨entry, hentry, d, hd⟩ := h
  have hne : entry.1 ≠ node := by
    intro heq
    rw [hfree.2 entry hentry heq] at hd
    simp at hd
  refine ⟨(entry.1, entry.2.erase node), ?_, d, ?_⟩
  · apply List.mem_map.mpr
    exact ⟨entry, List.mem_filter.mpr ⟨hentry, by simpa using hne⟩, rfl⟩
  · rw [keys_popNode]
    by_cases hdn : d = node
    · rw [hdn] at hd ⊢
      cases hd with
      | inl hcount =>
        right
        constructor
        · apply List.count_pos_iff.mp
          show 0 < (entry.2.erase node).count node
          rw [List.count_erase_self]
          omega
        · simp
      | inr hmem => exact absurd hfree.1 hmem.2
    · cases hd with
      | inl hcount =>
        left
        show 2 ≤ (entry.2.erase node).count d
        rwa [List.count_erase_of_ne hdn]
      | inr hmem =>
        right
        constructor
        · exact (List.mem_erase_of_ne hdn).mpr hmem.1
        · intro hd'
          exact hmem.2 (List.mem_of_mem_filter hd')

theorem Stuck.popAll (nodes : List Nat) (hnodes : nodes.Nodup)
    (hfree : ∀ node ∈ nodes, Free relations node) (h : Stuck relations) :
    Stuck (nodes.foldl popNode relations) := by
  induction nodes generalizing relations with
  | nil => exact h
  | cons node nodes ih =>
    obtain ⟨hnot, hnodes⟩ := List.nodup_cons.mp hnodes
    apply ih hnodes _ (h.pop (hfree node List.mem_cons_self))
    intro other hother
    apply (hfree other (List.mem_cons_of_mem _ hother)).pop
    intro heq
    exact hnot (heq ▸ hother)

/-- Such a group is never sorted. -/
theorem topoLoop_stuck (fuel : Nat) (relations : List (Nat × List Nat)) (acc : List Nat)
    (hnodup : (keys relations).Nodup) (h : Stuck relations) : topoLoop fuel relations acc = none := by
  induction fuel generalizing relations acc with
  | zero =>
    cases relations with
    | nil =>
      obtain ⟨entry, hentry, -⟩ := h
      cases hentry
    | cons entry relations => rfl
  | succ fuel ih =>
    cases relations with
    | nil =>
      obtain ⟨entry, hentry, -⟩ := h
      cases hentry
    | cons entry relations =>
      have hstuck := h.popAll _ ((addNodes_sublist _).nodup hnodup)
        (free_of_addNodes hnodup)
      apply ih _ _ _ hstuck
      rw [keys_foldl_popNode]
      exact hnodup.filter _

/-- Every entry has its open dependences once, and they are calls of lower rank that are still
there. -/
def Sortable (rank : Nat → Nat) (relations : List (Nat × List Nat)) : Prop :=
  ∀ entry ∈ relations, entry.2.Nodup ∧ ∀ d ∈ entry.2, d ∈ keys relations ∧ rank d < rank entry.1

variable {rank : Nat → Nat}

theorem Sortable.pop (h : Sortable rank relations) (node : Nat) :
    Sortable rank (popNode relations node) := by
  intro entry hentry
  obtain ⟨entry', hentry', rfl⟩ := List.mem_map.mp hentry
  obtain ⟨hnodup, hall⟩ := h entry' (List.mem_of_mem_filter hentry')
  refine ⟨hnodup.erase node, fun d hd => ?_⟩
  obtain ⟨hdn, hd⟩ := hnodup.mem_erase_iff.mp hd
  obtain ⟨hkey, hlt⟩ := hall d hd
  refine ⟨?_, hlt⟩
  rw [keys_popNode]
  exact List.mem_filter.mpr ⟨hkey, by simpa using hdn⟩

theorem Sortable.popAll (h : Sortable rank relations) (nodes : List Nat) :
    Sortable rank (nodes.foldl popNode relations) := by
  induction nodes generalizing relations with
  | nil => exact h
  | cons node nodes ih => exact ih (h.pop node)

/-- The lowest call that is left has no open dependence. -/
theorem Sortable.addNodes_ne_nil (h : Sortable rank relations) (hne : relations ≠ []) :
    addNodes relations ≠ [] := by
  obtain ⟨entry, hentry, hmin⟩ := Finset.exists_min_image relations.toFinset
    (fun entry => rank entry.1) (List.toFinset_nonempty_iff _ |>.mpr hne)
  rw [List.mem_toFinset] at hentry
  have hnil : entry.2 = [] := by
    apply List.eq_nil_iff_forall_not_mem.mpr
    intro d hd
    obtain ⟨hkey, hlt⟩ := (h entry hentry).2 d hd
    obtain ⟨entry', hentry', rfl⟩ := List.mem_map.mp hkey
    have hle := hmin entry' (List.mem_toFinset.mpr hentry')
    omega
  apply List.ne_nil_of_mem
  exact List.mem_map.mpr ⟨entry, List.mem_filter.mpr ⟨hentry, by simpa using hnil⟩, rfl⟩

theorem topoLoop_total (fuel : Nat) (relations : List (Nat × List Nat)) (acc : List Nat)
    (hnodup : (keys relations).Nodup) (h : Sortable rank relations)
    (hfuel : relations.length ≤ fuel) : ∃ l, topoLoop fuel relations acc = some l := by
  induction fuel generalizing relations acc with
  | zero =>
    have hnil := List.eq_nil_of_length_eq_zero (Nat.le_zero.mp hfuel)
    rw [hnil]
    exact ⟨acc, rfl⟩
  | succ fuel ih =>
    cases relations with
    | nil => exact ⟨acc, rfl⟩
    | cons entry relations =>
      have hperm := (round_perm hnodup).length_eq
      have hpos := List.length_pos_iff.mpr (h.addNodes_ne_nil (List.cons_ne_nil _ _))
      apply ih _ _ _ (h.popAll _)
      · rw [List.length_append, List.length_map, List.length_map] at hperm
        omega
      · rw [keys_foldl_popNode]
        exact hnodup.filter _

theorem topoLoop_mono {fuel fuel' : Nat} (hle : fuel ≤ fuel') (relations : List (Nat × List Nat))
    (acc l : List Nat) (hrun : topoLoop fuel relations acc = some l) :
    topoLoop fuel' relations acc = some l := by
  induction fuel generalizing relations acc fuel' with
  | zero =>
    cases relations with
    | nil =>
      rw [← hrun]
      cases fuel' <;> rfl
    | cons entry relations => cases hrun
  | succ fuel ih =>
    cases relations with
    | nil =>
      rw [← hrun]
      cases fuel' <;> rfl
    | cons entry relations =>
      cases fuel' with
      | zero => omega
      | succ fuel' => exact ih (Nat.le_of_succ_le_succ hle) _ _ hrun

end Topo

section Calls

variable {rank : Nat → Nat} {args : Nat → List Nat} {fuel : Nat} {group l : List Nat}

/-- The calls of the group that a call takes as arguments, once for each argument. -/
def dependsOn (args : Nat → List Nat) (group : List Nat) (c : Nat) : List Nat :=
  (args c).filter (· ∈ group)

/-- `build_depends` for calls with any arguments. -/
def callDepends (args : Nat → List Nat) (callGroup : List Nat) : List (Nat × List Nat) :=
  callGroup.map fun c => (c, dependsOn args callGroup c)

/-- `topo_sort` for calls with any arguments. -/
def sortCalls (args : Nat → List Nat) (fuel : Nat) (callGroup : List Nat) : Option (List Nat) :=
  topoLoop fuel (callDepends args callGroup) []

theorem keys_callDepends (args : Nat → List Nat) (group : List Nat) :
    keys (callDepends args group) = group := by
  simp [keys, callDepends, Function.comp_def]

theorem sortCalls_perm (hnodup : group.Nodup) (hrun : sortCalls args fuel group = some l) :
    l.Perm group := by
  have hkeys := keys_callDepends args group
  have hperm := topoLoop_perm fuel _ [] l (by rw [hkeys]; exact hnodup) hrun
  rw [hkeys] at hperm
  exact hperm

/-- A sorted group has no call that takes the same call for two of its arguments. -/
theorem nodup_of_sortCalls (hnodup : group.Nodup) (hrun : sortCalls args fuel group = some l) :
    ∀ c ∈ group, (dependsOn args group c).Nodup := by
  intro c hc
  by_contra hdup
  obtain ⟨d, hd⟩ : ∃ d, 2 ≤ (dependsOn args group c).count d := by
    by_contra hall
    apply hdup
    apply List.nodup_iff_count_le_one.mpr
    intro d
    by_contra hlt
    exact hall ⟨d, by omega⟩
  have hstuck : Stuck (callDepends args group) :=
    ⟨(c, dependsOn args group c), List.mem_map_of_mem hc, d, Or.inl hd⟩
  have hnone := topoLoop_stuck fuel _ [] (by rw [keys_callDepends]; exact hnodup) hstuck
  rw [sortCalls, hnone] at hrun
  cases hrun

theorem sortCalls_total (hnodup : group.Nodup)
    (hdepends : ∀ c ∈ group, (dependsOn args group c).Nodup)
    (hrank : ∀ c ∈ group, ∀ d ∈ dependsOn args group c, rank d < rank c)
    (hfuel : group.length ≤ fuel) : ∃ l, sortCalls args fuel group = some l := by
  apply topoLoop_total
  · rw [keys_callDepends]
    exact hnodup
  · intro entry hentry
    obtain ⟨c, hc, rfl⟩ := List.mem_map.mp hentry
    refine ⟨hdepends c hc, fun d hd => ⟨?_, hrank c hc d hd⟩⟩
    rw [keys_callDepends]
    simpa using (List.mem_filter.mp hd).2
  · rw [callDepends, List.length_map]
    exact hfuel

end Calls

section Sorted

variable (g : CallGraph)

theorem keys_buildDepends (group : List Nat) : keys (buildDepends g group) = group :=
  keys_callDepends g.args group

theorem topoSort_perm {fuel : Nat} {group l : List Nat} (hnodup : group.Nodup)
    (hrun : topoSort g fuel group = some l) : l.Perm group :=
  sortCalls_perm hnodup hrun

/-- A sorted group has no call that takes the same call for two of its arguments. -/
theorem nodup_of_topoSort {fuel : Nat} {group l : List Nat} (hnodup : group.Nodup)
    (hrun : topoSort g fuel group = some l) : ∀ c ∈ group, (g.dependsIn group c).Nodup :=
  nodup_of_sortCalls hnodup hrun

theorem topoSort_total {fuel : Nat} {group : List Nat} (hnodup : group.Nodup)
    (hdepends : ∀ c ∈ group, (g.dependsIn group c).Nodup) (hfuel : group.length ≤ fuel) :
    ∃ l, topoSort g fuel group = some l := by
  apply @sortCalls_total id g.args _ _ hnodup hdepends _ hfuel
  intro c _ d hd
  exact g.args_lt c d (List.mem_of_mem_filter hd)

end Sorted

section Ancestors

variable (g : CallGraph)

/-- The call `a` is an argument of the call `c`. -/
def CallGraph.Dep (a c : Nat) : Prop := a ∈ g.depends c

/-- An ancestor is reached by arguments. -/
abbrev CallGraph.Ancestor (a c : Nat) : Prop := Relation.TransGen g.Dep a c

theorem dep_lt {a c : Nat} (h : g.Dep a c) : a < c := g.args_lt c a (List.mem_of_mem_filter h)

theorem dep_mem {a c : Nat} (h : g.Dep a c) : a ∈ g.calls := by
  simpa using (List.mem_filter.mp h).2

theorem ancestor_lt {a c : Nat} (h : g.Ancestor a c) : a < c := by
  induction h with
  | single h => exact dep_lt g h
  | tail _ h ih => exact ih.trans (dep_lt g h)

theorem ancestorLoop_spec (fuel : Nat) (unvisited acc r : List Nat)
    (hrun : ancestorLoop g.depends fuel unvisited acc = some r) (x : Nat) :
    x ∈ r ↔ x ∈ acc ∨ ∃ n ∈ unvisited, Relation.ReflTransGen g.Dep x n := by
  induction fuel generalizing unvisited acc with
  | zero =>
    cases unvisited with
    | nil =>
      obtain rfl := Option.some.inj hrun
      simp
    | cons n unvisited => cases hrun
  | succ fuel ih =>
    cases unvisited with
    | nil =>
      obtain rfl := Option.some.inj hrun
      simp
    | cons n unvisited =>
      rw [ih _ _ hrun]
      constructor
      · intro h
        cases h with
        | inl h =>
          cases List.mem_cons.mp h with
          | inl heq =>
            rw [heq]
            exact Or.inr ⟨n, List.mem_cons_self, .refl⟩
          | inr h => exact Or.inl h
        | inr h =>
          obtain ⟨n', hn', hx⟩ := h
          cases List.mem_append.mp hn' with
          | inl h => exact Or.inr ⟨n', List.mem_cons_of_mem _ h, hx⟩
          | inr h => exact Or.inr ⟨n, List.mem_cons_self, hx.tail h⟩
      · intro h
        cases h with
        | inl h => exact Or.inl (List.mem_cons_of_mem _ h)
        | inr h =>
          obtain ⟨n', hn', hx⟩ := h
          cases List.mem_cons.mp hn' with
          | inl heq =>
            rw [heq] at hx
            cases Relation.ReflTransGen.cases_tail hx with
            | inl heq =>
              rw [heq]
              exact Or.inl List.mem_cons_self
            | inr htail =>
              obtain ⟨d, hxd, hd⟩ := htail
              exact Or.inr ⟨d, List.mem_append_right _ hd, hxd⟩
          | inr h => exact Or.inr ⟨n', List.mem_append_left _ h, hx⟩

/-- The number of all dependences. -/
def CallGraph.degree : Nat := (g.calls.map fun c => (g.depends c).length).sum

/-- A bound on the number of paths that end in a call. -/
def CallGraph.paths (n : Nat) : Nat := (g.degree + 1) ^ (n + 1)

theorem depends_length_le {n : Nat} (hn : n ∈ g.calls) : (g.depends n).length ≤ g.degree :=
  List.single_le_sum (by simp) _ (List.mem_map_of_mem hn)

theorem sum_paths_le (n : Nat) (hn : n ∈ g.calls) :
    ((g.depends n).map g.paths).sum + 1 ≤ g.paths n := by
  have hle : ∀ d ∈ g.depends n, g.paths d ≤ (g.degree + 1) ^ n := by
    intro d hd
    exact Nat.pow_le_pow_right (Nat.succ_pos _) (dep_lt g hd)
  have hsum : ((g.depends n).map g.paths).sum ≤ (g.depends n).length * (g.degree + 1) ^ n := by
    have := List.sum_le_card_nsmul ((g.depends n).map g.paths) ((g.degree + 1) ^ n) (by simpa using hle)
    simpa using this
  have hlength := Nat.mul_le_mul_right ((g.degree + 1) ^ n) (depends_length_le g hn)
  have hpos : 0 < (g.degree + 1) ^ n := Nat.pow_pos (Nat.succ_pos _)
  calc ((g.depends n).map g.paths).sum + 1 ≤ g.degree * (g.degree + 1) ^ n + (g.degree + 1) ^ n := by omega
    _ = g.paths n := by
      unfold CallGraph.paths
      rw [pow_succ]
      ring

theorem ancestorLoop_total (fuel : Nat) (unvisited acc : List Nat) (hcalls : ∀ n ∈ unvisited, n ∈ g.calls)
    (hfuel : (unvisited.map g.paths).sum ≤ fuel) :
    ∃ r, ancestorLoop g.depends fuel unvisited acc = some r := by
  induction fuel generalizing unvisited acc with
  | zero =>
    cases unvisited with
    | nil => exact ⟨acc, rfl⟩
    | cons n unvisited =>
      have hpos : 0 < g.paths n := Nat.pow_pos (Nat.succ_pos _)
      simp only [List.map_cons, List.sum_cons] at hfuel
      omega
  | succ fuel ih =>
    cases unvisited with
    | nil => exact ⟨acc, rfl⟩
    | cons n unvisited =>
      apply ih
      · intro n' hn'
        cases List.mem_append.mp hn' with
        | inl h => exact hcalls n' (List.mem_cons_of_mem _ h)
        | inr h => exact dep_mem g h
      · have hle := sum_paths_le g n (hcalls n List.mem_cons_self)
        simp only [List.map_cons, List.sum_cons] at hfuel
        rw [List.map_append, List.sum_append]
        omega

theorem ancestorLoop_mono {fuel fuel' : Nat} (hle : fuel ≤ fuel') (unvisited acc r : List Nat)
    (hrun : ancestorLoop g.depends fuel unvisited acc = some r) :
    ancestorLoop g.depends fuel' unvisited acc = some r := by
  induction fuel generalizing unvisited acc fuel' with
  | zero =>
    cases unvisited with
    | nil =>
      rw [← hrun]
      cases fuel' <;> rfl
    | cons n unvisited => cases hrun
  | succ fuel ih =>
    cases unvisited with
    | nil =>
      rw [← hrun]
      cases fuel' <;> rfl
    | cons n unvisited =>
      cases fuel' with
      | zero => omega
      | succ fuel' => exact ih (Nat.le_of_succ_le_succ hle) _ _ hrun

/-- The call itself and all its ancestors. -/
theorem getAllAncestor_spec {fuel node : Nat} {r : List Nat}
    (hrun : getAllAncestor g fuel node = some r) (x : Nat) :
    x ∈ r ↔ Relation.ReflTransGen g.Dep x node := by
  rw [ancestorLoop_spec g fuel [node] [] r hrun]
  simp

end Ancestors

end StencilGraph.Dnn

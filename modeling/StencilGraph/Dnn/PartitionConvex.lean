import StencilGraph.Dnn.Growing

namespace StencilGraph.Dnn

section Statement

variable (g : CallGraph)

/-- No call outside the group is both a descendant and an ancestor of members. -/
def Convex (group : List Nat) : Prop :=
  ∀ x ∈ g.calls, x ∉ group → ∀ m ∈ group, ∀ m' ∈ group, ¬ (g.Ancestor m x ∧ g.Ancestor x m')

/-- `partition` returns groups, each call is in one of them, and each group is convex. -/
def Partitioned : Prop :=
  ∃ fuel groups, partition g fuel = .ok groups ∧ groups.flatten.Perm g.calls ∧
    ∀ group ∈ groups, Convex g group

/-- The next candidate, if there is one, may be handled: a candidate that is taken is not yet in a
group, and no call of an earlier group lies between it and the members; a candidate that is left out
has no ancestor among the members. -/
def StepOk (st : State) : Prop :=
  ∀ sub node cands, st.subGroup = some sub → sub.candNodes = node :: cands →
    if fuseable (g.pattern node) sub.pattern ∧ node ∉ sub.unfusedNodes then
      node ∈ st.callGroup ∧ ∀ x ∈ g.calls, x ∉ st.callGroup → x ∉ sub.members → ∀ m ∈ sub.members,
        ¬ (g.Ancestor node x ∧ g.Ancestor x m) ∧ ¬ (g.Ancestor m x ∧ g.Ancestor x node)
    else ∀ m ∈ sub.members, ¬ g.Ancestor m node

def Step (st st' : State) : Prop := st.finished = false ∧ ∃ fuel, step g fuel st = .ok st'

/-- The states of the run of `partition`. -/
def Reachable (st : State) : Prop :=
  ∃ fuel callGroup, topoSort g fuel g.calls = some callGroup ∧
    Relation.ReflTransGen (Step g) (start callGroup) st

end Statement

variable {g : CallGraph} {fuel : Nat} {st st' : State}

section Sufficient

variable (g) in
/-- The open group stays convex whatever is taken later. -/
structure Safe (callGroup : List Nat) (sub : SubGroup) : Prop where
  left : ∀ m ∈ sub.members, ∀ d, g.Dep d m → d ∈ callGroup → d ∉ sub.candNodes →
    ∀ m' ∈ sub.members, ¬ g.Ancestor m' d
  apart : ∀ x ∈ g.calls, x ∉ callGroup → x ∉ sub.members → ∀ m ∈ sub.members, ∀ m' ∈ sub.members,
    ¬ (g.Ancestor m x ∧ g.Ancestor x m')

/-- On the way to a member there is a last call outside the group. -/
theorem last_outside {members : List Nat} {x m' : Nat} (hx : x ∉ members) (hm' : m' ∈ members)
    (h : g.Ancestor x m') :
    ∃ d m'', m'' ∈ members ∧ d ∉ members ∧ g.Dep d m'' ∧ Relation.ReflTransGen g.Dep x d := by
  induction h with
  | single hdep => exact ⟨x, _, hm', hx, hdep, .refl⟩
  | tail hpath hdep ih =>
    rename_i b c
    by_cases hb : b ∈ members
    · exact ih hb
    · exact ⟨b, c, hm', hb, hdep, hpath.to_reflTransGen⟩

/-- A group without candidates is convex. -/
theorem Safe.convex {callGroup : List Nat} {sub : SubGroup} (h : Safe g callGroup sub)
    (hcands : sub.candNodes = []) : Convex g sub.members := by
  intro x hx hnot m hm m' hm' hbetween
  obtain ⟨hmx, hxm'⟩ := hbetween
  obtain ⟨d, m'', hm'', hd, hdep, hxd⟩ := last_outside hnot hm' hxm'
  have hmd : g.Ancestor m d := hmx.trans_left hxd
  by_cases hleft : d ∈ callGroup
  · exact h.left m'' hm'' d hdep hleft (by simp [hcands]) m hm hmd
  · exact h.apart d (dep_mem g hdep) hleft hd m hm m'' hm'' ⟨hmd, .single hdep⟩

theorem convex_perm {group group' : List Nat} (hperm : group.Perm group') (h : Convex g group) :
    Convex g group' := by
  intro x hx hnot m hm m' hm'
  exact h x hx (fun hmem => hnot (hperm.subset hmem)) m (hperm.symm.subset hm) m'
    (hperm.symm.subset hm')

variable (g) in
/-- All groups so far are convex, and the open one can become a convex group. -/
structure Good (st : State) : Prop where
  inv : Inv g st
  groups : ∀ group ∈ st.partialGroup, Convex g group
  safe : ∀ sub, st.subGroup = some sub → Safe g st.callGroup sub

theorem Safe.drop {callGroup unfused : List Nat} {sub : SubGroup} {node : Nat} {cands : List Nat}
    (h : Safe g callGroup sub) (hcands : sub.candNodes = node :: cands)
    (hnode : ∀ m ∈ sub.members, ¬ g.Ancestor m node) :
    Safe g callGroup { sub with candNodes := cands, unfusedNodes := unfused } := by
  refine ⟨fun m hm d hd hleft hnot m' hm' => ?_, h.apart⟩
  by_cases heq : d = node
  · rw [heq]
    exact hnode m' hm'
  · apply h.left m hm d hd hleft _ m' hm'
    rw [hcands, List.mem_cons, not_or]
    exact ⟨heq, hnot⟩

theorem Good.step (hdepends : ∀ c ∈ g.calls, (g.depends c).Nodup) (h : Good g st)
    (hok : StepOk g st) (hmoves : Moves g fuel st st') : Good g st' := by
  have hinv := h.inv.step hdepends hmoves
  cases hmoves with
  | opens last hsub hlast =>
    refine ⟨hinv, h.groups, fun sub hsome => ?_⟩
    obtain rfl := Option.some.inj hsome
    refine ⟨fun m hm d hd _ hnot => ?_, fun x _ _ _ m hm m' hm' hbetween => ?_⟩
    · rw [List.mem_singleton.mp hm] at hd
      exact absurd hd hnot
    · rw [List.mem_singleton.mp hm, List.mem_singleton.mp hm'] at hbetween
      exact not_ancestor_self last (hbetween.1.trans hbetween.2)
  | closes sub group hsub hcands hsort =>
    refine ⟨hinv, fun group' hgroup => ?_, fun sub' hsome => by cases hsome⟩
    cases List.mem_append.mp hgroup with
    | inl hgroup => exact h.groups group' hgroup
    | inr hgroup =>
      rw [List.mem_singleton.mp hgroup]
      have hmembers : st.members = sub.members := by simp [State.members, hsub]
      have hsorted := topoSort_perm g (hmembers ▸ h.inv.members_nodup) hsort
      exact convex_perm hsorted.symm ((h.safe sub hsub).convex hcands)
  | skips sub node cands hsub hcands hfuse hun =>
    have hleft := hok sub node cands hsub hcands
    rw [if_neg (by simp [hun])] at hleft
    refine ⟨hinv, h.groups, fun sub' hsome => ?_⟩
    obtain rfl := Option.some.inj hsome
    exact (h.safe sub hsub).drop hcands hleft
  | rejects sub node cands ancestors hsub hcands hfuse hanc =>
    have hleft := hok sub node cands hsub hcands
    rw [if_neg (by simp [hfuse])] at hleft
    refine ⟨hinv, h.groups, fun sub' hsome => ?_⟩
    obtain rfl := Option.some.inj hsome
    exact (h.safe sub hsub).drop hcands hleft
  | takes sub node cands hsub hcands hfuse hun hnode =>
    have htake := hok sub node cands hsub hcands
    rw [if_pos ⟨hfuse, hun⟩] at htake
    obtain ⟨-, hbetween⟩ := htake
    have hgrow := h.inv.growing sub hsub
    have hsafe := h.safe sub hsub
    have hnodup := hgrow.cands_nodup
    rw [hcands] at hnodup
    obtain ⟨-, h₂, h₃, -, -⟩ := pushCands_spec (st.callGroup.erase node) (g.depends node) cands
      (List.nodup_cons.mp hnodup).2
    refine ⟨hinv, h.groups, fun sub' hsome => ?_⟩
    obtain rfl := Option.some.inj hsome
    refine ⟨fun m hm d hd hleft hnot m' hm' => ?_, fun x hx hnot hnot' m hm m' hm' => ?_⟩
    · obtain ⟨hne, hleft'⟩ := h.inv.callGroup_nodup.mem_erase_iff.mp hleft
      cases List.mem_append.mp hm with
      | inl hm =>
        have hcand : d ∉ sub.candNodes := by
          rw [hcands, List.mem_cons, not_or]
          exact ⟨hne, fun hmem => hnot (h₂ d hmem)⟩
        cases List.mem_append.mp hm' with
        | inl hm' => exact hsafe.left m hm d hd hleft' hcand m' hm'
        | inr hm' =>
          -- an ancestor of a call that was left out is blocked
          rw [List.mem_singleton.mp hm']
          intro hanc
          exact hun (hgrow.closed d ((hgrow.covered m hm d hd hleft').resolve_left hcand) node hanc)
      | inr hm =>
        rw [List.mem_singleton.mp hm] at hd
        exact absurd (h₃ d hd hleft) hnot
    · have hmem : x ≠ node ∧ x ∉ sub.members := by
        constructor
        · intro heq
          rw [heq] at hnot'
          exact hnot' (List.mem_append_right _ (List.mem_singleton_self node))
        · exact fun hmem => hnot' (List.mem_append_left _ hmem)
      have hcall : x ∉ st.callGroup := by
        intro hc
        exact hnot (h.inv.callGroup_nodup.mem_erase_iff.mpr ⟨hmem.1, hc⟩)
      cases List.mem_append.mp hm with
      | inl hm =>
        cases List.mem_append.mp hm' with
        | inl hm' => exact hsafe.apart x hx hcall hmem.2 m hm m' hm'
        | inr hm' =>
          rw [List.mem_singleton.mp hm']
          exact (hbetween x hx hcall hmem.2 m hm).2
      | inr hm =>
        rw [List.mem_singleton.mp hm]
        cases List.mem_append.mp hm' with
        | inl hm' => exact (hbetween x hx hcall hmem.2 m' hm').1
        | inr hm' =>
          rw [List.mem_singleton.mp hm']
          exact fun hb => not_ancestor_self node (hb.1.trans hb.2)

variable (g) in
/-- Enough rounds for every sorting and every search for ancestors. -/
def CallGraph.rounds : Nat := g.calls.length + (g.calls.map g.paths).sum

theorem dependsIn_nodup (hdepends : ∀ c ∈ g.calls, (g.depends c).Nodup) {group : List Nat}
    (hgroup : ∀ c ∈ group, c ∈ g.calls) : ∀ c ∈ group, (g.dependsIn group c).Nodup := by
  intro c hc
  have heq : g.dependsIn group c = (g.depends c).filter (· ∈ group) := by
    unfold CallGraph.depends CallGraph.dependsIn
    rw [List.filter_filter]
    apply List.filter_congr
    intro d _
    by_cases hd : d ∈ group
    · simp [hd, hgroup d hd]
    · simp [hd]
  rw [heq]
  exact (hdepends c (hgroup c hc)).filter _

theorem getAllAncestor_total {node : Nat} (hnode : node ∈ g.calls) (hfuel : g.rounds ≤ fuel) :
    ∃ ancestors, getAllAncestor g fuel node = some ancestors := by
  apply ancestorLoop_total
  · intro n hn
    rw [List.mem_singleton.mp hn]
    exact hnode
  · have hle : g.paths node ≤ (g.calls.map g.paths).sum :=
      List.single_le_sum (by simp) _ (List.mem_map_of_mem hnode)
    unfold CallGraph.rounds at hfuel
    simp only [List.map_cons, List.map_nil, List.sum_cons, List.sum_nil]
    omega

/-- A step that meets the condition does not fail. -/
theorem step_total (hdepends : ∀ c ∈ g.calls, (g.depends c).Nodup) (h : Inv g st)
    (hok : StepOk g st) (hfuel : g.rounds ≤ fuel) : ∃ st', step g fuel st = .ok st' := by
  unfold step
  cases hsub : st.subGroup with
  | none =>
    cases hlast : st.callGroup.getLast? with
    | none => exact ⟨_, rfl⟩
    | some last => exact ⟨_, rfl⟩
  | some sub =>
    have hmembers : st.members = sub.members := by simp [State.members, hsub]
    simp only
    cases hcands : sub.candNodes with
    | nil =>
      have hnodup := h.members_nodup
      rw [hmembers] at hnodup
      have hcalls : ∀ c ∈ sub.members, c ∈ g.calls := by
        intro c hc
        apply h.members_calls
        rw [hmembers]
        exact hc
      have hlength : sub.members.length ≤ fuel := by
        have hle := (hnodup.subperm hcalls).length_le
        unfold CallGraph.rounds at hfuel
        omega
      obtain ⟨group, hsort⟩ := topoSort_total g hnodup (dependsIn_nodup hdepends hcalls) hlength
      rw [hsort]
      exact ⟨_, rfl⟩
    | cons node cands =>
      have hcond := hok sub node cands hsub hcands
      simp only [visitCand]
      by_cases hfuse : fuseable (g.pattern node) sub.pattern = true
      · rw [if_pos hfuse]
        by_cases hun : node ∈ sub.unfusedNodes
        · rw [if_pos hun]
          exact ⟨_, rfl⟩
        · rw [if_pos ⟨hfuse, hun⟩] at hcond
          rw [if_neg hun, if_pos hcond.1]
          exact ⟨_, rfl⟩
      · rw [if_neg hfuse]
        obtain ⟨m, -, hdep⟩ := (h.growing sub hsub).cands_dep node (by rw [hcands]; exact List.mem_cons_self)
        obtain ⟨ancestors, hanc⟩ := getAllAncestor_total (dep_mem g hdep) hfuel
        rw [hanc]
        exact ⟨_, rfl⟩

variable (g) in
/-- A bound on the number of steps that are left. -/
def stepsLeft (st : State) : Nat :=
  match st.subGroup with
  | none => st.callGroup.length * (g.degree + 2)
  | some sub => st.callGroup.length * (g.degree + 2) + sub.candNodes.length + 1

theorem stepsLeft_lt (h : Inv g st) (hmoves : Moves g fuel st st') :
    stepsLeft g st' < stepsLeft g st := by
  have herase (c : Nat) (hc : c ∈ st.callGroup) :
      st.callGroup.length * (g.degree + 2) =
        (st.callGroup.erase c).length * (g.degree + 2) + (g.degree + 2) := by
    have hpos := List.length_pos_of_mem hc
    rw [List.length_erase_of_mem hc, ← Nat.succ_mul]
    congr 1
    omega
  cases hmoves with
  | opens last hsub hlast =>
    have hle := depends_length_le g (h.callGroup_calls hlast)
    have heq := herase last hlast
    simp only [stepsLeft, hsub]
    omega
  | closes sub group hsub hcands hsort =>
    simp only [stepsLeft, hsub]
    omega
  | skips sub node cands hsub hcands hfuse hun =>
    simp only [stepsLeft, hsub, hcands, List.length_cons]
    omega
  | rejects sub node cands ancestors hsub hcands hfuse hanc =>
    simp only [stepsLeft, hsub, hcands, List.length_cons]
    omega
  | takes sub node cands hsub hcands hfuse hun hnode =>
    have hnodup := (h.growing sub hsub).cands_nodup
    rw [hcands] at hnodup
    obtain ⟨-, -, -, -, hlength⟩ := pushCands_spec (st.callGroup.erase node) (g.depends node) cands
      (List.nodup_cons.mp hnodup).2
    have hle := depends_length_le g (h.callGroup_calls hnode)
    have heq := herase node hnode
    simp only [stepsLeft, hsub, hcands, List.length_cons]
    omega

/-- A run whose steps all meet the condition. -/
theorem run_good (hdepends : ∀ c ∈ g.calls, (g.depends c).Nodup) (hfuel : g.rounds ≤ fuel)
    (steps : Nat) (st : State) (h : Good g st)
    (hok : ∀ st', Relation.ReflTransGen (Step g) st st' → StepOk g st')
    (hsteps : stepsLeft g st < steps) :
    ∃ groups, run g fuel steps st = .ok groups ∧ groups.flatten.Perm g.calls ∧
      ∀ group ∈ groups, Convex g group := by
  induction steps generalizing st with
  | zero => omega
  | succ steps ih =>
    unfold run
    by_cases hfin : st.finished = true
    · rw [if_pos hfin]
      refine ⟨st.partialGroup, rfl, ?_, h.groups⟩
      have hperm := h.inv.perm
      simp only [State.finished, Bool.and_eq_true, Option.isNone_iff_eq_none, List.isEmpty_iff] at hfin
      simpa [State.members, hfin.1, hfin.2] using hperm
    · rw [if_neg hfin]
      have hnot : st.finished = false := by simpa using hfin
      obtain ⟨st', hst'⟩ := step_total hdepends h.inv (hok st .refl) hfuel
      have hmoves := moves_of_step hnot hst'
      rw [hst']
      apply ih st' (h.step hdepends (hok st .refl) hmoves)
      · intro st'' hst''
        exact hok st'' (.head ⟨hnot, fuel, hst'⟩ hst'')
      · have hlt := stepsLeft_lt h.inv hmoves
        omega

theorem good_start {callGroup : List Nat} (hperm : callGroup.Perm g.calls) :
    Good g (start callGroup) := by
  refine ⟨⟨by simpa [start, State.members] using hperm, fun sub hsome => by cases hsome⟩,
    fun group hgroup => absurd hgroup List.not_mem_nil, fun sub hsome => by cases hsome⟩

end Sufficient

section Necessary

theorem topoSort_unique {fuel fuel' : Nat} {group l l' : List Nat} (h : topoSort g fuel group = some l)
    (h' : topoSort g fuel' group = some l') : l = l' := by
  cases Nat.le_total fuel fuel' with
  | inl hle => exact Option.some.inj ((topoLoop_mono hle _ _ _ h).symm.trans h')
  | inr hle => exact Option.some.inj (h.symm.trans (topoLoop_mono hle _ _ _ h'))

theorem getAllAncestor_unique {fuel fuel' node : Nat} {r r' : List Nat}
    (h : getAllAncestor g fuel node = some r) (h' : getAllAncestor g fuel' node = some r') : r = r' := by
  cases Nat.le_total fuel fuel' with
  | inl hle => exact Option.some.inj ((ancestorLoop_mono g hle _ _ _ h).symm.trans h')
  | inr hle => exact Option.some.inj (h.symm.trans (ancestorLoop_mono g hle _ _ _ h'))

/-- The step does not depend on the bound on the rounds. -/
theorem step_unique {fuel fuel' : Nat} {st₁ st₂ : State} (h₁ : step g fuel st = .ok st₁)
    (h₂ : step g fuel' st = .ok st₂) : st₁ = st₂ := by
  unfold step at h₁ h₂
  cases hsub : st.subGroup with
  | none =>
    rw [hsub] at h₁ h₂
    exact Except.ok.inj (h₁.symm.trans h₂)
  | some sub =>
    simp only [hsub] at h₁ h₂
    cases hcands : sub.candNodes with
    | nil =>
      simp only [hcands] at h₁ h₂
      cases hsort : topoSort g fuel sub.members with
      | none => simp [hsort] at h₁
      | some group =>
        cases hsort' : topoSort g fuel' sub.members with
        | none => simp [hsort'] at h₂
        | some group' =>
          rw [hsort] at h₁
          rw [hsort', ← topoSort_unique hsort hsort'] at h₂
          exact Except.ok.inj (h₁.symm.trans h₂)
    | cons node cands =>
      simp only [hcands, visitCand] at h₁ h₂
      by_cases hfuse : fuseable (g.pattern node) sub.pattern = true
      · rw [if_pos hfuse] at h₁ h₂
        exact Except.ok.inj (h₁.symm.trans h₂)
      · rw [if_neg hfuse] at h₁ h₂
        cases hanc : getAllAncestor g fuel node with
        | none => simp [hanc] at h₁
        | some ancestors =>
          cases hanc' : getAllAncestor g fuel' node with
          | none => simp [hanc'] at h₂
          | some ancestors' =>
            rw [hanc] at h₁
            rw [hanc', ← getAllAncestor_unique hanc hanc'] at h₂
            exact Except.ok.inj (h₁.symm.trans h₂)

variable (g) in
/-- The run from this state returns the groups. -/
def Returns (groups : List (List Nat)) (st : State) : Prop :=
  ∃ fuel steps, run g fuel steps st = .ok groups

theorem Returns.next {groups : List (List Nat)} (h : Returns g groups st) (hnot : st.finished = false) :
    ∃ fuel st', step g fuel st = .ok st' ∧ Returns g groups st' := by
  obtain ⟨fuel, steps, hrun⟩ := h
  cases steps with
  | zero => cases hrun
  | succ steps =>
    unfold run at hrun
    rw [if_neg (by simp [hnot])] at hrun
    cases hstep : step g fuel st with
    | error e => simp [hstep] at hrun
    | ok st' =>
      rw [hstep] at hrun
      exact ⟨fuel, st', hstep, fuel, steps, hrun⟩

theorem Returns.step {groups : List (List Nat)} (h : Returns g groups st) (hstep : Step g st st') :
    Returns g groups st' := by
  obtain ⟨hnot, fuel, hst'⟩ := hstep
  obtain ⟨fuel', st'', hst'', hreturns⟩ := h.next hnot
  rw [step_unique hst' hst'']
  exact hreturns

/-- The groups that are closed are returned. -/
theorem run_partialGroup (steps : Nat) (st : State) (groups : List (List Nat))
    (hrun : run g fuel steps st = .ok groups) : ∀ group ∈ st.partialGroup, group ∈ groups := by
  induction steps generalizing st with
  | zero => cases hrun
  | succ steps ih =>
    unfold run at hrun
    by_cases hfin : st.finished = true
    · rw [if_pos hfin] at hrun
      obtain rfl := Except.ok.inj hrun
      exact fun group hgroup => hgroup
    · rw [if_neg hfin] at hrun
      cases hstep : step g fuel st with
      | error e => simp [hstep] at hrun
      | ok st' =>
        rw [hstep] at hrun
        have hmoves := moves_of_step (by simpa using hfin) hstep
        have hsub : ∀ group ∈ st.partialGroup, group ∈ st'.partialGroup := by
          intro group hgroup
          cases hmoves with
          | closes sub group' => exact List.mem_append_left _ hgroup
          | _ => exact hgroup
        exact fun group hgroup => ih st' hrun group (hsub group hgroup)

/-- The open group ends as one of the groups: its members stay, and nothing that is blocked or in an
earlier group joins it. -/
theorem run_open (hdepends : ∀ c ∈ g.calls, (g.depends c).Nodup) (steps : Nat) (st : State)
    (sub : SubGroup) (groups : List (List Nat)) (hsub : st.subGroup = some sub) (h : Inv g st)
    (hrun : run g fuel steps st = .ok groups) :
    ∃ group ∈ groups, (∀ m ∈ sub.members, m ∈ group) ∧
      ∀ x ∈ group, x ∈ sub.members ∨ (x ∈ st.callGroup ∧ x ∉ sub.unfusedNodes) := by
  induction steps generalizing st sub with
  | zero => cases hrun
  | succ steps ih =>
    unfold run at hrun
    have hnot : st.finished = false := by simp [State.finished, hsub]
    rw [if_neg (by simp [hnot])] at hrun
    cases hstep : step g fuel st with
    | error e => simp [hstep] at hrun
    | ok st' =>
      rw [hstep] at hrun
      have hmoves := moves_of_step hnot hstep
      have hinv := h.step hdepends hmoves
      cases hmoves with
      | opens last hnone hlast =>
        rw [hsub] at hnone
        cases hnone
      | closes sub' group hsub' hcands hsort =>
        obtain rfl := Option.some.inj (hsub.symm.trans hsub')
        have hmembers : st.members = sub.members := by simp [State.members, hsub]
        have hperm := topoSort_perm g (hmembers ▸ h.members_nodup) hsort
        refine ⟨group, ?_, fun m hm => hperm.symm.subset hm, fun x hx => Or.inl (hperm.subset hx)⟩
        apply run_partialGroup steps _ groups hrun
        exact List.mem_append_right _ (List.mem_singleton_self group)
      | skips sub' node cands hsub' hcands hfuse hun =>
        obtain rfl := Option.some.inj (hsub.symm.trans hsub')
        obtain ⟨group, hgroup, hkeep, hnew⟩ := ih _ _ rfl hinv hrun
        exact ⟨group, hgroup, hkeep, hnew⟩
      | rejects sub' node cands ancestors hsub' hcands hfuse hanc =>
        obtain rfl := Option.some.inj (hsub.symm.trans hsub')
        obtain ⟨group, hgroup, hkeep, hnew⟩ := ih _ _ rfl hinv hrun
        refine ⟨group, hgroup, hkeep, fun x hx => ?_⟩
        apply (hnew x hx).imp_right
        intro hx
        exact ⟨hx.1, fun hmem => hx.2 (List.mem_append_left _ hmem)⟩
      | takes sub' node cands hsub' hcands hfuse hun hnode =>
        obtain rfl := Option.some.inj (hsub.symm.trans hsub')
        obtain ⟨group, hgroup, hkeep, hnew⟩ := ih _ _ rfl hinv hrun
        refine ⟨group, hgroup, fun m hm => hkeep m (List.mem_append_left _ hm), fun x hx => ?_⟩
        cases hnew x hx with
        | inl hx =>
          cases List.mem_append.mp hx with
          | inl hx => exact Or.inl hx
          | inr hx =>
            rw [List.mem_singleton.mp hx]
            exact Or.inr ⟨hnode, hun⟩
        | inr hx => exact Or.inr ⟨List.mem_of_mem_erase hx.1, hx.2⟩

/-- In a run that returns convex groups every step meets the condition. -/
theorem stepOk_of_returns (hdepends : ∀ c ∈ g.calls, (g.depends c).Nodup)
    {groups : List (List Nat)} (hconvex : ∀ group ∈ groups, Convex g group) (h : Inv g st)
    (hreturns : Returns g groups st) : StepOk g st := by
  intro sub node cands hsub hcands
  have hnot : st.finished = false := by simp [State.finished, hsub]
  obtain ⟨fuel, st', hstep, fuel', steps, hrun⟩ := hreturns.next hnot
  have hmoves := moves_of_step hnot hstep
  have hinv := h.step hdepends hmoves
  have hmembers : st.members = sub.members := by simp [State.members, hsub]
  have hnode : node ∈ sub.candNodes := by
    rw [hcands]
    exact List.mem_cons_self
  have hleft (st' : State) (sub' : SubGroup) (hsub' : st'.subGroup = some sub') (hinv : Inv g st')
      (hsame : sub'.members = sub.members) (hrun : run g fuel' steps st' = .ok groups)
      (hblocked : node ∈ sub'.unfusedNodes) : ∀ m ∈ sub.members, ¬ g.Ancestor m node := by
    intro m hm hanc
    obtain ⟨group, hgroup, hkeep, hnew⟩ := run_open hdepends steps st' sub' groups hsub' hinv hrun
    rw [hsame] at hkeep hnew
    obtain ⟨m', hm', hdep⟩ := (h.growing sub hsub).cands_dep node hnode
    have hout : node ∉ group := by
      intro hmem
      cases hnew node hmem with
      | inl hmem => exact (h.growing sub hsub).cands_apart node hnode hmem
      | inr hmem => exact hmem.2 hblocked
    exact hconvex group hgroup node (dep_mem g hdep) hout m (hkeep m hm) m' (hkeep m' hm')
      ⟨hanc, .single hdep⟩
  cases hmoves with
  | opens last hnone hlast =>
    rw [hsub] at hnone
    cases hnone
  | closes sub' group hsub' hcands' hsort =>
    obtain rfl := Option.some.inj (hsub.symm.trans hsub')
    rw [hcands] at hcands'
    cases hcands'
  | skips sub' node' cands' hsub' hcands' hfuse hun =>
    obtain rfl := Option.some.inj (hsub.symm.trans hsub')
    obtain ⟨rfl, rfl⟩ := List.cons.inj (hcands.symm.trans hcands')
    rw [if_neg (by simp [hun])]
    exact hleft _ { sub with candNodes := cands } rfl hinv rfl hrun hun
  | rejects sub' node' cands' ancestors hsub' hcands' hfuse hanc =>
    obtain rfl := Option.some.inj (hsub.symm.trans hsub')
    obtain ⟨rfl, rfl⟩ := List.cons.inj (hcands.symm.trans hcands')
    rw [if_neg (by simp [hfuse])]
    apply hleft _ { sub with candNodes := cands, unfusedNodes := sub.unfusedNodes ++ ancestors } rfl
      hinv rfl hrun
    exact List.mem_append_right _ ((getAllAncestor_spec g hanc node).mpr .refl)
  | takes sub' node' cands' hsub' hcands' hfuse hun hmem =>
    obtain rfl := Option.some.inj (hsub.symm.trans hsub')
    obtain ⟨rfl, rfl⟩ := List.cons.inj (hcands.symm.trans hcands')
    rw [if_pos ⟨hfuse, hun⟩]
    refine ⟨hmem, fun x hx hnot hnot' m hm => ?_⟩
    obtain ⟨group, hgroup, hkeep, hnew⟩ := run_open hdepends steps _ _ groups rfl hinv hrun
    have hnodeIn := hkeep node (List.mem_append_right _ (List.mem_singleton_self node))
    have hmIn := hkeep m (List.mem_append_left _ hm)
    have hout : x ∉ group := by
      intro hxg
      cases hnew x hxg with
      | inl hxs =>
        cases List.mem_append.mp hxs with
        | inl hxs => exact hnot' hxs
        | inr hxs =>
          rw [List.mem_singleton.mp hxs] at hnot
          exact hnot hmem
      | inr hxs => exact hnot (List.mem_of_mem_erase hxs.1)
    exact ⟨hconvex group hgroup x hx hout node hnodeIn m hmIn,
      hconvex group hgroup x hx hout m hmIn node hnodeIn⟩

theorem conditions_of_partitioned (hpart : Partitioned g) :
    (∀ c ∈ g.calls, (g.depends c).Nodup) ∧ ∀ st, Reachable g st → StepOk g st := by
  obtain ⟨fuel, groups, hrun, -, hconvex⟩ := hpart
  unfold partition at hrun
  cases hsort : topoSort g fuel g.calls with
  | none => simp [hsort] at hrun
  | some callGroup =>
    rw [hsort] at hrun
    have hdepends := nodup_of_topoSort g g.nodup hsort
    refine ⟨hdepends, fun st hreach => ?_⟩
    obtain ⟨fuel', callGroup', hsort', hpath⟩ := hreach
    obtain rfl := topoSort_unique hsort hsort'
    have hall : Inv g st ∧ Returns g groups st := by
      induction hpath with
      | refl => exact ⟨(good_start (topoSort_perm g g.nodup hsort)).inv, fuel, fuel, hrun⟩
      | tail _ hstep ih =>
        obtain ⟨hinv, hreturns⟩ := ih
        obtain ⟨hnot, fuel'', hst''⟩ := hstep
        exact ⟨hinv.step hdepends (moves_of_step hnot hst''), hreturns.step ⟨hnot, fuel'', hst''⟩⟩
    exact stepOk_of_returns hdepends hconvex hall.1 hall.2

end Necessary

/-- `partition` returns a convex partition if and only if no call takes the same call for two of its
arguments and every candidate of the run may be handled as it is. -/
theorem partitioned_iff (g : CallGraph) :
    Partitioned g ↔ (∀ c ∈ g.calls, (g.depends c).Nodup) ∧ ∀ st, Reachable g st → StepOk g st := by
  constructor
  · exact conditions_of_partitioned
  · intro h
    obtain ⟨hdepends, hok⟩ := h
    have hlength : g.calls.length ≤ g.rounds := Nat.le_add_right _ _
    obtain ⟨callGroup, hsort⟩ := topoSort_total g g.nodup hdepends hlength
    have hperm := topoSort_perm g g.nodup hsort
    let fuel := g.rounds + stepsLeft g (start callGroup) + 1
    have hsort' : topoSort g fuel g.calls = some callGroup :=
      topoLoop_mono (by omega) _ _ _ hsort
    obtain ⟨groups, hrun, hgroups⟩ := run_good hdepends (show g.rounds ≤ fuel by omega) fuel
      (start callGroup) (good_start hperm) (fun st' hst' => hok st' ⟨g.rounds, callGroup, hsort, hst'⟩)
      (by omega)
    refine ⟨fuel, groups, ?_, hgroups⟩
    unfold partition
    rw [hsort']
    exact hrun

/-- The graph of `add(conv, multiply(conv, c))`: call 1 is the convolution, 2 the product, 3 the sum. -/
def convGraph : CallGraph where
  calls := [1, 2, 3]
  args c := if c = 2 then [1] else if c = 3 then [1, 2] else []
  pattern c := if c = 1 then .manyToMany else .oneToMany
  nodup := by decide
  args_lt c a ha := by
    split at ha
    · simp at ha
      omega
    · split at ha
      · simp at ha
        omega
      · cases ha

/-- The sum takes the convolution and then rejects the product, which lies between them. -/
theorem convGraph_not_partitioned : ¬ Partitioned convGraph := by
  intro hpart
  obtain ⟨-, hok⟩ := conditions_of_partitioned hpart
  have hopen : Step convGraph (start [1, 2, 3]) ⟨[1, 2], [], some ⟨[3], .oneToMany, [1, 2], []⟩⟩ :=
    ⟨rfl, 0, rfl⟩
  have htake : Step convGraph ⟨[1, 2], [], some ⟨[3], .oneToMany, [1, 2], []⟩⟩
      ⟨[2], [], some ⟨[3, 1], .manyToMany, [2], []⟩⟩ := ⟨rfl, 0, rfl⟩
  have hstep := hok _ ⟨3, [1, 2, 3], rfl, .tail (.single hopen) htake⟩ _ 2 [] rfl rfl
  rw [if_neg (by decide)] at hstep
  have hdep : 1 ∈ convGraph.depends 2 := by decide
  exact hstep 1 (by decide) (.single hdep)

end StencilGraph.Dnn

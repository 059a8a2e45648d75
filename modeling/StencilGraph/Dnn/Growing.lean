import StencilGraph.Dnn.TopoSort

namespace StencilGraph.Dnn

variable (g : CallGraph)

/-- What a step can do. -/
inductive Moves (fuel : Nat) (st : State) : State → Prop
  | opens (last : Nat) : st.subGroup = none → last ∈ st.callGroup →
    Moves fuel st ⟨st.callGroup.erase last, st.partialGroup,
      some ⟨[last], g.pattern last, g.depends last, []⟩⟩
  | closes (sub : SubGroup) (group : List Nat) : st.subGroup = some sub → sub.candNodes = [] →
    topoSort g fuel sub.members = some group →
    Moves fuel st ⟨st.callGroup, st.partialGroup ++ [group], none⟩
  | skips (sub : SubGroup) (node : Nat) (cands : List Nat) : st.subGroup = some sub →
    sub.candNodes = node :: cands → fuseable (g.pattern node) sub.pattern = true →
    node ∈ sub.unfusedNodes →
    Moves fuel st ⟨st.callGroup, st.partialGroup, some { sub with candNodes := cands }⟩
  | takes (sub : SubGroup) (node : Nat) (cands : List Nat) : st.subGroup = some sub →
    sub.candNodes = node :: cands → fuseable (g.pattern node) sub.pattern = true →
    node ∉ sub.unfusedNodes → node ∈ st.callGroup →
    Moves fuel st ⟨st.callGroup.erase node, st.partialGroup, some
      ⟨sub.members ++ [node], fuseTable (g.pattern node) sub.pattern,
        pushCands (st.callGroup.erase node) (g.depends node) cands, sub.unfusedNodes⟩⟩
  | rejects (sub : SubGroup) (node : Nat) (cands ancestors : List Nat) : st.subGroup = some sub →
    sub.candNodes = node :: cands → fuseable (g.pattern node) sub.pattern = false →
    getAllAncestor g fuel node = some ancestors →
    Moves fuel st ⟨st.callGroup, st.partialGroup, some
      { sub with candNodes := cands, unfusedNodes := sub.unfusedNodes ++ ancestors }⟩

variable {g} {fuel : Nat} {st st' : State}

theorem moves_of_step (hnot : st.finished = false) (h : step g fuel st = .ok st') :
    Moves g fuel st st' := by
  obtain ⟨callGroup, partialGroup, subGroup⟩ := st
  unfold step at h
  cases subGroup with
  | none =>
    cases hlast : callGroup.getLast? with
    | none =>
      rw [List.getLast?_eq_none_iff.mp hlast] at hnot
      cases hnot
    | some last =>
      simp only [hlast, Except.ok.injEq] at h
      rw [← h]
      exact .opens last rfl (List.mem_of_getLast? hlast)
  | some sub =>
    simp only at h
    cases hcands : sub.candNodes with
    | nil =>
      rw [hcands] at h
      cases hsort : topoSort g fuel sub.members with
      | none => simp [hsort] at h
      | some group =>
        simp only [hsort, Except.ok.injEq] at h
        rw [← h]
        exact .closes sub group rfl hcands hsort
    | cons node cands =>
      rw [hcands] at h
      simp only [visitCand] at h
      cases hfuse : fuseable (g.pattern node) sub.pattern with
      | false =>
        simp only [hfuse, Bool.false_eq_true, if_false] at h
        cases hanc : getAllAncestor g fuel node with
        | none => simp [hanc] at h
        | some ancestors =>
          simp only [hanc, Except.ok.injEq] at h
          rw [← h]
          exact .rejects sub node cands ancestors rfl hcands hfuse hanc
      | true =>
        simp only [hfuse, if_true] at h
        by_cases hun : node ∈ sub.unfusedNodes
        · simp only [hun, if_true, Except.ok.injEq] at h
          rw [← h]
          exact .skips sub node cands rfl hcands hfuse hun
        · simp only [hun, if_false] at h
          by_cases hmem : node ∈ callGroup
          · simp only [hmem, if_true, Except.ok.injEq] at h
            rw [← h]
            exact .takes sub node cands rfl hcands hfuse hun hmem
          · simp only [hmem, if_false] at h
            cases h

variable (g) in
/-- The group that is being grown, and the calls that are left. -/
structure Growing (callGroup : List Nat) (sub : SubGroup) : Prop where
  cands_nodup : sub.candNodes.Nodup
  cands_apart : ∀ c ∈ sub.candNodes, c ∉ sub.members
  cands_dep : ∀ c ∈ sub.candNodes, ∃ m ∈ sub.members, g.Dep c m
  covered : ∀ m ∈ sub.members, ∀ d, g.Dep d m → d ∈ callGroup →
    d ∈ sub.candNodes ∨ d ∈ sub.unfusedNodes
  closed : ∀ x ∈ sub.unfusedNodes, ∀ y, g.Ancestor y x → y ∈ sub.unfusedNodes

/-- The members of the open group. -/
def State.members (st : State) : List Nat := (st.subGroup.map SubGroup.members).getD []

variable (g) in
/-- What holds in every state of a run. -/
structure Inv (st : State) : Prop where
  perm : (st.callGroup ++ st.members ++ st.partialGroup.flatten).Perm g.calls
  growing : ∀ sub, st.subGroup = some sub → Growing g st.callGroup sub

theorem Inv.nodup (h : Inv g st) : (st.callGroup ++ st.members ++ st.partialGroup.flatten).Nodup :=
  h.perm.nodup_iff.mpr g.nodup

theorem Inv.callGroup_nodup (h : Inv g st) : st.callGroup.Nodup :=
  (List.nodup_append.mp (List.nodup_append.mp h.nodup).1).1

theorem Inv.members_nodup (h : Inv g st) : st.members.Nodup :=
  (List.nodup_append.mp (List.nodup_append.mp h.nodup).1).2.1

theorem Inv.apart (h : Inv g st) {x : Nat} (hx : x ∈ st.callGroup) : x ∉ st.members := by
  intro hx'
  exact (List.nodup_append.mp (List.nodup_append.mp h.nodup).1).2.2 x hx x hx' rfl

theorem Inv.members_calls (h : Inv g st) {x : Nat} (hx : x ∈ st.members) : x ∈ g.calls :=
  h.perm.subset (List.mem_append_left _ (List.mem_append_right _ hx))

theorem Inv.callGroup_calls (h : Inv g st) {x : Nat} (hx : x ∈ st.callGroup) : x ∈ g.calls :=
  h.perm.subset (List.mem_append_left _ (List.mem_append_left _ hx))

theorem pushCands_spec (callGroup depends cands : List Nat) (hnodup : cands.Nodup) :
    (pushCands callGroup depends cands).Nodup ∧ (∀ c ∈ cands, c ∈ pushCands callGroup depends cands) ∧
    (∀ c ∈ depends, c ∈ callGroup → c ∈ pushCands callGroup depends cands) ∧
    (∀ c ∈ pushCands callGroup depends cands, c ∈ cands ∨ (c ∈ depends ∧ c ∈ callGroup)) ∧
    (pushCands callGroup depends cands).length ≤ cands.length + depends.length := by
  induction depends generalizing cands with
  | nil => exact ⟨hnodup, fun _ h => h, fun _ h => absurd h List.not_mem_nil, fun _ h => Or.inl h,
      Nat.le_refl _⟩
  | cons d depends ih =>
    have hstep : pushCands callGroup (d :: depends) cands = pushCands callGroup depends
        (if d ∈ callGroup ∧ d ∉ cands then cands ++ [d] else cands) := rfl
    rw [hstep]
    by_cases hd : d ∈ callGroup ∧ d ∉ cands
    · rw [if_pos hd]
      have hnodup' : (cands ++ [d]).Nodup := by
        apply List.Nodup.append hnodup (List.nodup_singleton d)
        intro c hc hc'
        rw [List.mem_singleton.mp hc'] at hc
        exact hd.2 hc
      obtain ⟨h₁, h₂, h₃, h₄, h₅⟩ := ih (cands ++ [d]) hnodup'
      refine ⟨h₁, fun c hc => h₂ c (List.mem_append_left _ hc), fun c hc hmem => ?_, fun c hc => ?_, ?_⟩
      · cases List.mem_cons.mp hc with
        | inl heq =>
          rw [heq]
          exact h₂ d (List.mem_append_right _ (List.mem_singleton_self d))
        | inr hc => exact h₃ c hc hmem
      · cases h₄ c hc with
        | inl h =>
          cases List.mem_append.mp h with
          | inl h => exact Or.inl h
          | inr h =>
            rw [List.mem_singleton.mp h]
            exact Or.inr ⟨List.mem_cons_self, hd.1⟩
        | inr h => exact Or.inr ⟨List.mem_cons_of_mem _ h.1, h.2⟩
      · rw [List.length_append, List.length_singleton] at h₅
        rw [List.length_cons]
        omega
    · rw [if_neg hd]
      obtain ⟨h₁, h₂, h₃, h₄, h₅⟩ := ih cands hnodup
      refine ⟨h₁, h₂, fun c hc hmem => ?_, fun c hc => ?_, ?_⟩
      · cases List.mem_cons.mp hc with
        | inl heq =>
          rw [heq] at hmem ⊢
          apply h₂ d
          by_contra hnot
          exact hd ⟨hmem, hnot⟩
        | inr hc => exact h₃ c hc hmem
      · exact (h₄ c hc).imp_right fun h => ⟨List.mem_cons_of_mem _ h.1, h.2⟩
      · rw [List.length_cons]
        omega

theorem not_ancestor_self (x : Nat) : ¬ g.Ancestor x x := fun h => Nat.lt_irrefl x (ancestor_lt g h)

/-- A candidate that is left out. -/
theorem Growing.drop {callGroup ancestors : List Nat} {sub : SubGroup} {node : Nat} {cands : List Nat}
    (h : Growing g callGroup sub) (hcands : sub.candNodes = node :: cands)
    (hnode : node ∈ sub.unfusedNodes ++ ancestors)
    (hclosed : ∀ x ∈ ancestors, ∀ y, g.Ancestor y x → y ∈ ancestors) :
    Growing g callGroup
      { sub with candNodes := cands, unfusedNodes := sub.unfusedNodes ++ ancestors } := by
  obtain ⟨hnodup, hapart, hdep, hcovered, hold⟩ := h
  rw [hcands] at hnodup hapart hdep
  refine ⟨(List.nodup_cons.mp hnodup).2, fun c hc => hapart c (List.mem_cons_of_mem _ hc),
    fun c hc => hdep c (List.mem_cons_of_mem _ hc), fun m hm d hd hleft => ?_, fun x hx y hy => ?_⟩
  · cases hcovered m hm d hd hleft with
    | inl hmem =>
      rw [hcands] at hmem
      cases List.mem_cons.mp hmem with
      | inl heq =>
        rw [heq]
        exact Or.inr hnode
      | inr hmem => exact Or.inl hmem
    | inr hmem => exact Or.inr (List.mem_append_left _ hmem)
  · cases List.mem_append.mp hx with
    | inl hx => exact List.mem_append_left _ (hold x hx y hy)
    | inr hx => exact List.mem_append_right _ (hclosed x hx y hy)

/-- The invariant is kept by every step. -/
theorem Inv.step (hdepends : ∀ c ∈ g.calls, (g.depends c).Nodup) (h : Inv g st)
    (hmoves : Moves g fuel st st') : Inv g st' := by
  cases hmoves with
  | opens last hsub hlast =>
    have hmembers : st.members = [] := by simp [State.members, hsub]
    have hperm := h.perm
    rw [hmembers, List.append_nil] at hperm
    refine ⟨?_, fun sub hsome => ?_⟩
    · show (st.callGroup.erase last ++ [last] ++ st.partialGroup.flatten).Perm g.calls
      apply List.Perm.trans _ hperm
      apply List.Perm.append_right
      exact (List.perm_append_singleton last _).trans (List.perm_cons_erase hlast).symm
    · obtain rfl := Option.some.inj hsome
      refine ⟨hdepends last (h.callGroup_calls hlast), fun c hc hc' => ?_, fun c hc => ?_,
        fun m hm d hd _ => ?_, fun x hx => absurd hx List.not_mem_nil⟩
      · rw [List.mem_singleton.mp hc'] at hc
        exact not_ancestor_self last (.single hc)
      · exact ⟨last, List.mem_singleton_self last, hc⟩
      · rw [List.mem_singleton.mp hm] at hd
        exact Or.inl hd
  | closes sub group hsub hcands hsort =>
    have hmembers : st.members = sub.members := by simp [State.members, hsub]
    have hsorted := topoSort_perm g (hmembers ▸ h.members_nodup) hsort
    refine ⟨?_, fun sub hsome => by cases hsome⟩
    show (st.callGroup ++ [] ++ (st.partialGroup ++ [group]).flatten).Perm g.calls
    have hperm := h.perm
    rw [hmembers] at hperm
    apply List.Perm.trans _ hperm
    rw [List.append_nil, List.flatten_append, List.flatten_singleton, List.append_assoc]
    apply List.Perm.append_left
    exact (hsorted.append_left _).trans List.perm_append_comm
  | skips sub node cands hsub hcands hfuse hun =>
    have hmembers : st.members = sub.members := by simp [State.members, hsub]
    have hperm := h.perm
    rw [hmembers] at hperm
    refine ⟨hperm, fun sub' hsome => ?_⟩
    obtain rfl := Option.some.inj hsome
    have hdrop : Growing g st.callGroup
        { sub with candNodes := cands, unfusedNodes := sub.unfusedNodes ++ [] } :=
      (h.growing sub hsub).drop hcands (by simpa using hun) (fun x hx => absurd hx List.not_mem_nil)
    simpa using hdrop
  | rejects sub node cands ancestors hsub hcands hfuse hanc =>
    have hmembers : st.members = sub.members := by simp [State.members, hsub]
    have hperm := h.perm
    rw [hmembers] at hperm
    refine ⟨hperm, fun sub' hsome => ?_⟩
    obtain rfl := Option.some.inj hsome
    have hspec := getAllAncestor_spec g hanc
    apply (h.growing sub hsub).drop hcands
    · exact List.mem_append_right _ ((hspec node).mpr .refl)
    · intro x hx y hy
      exact (hspec y).mpr (hy.to_reflTransGen.trans ((hspec x).mp hx))
  | takes sub node cands hsub hcands hfuse hun hnode =>
    have hmembers : st.members = sub.members := by simp [State.members, hsub]
    have hperm := h.perm
    rw [hmembers] at hperm
    refine ⟨?_, fun sub' hsome => ?_⟩
    · show (st.callGroup.erase node ++ (sub.members ++ [node]) ++ st.partialGroup.flatten).Perm g.calls
      apply List.Perm.trans _ hperm
      apply List.Perm.append_right
      have hback : (node :: st.callGroup.erase node).Perm st.callGroup :=
        (List.perm_cons_erase hnode).symm
      apply List.Perm.trans _ (hback.append_right sub.members)
      rw [← List.append_assoc]
      exact (List.perm_append_singleton node _)
    · obtain rfl := Option.some.inj hsome
      obtain ⟨hnodup, hapart, hdep, hcovered, hold⟩ := h.growing sub hsub
      rw [hcands] at hnodup hapart hdep
      obtain ⟨hnotin, hnodup⟩ := List.nodup_cons.mp hnodup
      obtain ⟨h₁, h₂, h₃, h₄, -⟩ := pushCands_spec (st.callGroup.erase node) (g.depends node) cands
        hnodup
      have herase : ∀ x, x ∈ st.callGroup.erase node → x ∈ st.callGroup ∧ x ≠ node := by
        intro x hx
        have hx := h.callGroup_nodup.mem_erase_iff.mp hx
        exact ⟨hx.2, hx.1⟩
      refine ⟨h₁, fun c hc hc' => ?_, fun c hc => ?_, fun m hm d hd hleft => ?_, hold⟩
      · cases List.mem_append.mp hc' with
        | inl hmem =>
          cases h₄ c hc with
          | inl hc => exact hapart c (List.mem_cons_of_mem _ hc) hmem
          | inr hc =>
            apply h.apart (herase c hc.2).1
            rw [hmembers]
            exact hmem
        | inr hmem =>
          rw [List.mem_singleton.mp hmem] at hc
          cases h₄ node hc with
          | inl hc => exact hnotin hc
          | inr hc => exact (herase node hc.2).2 rfl
      · cases h₄ c hc with
        | inl hc =>
          obtain ⟨m, hm, hcm⟩ := hdep c (List.mem_cons_of_mem _ hc)
          exact ⟨m, List.mem_append_left _ hm, hcm⟩
        | inr hc => exact ⟨node, List.mem_append_right _ (List.mem_singleton_self node), hc.1⟩
      · cases List.mem_append.mp hm with
        | inl hm =>
          obtain ⟨hleft, hne⟩ := herase d hleft
          cases hcovered m hm d hd hleft with
          | inl hmem =>
            rw [hcands] at hmem
            exact Or.inl (h₂ d ((List.mem_cons.mp hmem).resolve_left hne))
          | inr hmem => exact Or.inr hmem
        | inr hm =>
          rw [List.mem_singleton.mp hm] at hd
          exact Or.inl (h₃ d hd hleft)

end StencilGraph.Dnn

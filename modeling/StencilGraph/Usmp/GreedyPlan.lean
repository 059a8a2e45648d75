import StencilGraph.Usmp.Greedy

namespace StencilGraph.Usmp
open Framework

/-- There is room for `b` in the pool of the placed conflict `c`, right after it. -/
def hasRoom (ws : Workspace) (b c : BufferRef) (x : PoolAllocation) : Bool :=
  match nextOffset (ws.buffer c) x with
  | none => false
  | some next => isValidPlacement (ws.pool x.poolInfo) next (sizeT (ws.buffer b).sizeBytes)

/-- What placing `b` needs of the placements before it: a conflict that leaves no room in its pool is
not followed by one in the same pool that does, and the offsets after the conflicts fit an `int`. -/
structure StepMeets (ws : Workspace) (allocs : PoolAllocations) (b : BufferRef) : Prop where
  noReturn : (ws.buffer b).conflicts.Pairwise (fun c d => ∀ x y, allocs c = some x →
    allocs d = some y → x.poolInfo = y.poolInfo → hasRoom ws b c x = false → hasRoom ws b d y = false)
  small : ∀ c ∈ (ws.buffer b).conflicts, ∀ x, allocs c = some x → (ws.buffer c).alignment < 2^31 ∧
    roundUp (x.byteOffset + (ws.buffer c).sizeBytes) (ws.buffer c).alignment < 2^31

/-- Every placement of the run meets `StepMeets` in the state before it. -/
def RunMeets (ws : Workspace) : List BufferRef → PoolAllocations → Prop
  | [], _ => True
  | b :: bs, allocs => StepMeets ws allocs b ∧
      ∀ allocs', placeBuffer ws allocs b = some allocs' → RunMeets ws bs allocs'

theorem nextOffset_eq (c : BufferInfo) (x : PoolAllocation) (hx : 0 ≤ x.byteOffset)
    (ha : c.alignment < 2^31) (hr : roundUp (x.byteOffset + c.sizeBytes) c.alignment < 2^31) :
    nextOffset c x = some (roundUp (x.byteOffset + c.sizeBytes) c.alignment).toNat := by
  have hpos : 0 < c.alignment := by have := c.alignment_pos; omega
  have he : 0 ≤ x.byteOffset + c.sizeBytes := by have := c.size_nonneg; omega
  have hle := le_roundUp (x.byteOffset + c.sizeBytes) c.alignment hpos
  have hn := roundUp_nonneg (x.byteOffset + c.sizeBytes) c.alignment hpos he
  generalize hE : x.byteOffset + c.sizeBytes = e at *
  have hs : (sizeT e : Int) = e := sizeT_of_nonneg e he (by omega)
  have hA : (sizeT (int32 c.alignment) : Int) = c.alignment := by
    rw [int32_of_small _ (by omega) ha]
    exact sizeT_of_nonneg _ (by omega) (by omega)
  simp only [nextOffset, roundUpToByteAlignment, hE]
  generalize sizeT e = E at *
  generalize sizeT (int32 c.alignment) = A at *
  have hA0 : A ≠ 0 := by omega
  rw [if_neg hA0]
  have hsum : (E + A + (2^64 - 1)) % 2^64 = E + A - 1 := by omega
  have hval : (((E + A - 1) / A * A : Nat) : Int) = roundUp e c.alignment := by
    have hc : ((E + A - 1 : Nat) : Int) = e + c.alignment - 1 := by omega
    rw [Nat.cast_mul, Int.natCast_div, hc, hA]
    rfl
  rw [hsum]
  exact congrArg some (by omega)

theorem isValidPlacement_within (ws : Workspace) (b : BufferRef) (p : PoolRef) (o : Nat)
    (ho : o < 2^31)
    (h : isValidPlacement (ws.pool p) o (sizeT (ws.buffer b).sizeBytes) = true) :
    WithinHint ws b ⟨p, o⟩ := by
  unfold isValidPlacement at h
  unfold WithinHint
  split at h
  · exact Or.inl ‹_›
  · right
    rename_i hne
    have h0 := (ws.buffer b).size_nonneg
    have h1 := (ws.buffer b).size_lt
    have hh := (ws.pool p).hint_ge
    have hs := sizeT_of_nonneg (ws.buffer b).sizeBytes h0 (by omega)
    have hp : sizeT (ws.pool p).sizeHintBytes ≤ (ws.pool p).sizeHintBytes.toNat := by
      unfold sizeT kUnrestrictedPoolSizeHint at *
      omega
    have hm := of_decide_eq_true h
    unfold kUnrestrictedPoolSizeHint at hne
    dsimp only
    omega

/-- The entry of pool `p` in `pool_offset_candidates` once the conflicts in `l` have been visited. -/
def EntryAfter (ws : Workspace) (allocs : PoolAllocations) (b : BufferRef) (l : List BufferRef)
    (p : PoolRef) : Option Nat → Prop
  | some o => o < 2^31 ∧ isValidPlacement (ws.pool p) o (sizeT (ws.buffer b).sizeBytes) = true ∧
      ∀ c ∈ l, ∀ x, allocs c = some x → x.poolInfo = p →
        x.byteOffset + (ws.buffer c).sizeBytes ≤ o
  | none => ∀ c ∈ l, ∀ x, allocs c = some x → x.poolInfo = p →
      ∃ d ∈ l, ∃ y, allocs d = some y ∧ y.poolInfo = p ∧ hasRoom ws b d y = false

def OffsetsAfter (ws : Workspace) (allocs : PoolAllocations) (b : BufferRef) (l : List BufferRef)
    (m : PoolOffsets) : Prop := ∀ p, EntryAfter ws allocs b l p (m p)

theorem initialCandidates_after (ws : Workspace) (allocs : PoolAllocations) (b : BufferRef) :
    OffsetsAfter ws allocs b [] (initialCandidates ws (ws.buffer b)) := by
  unfold initialCandidates
  have h0 : OffsetsAfter ws allocs b [] (fun _ => none) := by intro p; simp [EntryAfter]
  generalize (fun _ => none : PoolOffsets) = m at h0 ⊢
  induction (ws.buffer b).poolCandidates generalizing m with
  | nil => exact h0
  | cons q qs ih =>
    apply ih
    intro p
    dsimp only
    split
    · by_cases hq : p = q
      · subst hq
        rw [Function.update_self]
        exact ⟨by omega, ‹_›, by simp⟩
      · rw [Function.update_of_ne hq]
        exact h0 p
    · exact h0 p

variable {ws : Workspace} {allocs : PoolAllocations} {b c : BufferRef} {l : List BufferRef}
  {p : PoolRef}

/-- A conflict that is not placed in `p` does not touch the entry of `p`. -/
theorem entryAfter_skip {r : Option Nat} (hc : ∀ x, allocs c = some x → x.poolInfo ≠ p)
    (h : EntryAfter ws allocs b l p r) : EntryAfter ws allocs b (l ++ [c]) p r := by
  cases r with
  | some o =>
    refine ⟨h.1, h.2.1, ?_⟩
    intro d hd x hx hxp
    rcases List.mem_append.mp hd with hd | hd
    · exact h.2.2 d hd x hx hxp
    · rw [List.mem_singleton] at hd
      subst hd
      exact absurd hxp (hc x hx)
  | none =>
    intro d hd x hx hxp
    rcases List.mem_append.mp hd with hd | hd
    · obtain ⟨e, he, y, hy⟩ := h d hd x hx hxp
      exact ⟨e, by simp [he], y, hy⟩
    · rw [List.mem_singleton] at hd
      subst hd
      exact absurd hxp (hc x hx)

/-- A conflict that leaves room raises the entry of its pool. Were the entry lost before, an earlier
conflict without room would be followed by this one. -/
theorem entryAfter_raise {a : PoolAllocation} {next : Nat} {r : Option Nat}
    (hc : allocs c = some a) (hn : next < 2^31)
    (hend : a.byteOffset + (ws.buffer c).sizeBytes ≤ next)
    (hv : isValidPlacement (ws.pool p) next (sizeT (ws.buffer b).sizeBytes) = true)
    (hroom : ∀ d ∈ l, ∀ x, allocs d = some x → x.poolInfo = p → hasRoom ws b d x = true)
    (h : EntryAfter ws allocs b l p r) :
    EntryAfter ws allocs b (l ++ [c]) p
      (some (if next > r.getD 0 then next else r.getD 0)) := by
  have hlast (o : Nat) (ho : next ≤ o)
      (hl : ∀ d ∈ l, ∀ x, allocs d = some x → x.poolInfo = p →
        x.byteOffset + (ws.buffer d).sizeBytes ≤ o) :
      ∀ d ∈ l ++ [c], ∀ x, allocs d = some x → x.poolInfo = p →
        x.byteOffset + (ws.buffer d).sizeBytes ≤ o := by
    intro d hd x hx hxp
    rcases List.mem_append.mp hd with hd | hd
    · exact hl d hd x hx hxp
    · rw [List.mem_singleton] at hd
      subst hd
      have hxa : x = a := by simpa [hc] using hx.symm
      rw [hxa]
      omega
  cases r with
  | none =>
    have hno : ∀ d ∈ l, ∀ x, allocs d = some x → x.poolInfo ≠ p := by
      intro d hd x hx hxp
      obtain ⟨e, he, y, hy, hyp, hf⟩ := h d hd x hx hxp
      exact absurd (hroom e he y hy hyp) (by simp [hf])
    have hN : (if next > (none : Option Nat).getD 0 then next else (none : Option Nat).getD 0)
        = next := by
      simp only [Option.getD_none]
      split <;> omega
    rw [hN]
    exact ⟨hn, hv, hlast next le_rfl (fun d hd x hx hxp => absurd hxp (hno d hd x hx))⟩
  | some cur =>
    simp only [Option.getD_some]
    split
    · refine ⟨hn, hv, hlast next le_rfl ?_⟩
      intro d hd x hx hxp
      have := h.2.2 d hd x hx hxp
      omega
    · exact ⟨h.1, h.2.1, hlast cur (by omega) h.2.2⟩

theorem visitConflict_after {m m' : PoolOffsets} (hm : OffsetsAfter ws allocs b l m)
    (h0 : ∀ x, allocs c = some x → 0 ≤ x.byteOffset)
    (hsmall : ∀ x, allocs c = some x → (ws.buffer c).alignment < 2^31 ∧
      roundUp (x.byteOffset + (ws.buffer c).sizeBytes) (ws.buffer c).alignment < 2^31)
    (hret : ∀ d ∈ l, ∀ x y, allocs d = some x → allocs c = some y → x.poolInfo = y.poolInfo →
      hasRoom ws b d x = false → hasRoom ws b c y = false)
    (h : visitConflict ws allocs (ws.buffer b) m c = some m') :
    OffsetsAfter ws allocs b (l ++ [c]) m' := by
  intro p
  unfold visitConflict at h
  cases hc : allocs c with
  | none =>
    simp only [hc, Option.some.injEq] at h
    rw [← h]
    exact entryAfter_skip (by simp [hc]) (hm p)
  | some a =>
    have hs := hsmall a hc
    have hnext := nextOffset_eq (ws.buffer c) a (h0 a hc) hs.1 hs.2
    have hle := le_roundUp (a.byteOffset + (ws.buffer c).sizeBytes) (ws.buffer c).alignment
      (by have := (ws.buffer c).alignment_pos; omega)
    generalize hN : (roundUp (a.byteOffset + (ws.buffer c).sizeBytes)
      (ws.buffer c).alignment).toNat = next at hnext
    have hroom : hasRoom ws b c a =
        isValidPlacement (ws.pool a.poolInfo) next (sizeT (ws.buffer b).sizeBytes) := by
      simp only [hasRoom, hnext]
    simp only [hc, hnext] at h
    by_cases hpa : p = a.poolInfo
    · subst hpa
      split at h
      · rename_i hv
        rw [← Option.some.inj h, Function.update_self]
        refine entryAfter_raise hc (by omega) (by omega) hv ?_ (hm _)
        intro d hd x hx hxp
        by_contra hf
        have := hret d hd x a hx hc hxp (by simpa using hf)
        simp [hroom, hv] at this
      · rename_i hv
        rw [← Option.some.inj h, Function.update_self]
        intro d hd x hx hxp
        exact ⟨c, by simp, a, hc, rfl, by rw [hroom]; simpa using hv⟩
    · have hskip : ∀ x, allocs c = some x → x.poolInfo ≠ p := by
        intro x hx
        have hxa : x = a := by simpa [hc] using hx.symm
        rw [hxa]
        exact Ne.symm hpa
      split at h <;> rw [← Option.some.inj h, Function.update_of_ne hpa] <;>
        exact entryAfter_skip hskip (hm p)

theorem visitConflicts_after {m m' : PoolOffsets} (rest : List BufferRef)
    (hm : OffsetsAfter ws allocs b l m) (hstep : StepMeets ws allocs b)
    (hl : (ws.buffer b).conflicts = l ++ rest)
    (h0 : ∀ c x, allocs c = some x → 0 ≤ x.byteOffset)
    (h : rest.foldlM (visitConflict ws allocs (ws.buffer b)) m = some m') :
    OffsetsAfter ws allocs b (ws.buffer b).conflicts m' := by
  induction rest generalizing l m with
  | nil =>
    have : m = m' := by simpa using h
    rw [hl, List.append_nil, ← this]
    exact hm
  | cons c rest ih =>
    simp only [List.foldlM_cons, Option.bind_eq_bind, Option.bind_eq_some_iff] at h
    obtain ⟨m₁, h₁, h⟩ := h
    have hpair := hstep.noReturn
    rw [hl, List.pairwise_append] at hpair
    have hvisit := visitConflict_after hm (h0 c) (hstep.small c (by simp [hl]))
      (fun d hd => hpair.2.2 d hd c (by simp)) h₁
    exact ih hvisit (by simp [hl]) h

/-- What the placed buffers satisfy in every state of the run. -/
structure Placed (ws : Workspace) (allocs : PoolAllocations) : Prop where
  within : ∀ b x, allocs b = some x → 0 ≤ x.byteOffset ∧
    x.poolInfo ∈ (ws.buffer b).poolCandidates ∧ WithinHint ws b x
  disjoint : ∀ b c x y, b ≠ c → Conflicting ws b c → allocs b = some x → allocs c = some y →
    x.poolInfo = y.poolInfo → DisjointRanges ws b c x y

/-- A buffer is placed in a candidate pool, apart from the placed buffers it conflicts with. -/
theorem Placed.update (hp : Placed ws allocs) {q : PoolRef} {o : Int} (h0 : 0 ≤ o)
    (hcand : q ∈ (ws.buffer b).poolCandidates) (hwithin : WithinHint ws b ⟨q, o⟩)
    (hapart : ∀ c x, c ≠ b → Conflicting ws b c ∨ Conflicting ws c b → allocs c = some x →
      x.poolInfo = q → DisjointRanges ws c b x ⟨q, o⟩) :
    Placed ws (Function.update allocs b (some ⟨q, o⟩)) := by
  refine ⟨?_, ?_⟩
  · intro c x hx
    by_cases hcb : c = b
    · subst hcb
      rw [Function.update_self, Option.some.injEq] at hx
      subst hx
      exact ⟨h0, hcand, hwithin⟩
    · rw [Function.update_of_ne hcb] at hx
      exact hp.within c x hx
  · intro c d x y hcd hconf hx hy hxy
    by_cases hcb : c = b
    · subst hcb
      rw [Function.update_self, Option.some.injEq] at hx
      rw [Function.update_of_ne (Ne.symm hcd)] at hy
      subst hx
      exact (hapart d y (Ne.symm hcd) (.inl hconf) hy hxy.symm).symm
    · rw [Function.update_of_ne hcb] at hx
      by_cases hdb : d = b
      · subst hdb
        rw [Function.update_self, Option.some.injEq] at hy
        subst hy
        exact hapart c x hcb (.inr hconf) hx hxy
      · rw [Function.update_of_ne hdb] at hy
        exact hp.disjoint c d x y hcd hconf hx hy hxy

theorem placeBuffer_placed {allocs' : PoolAllocations} (hsym : Symmetric ws)
    (hp : Placed ws allocs) (hstep : StepMeets ws allocs b)
    (h : placeBuffer ws allocs b = some allocs') :
    Placed ws allocs' ∧ (allocs' b).isSome ∧ ∀ c, (allocs c).isSome → (allocs' c).isSome := by
  simp only [placeBuffer, Option.bind_eq_bind, Option.bind_eq_some_iff, Option.some.injEq] at h
  obtain ⟨m, hm, q, hq, rfl⟩ := h
  have hafter := visitConflicts_after (ws.buffer b).conflicts (initialCandidates_after ws allocs b)
    hstep rfl (fun c x hx => (hp.within c x hx).1) hm
  unfold selectPlacementPool at hq
  have hsel : (m q).isSome = true := by simpa using List.find?_some hq
  have hcand : q ∈ (ws.buffer b).poolCandidates := List.mem_of_find?_eq_some hq
  obtain ⟨o, ho⟩ := Option.isSome_iff_exists.mp hsel
  have hentry := hafter q
  rw [ho] at hentry
  obtain ⟨hlt, hv, habove⟩ := hentry
  have hoff : int32 ((m q).getD 0 : Nat) = (o : Int) := by
    rw [ho, Option.getD_some]
    exact int32_of_small _ (by omega) (by omega)
  rw [hoff]
  have hw := isValidPlacement_within ws b q o hlt hv
  refine ⟨hp.update (by omega) hcand hw ?_, by simp, ?_⟩
  · intro c x _ hconf hx hxq
    have hbc : Conflicting ws b c := hconf.elim id (hsym c b)
    exact Or.inl (habove c hbc x hx hxq)
  · intro c hc
    by_cases hcb : c = b
    · simp [hcb]
    · rwa [Function.update_of_ne hcb]

theorem placeBuffers_placed {allocs' : PoolAllocations} (vec : List BufferRef) (hsym : Symmetric ws)
    (hp : Placed ws allocs) (hrun : RunMeets ws vec allocs)
    (h : vec.foldlM (placeBuffer ws) allocs = some allocs') :
    Placed ws allocs' ∧ (∀ c ∈ vec, (allocs' c).isSome) ∧
      ∀ c, (allocs c).isSome → (allocs' c).isSome := by
  induction vec generalizing allocs with
  | nil =>
    have : allocs = allocs' := by simpa using h
    subst this
    exact ⟨hp, by simp, fun _ hc => hc⟩
  | cons b vec ih =>
    simp only [List.foldlM_cons, Option.bind_eq_bind, Option.bind_eq_some_iff] at h
    obtain ⟨allocs₁, h₁, h⟩ := h
    obtain ⟨hp₁, hb, hmono⟩ := placeBuffer_placed hsym hp hrun.1 h₁
    obtain ⟨hp', hall, hmono'⟩ := ih hp₁ (hrun.2 allocs₁ h₁) h
    refine ⟨hp', ?_, fun c hc => hmono' c (hmono c hc)⟩
    intro c hc
    rcases List.mem_cons.mp hc with rfl | hc
    · exact hmono' c hb
    · exact hall c hc

/-- In every run whose placements all meet the condition, the plan is valid. -/
theorem greedy_plan_valid (ws : Workspace) (arr vec : List BufferRef) (allocs : PoolAllocations)
    (hsort : StdSort ws GreedySize.less arr vec ∨ StdSort ws GreedyConflicts.less arr vec)
    (hsym : Symmetric ws) (hrun : RunMeets ws vec (fun _ => none))
    (h : postSortAllocation ws vec = some allocs) : ValidPlan ws arr allocs := by
  obtain ⟨hp, hall, -⟩ := placeBuffers_placed vec hsym ⟨by simp, by simp⟩ hrun h
  refine ⟨?_, hp.disjoint⟩
  intro b hb
  have hmem : b ∈ vec := by
    rcases hsort with hs | hs <;> exact hs.1.mem_iff.mpr hb
  obtain ⟨x, hx⟩ := Option.isSome_iff_exists.mp (hall b hmem)
  exact ⟨x, hx, hp.within b x hx⟩

/-- One pool of `hint` bytes and three buffers, the third in conflict with the others. -/
def threeBuffers (hint sizeA sizeB sizeC : Fin 256) : Workspace where
  pool _ := ⟨(hint : Nat), by omega⟩
  buffer
    | 0 => ⟨"a", (sizeA : Nat), [0], 1, [2], by omega, by omega, by decide, by decide⟩
    | 1 => ⟨"b", (sizeB : Nat), [0], 1, [2], by omega, by omega, by decide, by decide⟩
    | 2 => ⟨"c", (sizeC : Nat), [0], 1, [0, 1], by omega, by omega, by decide, by decide⟩
    | _ => ⟨"", 0, [], 1, [], by decide, by decide, by decide, by decide⟩

theorem threeBuffers_symmetric (hint sizeA sizeB sizeC : Fin 256) :
    Symmetric (threeBuffers hint sizeA sizeB sizeC) := by
  intro a b hab
  match a with
  | 0 => simp_all [Conflicting, threeBuffers]
  | 1 => simp_all [Conflicting, threeBuffers]
  | 2 =>
    have : b = 0 ∨ b = 1 := by simpa [Conflicting, threeBuffers] using hab
    rcases this with rfl | rfl <;> simp [Conflicting, threeBuffers]
  | n + 3 => simp [Conflicting, threeBuffers] at hab

/-- The first buffer fills the pool up to byte 90, so the third has no room after it; the second
ends at byte 20 and brings the pool back, and the third lands inside the first. -/
theorem greedy_plan_overlaps :
    ¬ ∀ (ws : Workspace) (arr vec : List BufferRef) (allocs : PoolAllocations),
      StdSort ws GreedySize.less arr vec → Symmetric ws → postSortAllocation ws vec = some allocs →
      ValidPlan ws arr allocs := by
  intro hall
  let ws := threeBuffers 100 90 20 15
  have hsort : StdSort ws GreedySize.less [0, 1, 2] [0, 1, 2] := ⟨List.Perm.refl _, by decide⟩
  obtain ⟨allocs, hrun⟩ : ∃ allocs, postSortAllocation ws [0, 1, 2] = some allocs :=
    Option.isSome_iff_exists.mp (by decide)
  have hval : (postSortAllocation ws [0, 1, 2]).map (fun f => (f 0, f 2)) =
      some (some ⟨0, 0⟩, some ⟨0, 20⟩) := by decide
  simp only [hrun, Option.map_some, Option.some.injEq, Prod.mk.injEq] at hval
  have hd := (hall ws _ _ _ hsort (threeBuffers_symmetric 100 90 20 15) hrun).disjoint 0 2 _ _ (by decide)
    (by simp [Conflicting, ws, threeBuffers]) hval.1 hval.2 rfl
  exact absurd hd (by unfold DisjointRanges EndsBefore; decide)

theorem threeBuffers_runMeets : RunMeets (threeBuffers 200 90 20 15) [0, 1, 2] (fun _ => none) := by
  refine ⟨⟨by simp [threeBuffers], by simp⟩, ?_⟩
  intro allocs₁ h₁
  have hv₁ : (placeBuffer (threeBuffers 200 90 20 15) (fun _ => none) 0).map
      (fun f => (f 0, f 2)) = some (some ⟨0, 0⟩, none) := by decide
  simp only [h₁, Option.map_some, Option.some.injEq, Prod.mk.injEq] at hv₁
  refine ⟨⟨by simp [threeBuffers], by simp [threeBuffers, hv₁]⟩, ?_⟩
  intro allocs₂ h₂
  have hv₂ : (([0, 1] : List BufferRef).foldlM (placeBuffer (threeBuffers 200 90 20 15))
      (fun _ => none)).map (fun f => (f 0, f 1)) = some (some ⟨0, 0⟩, some ⟨0, 0⟩) := by decide
  simp only [List.foldlM_cons, List.foldlM_nil, h₁, h₂, Option.bind_eq_bind, Option.bind_some,
    Option.pure_def, Option.map_some, Option.some.injEq, Prod.mk.injEq] at hv₂
  refine ⟨⟨?_, ?_⟩, fun _ _ => trivial⟩
  · have hroom : hasRoom (threeBuffers 200 90 20 15) 2 0 ⟨0, 0⟩ = true := by decide
    simp [threeBuffers, hv₂] at hroom ⊢
    simp [hroom]
  · intro c hc x hx
    have : c = 0 ∨ c = 1 := by simpa [threeBuffers] using hc
    rcases this with rfl | rfl
    · obtain rfl : ⟨0, 0⟩ = x := by simpa [hv₂] using hx
      decide
    · obtain rfl : ⟨0, 0⟩ = x := by simpa [hv₂] using hx
      decide

/-- With 200 bytes the third buffer is placed after the first. -/
theorem greedy_plan_valid_three : ∃ allocs : PoolAllocations,
    postSortAllocation (threeBuffers 200 90 20 15) [0, 1, 2] = some allocs ∧
      ValidPlan (threeBuffers 200 90 20 15) [0, 1, 2] allocs := by
  obtain ⟨allocs, hrun⟩ : ∃ allocs,
      postSortAllocation (threeBuffers 200 90 20 15) [0, 1, 2] = some allocs :=
    Option.isSome_iff_exists.mp (by decide)
  exact ⟨allocs, hrun, greedy_plan_valid _ _ _ allocs (.inl ⟨List.Perm.refl _, by decide⟩)
    (threeBuffers_symmetric 200 90 20 15) threeBuffers_runMeets hrun⟩

end StencilGraph.Usmp

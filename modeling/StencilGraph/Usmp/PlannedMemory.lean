import StencilGraph.Framework.Packing
import StencilGraph.Usmp.Alignment
import StencilGraph.Usmp.LivenessSweep

namespace StencilGraph.Usmp
open Framework

/-- The buffers as the sweep leaves them: `info` holds what the visit has recorded besides. -/
def Recorded.workspace (r : Recorded) (hsize : ∀ b, r.sizeBytes b < 2^63) (pool : PoolRef → PoolInfo)
    (info : BufferRef → BufferInfo) (s : Sweep) : Workspace where
  pool := pool
  buffer b := { info b with
    sizeBytes := r.sizeBytes b
    conflicts := s.conflicts b
    size_nonneg := r.size_nonneg b
    size_lt := hsize b }

/-- The bytes of a pool that the placed buffers take end before `bound`. -/
def UsedBelow (ws : Workspace) (buffers : List BufferRef) (allocs : PoolAllocations) (p : PoolRef)
    (bound : Int) : Prop :=
  ∀ b ∈ buffers, ∀ x, allocs b = some x → x.poolInfo = p →
    x.byteOffset + (ws.buffer b).sizeBytes ≤ bound

namespace Recorded

variable {r : Recorded} {hsize : ∀ b, r.sizeBytes b < 2^63} {pool : PoolRef → PoolInfo}
  {info : BufferRef → BufferInfo} {iteration : SetOrder} {timeline : List LivenessEvent}
  {allocs : PoolAllocations} {a b : BufferRef} {x y : PoolAllocation} {tick : Nat} {p : PoolRef}
  {bound : Int}

theorem Live.overlap (ha : r.Live tick a) (hb : r.Live tick b) : r.Overlap a b := by
  obtain ⟨i, hi, hti⟩ := ha
  obtain ⟨j, hj, htj⟩ := hb
  exact ⟨i, hi, j, hj, tick, hti, htj⟩

theorem workspace_symmetric (hs : r.Sorted timeline) :
    Symmetric (r.workspace hsize pool info (Sweep.run r.sizeBytes iteration timeline)) := by
  intro a b hconf
  have hswept : Sweep.Swept r timeline (Sweep.run r.sizeBytes iteration timeline) :=
    Sweep.swept hs (List.append_nil timeline).symm
  show a ∈ (Sweep.run r.sizeBytes iteration timeline).conflicts b
  rw [hswept.conflicts]
  exact ((hswept.conflicts a b).mp hconf).symm

section Placed

variable (hs : r.Sorted timeline)
  (hp : Placed (r.workspace hsize pool info (Sweep.run r.sizeBytes iteration timeline)) allocs)

include hs hp

/-- Buffers that are live at one tick are apart in a plan that keeps conflicts apart. -/
theorem live_apart (ha : a ∈ r.buffers) (hb : b ∈ r.buffers) (hne : a ≠ b) (hla : r.Live tick a)
    (hlb : r.Live tick b) (hx : allocs a = some x) (hy : allocs b = some y)
    (hpool : x.poolInfo = y.poolInfo) :
    x.byteOffset + r.sizeBytes a ≤ y.byteOffset ∨ y.byteOffset + r.sizeBytes b ≤ x.byteOffset :=
  hp.disjoint a b x y hne ((sweep_conflicts hs ha hb hne).mpr (hla.overlap hlb)) hx hy hpool

/-- A pool holds at least the bytes that are live in it at a tick. -/
theorem live_sum_le (tick : Nat) (hbound : 0 ≤ bound)
    (hused : UsedBelow (r.workspace hsize pool info (Sweep.run r.sizeBytes iteration timeline))
      r.buffers allocs p bound) :
    ∑ b ∈ (r.buffers.toFinset.filter (r.Live tick)).filter
      (fun b => (allocs b).map PoolAllocation.poolInfo = some p), r.sizeBytes b ≤ bound := by
  have hplaced {b : BufferRef} (hb : b ∈ (r.buffers.toFinset.filter (r.Live tick)).filter
      (fun b => (allocs b).map PoolAllocation.poolInfo = some p)) :
      b ∈ r.buffers ∧ r.Live tick b ∧ ∃ x, allocs b = some x ∧ x.poolInfo = p := by
    rw [Finset.mem_filter, Finset.mem_filter, List.mem_toFinset] at hb
    exact ⟨hb.1.1, hb.1.2, Option.map_eq_some_iff.mp hb.2⟩
  have hpacked : Packed ((r.buffers.toFinset.filter (r.Live tick)).filter
      fun b => (allocs b).map PoolAllocation.poolInfo = some p)
      (fun b => ((allocs b).map PoolAllocation.byteOffset).getD 0) r.sizeBytes bound := by
    refine ⟨fun b hb => ?_, fun b hb => ?_, fun a ha b hb hne => ?_⟩
    · obtain ⟨-, -, x, hx, -⟩ := hplaced hb
      rw [hx]
      exact (hp.within b x hx).1
    · obtain ⟨hmem, -, x, hx, hpool⟩ := hplaced hb
      rw [hx]
      exact hused b hmem x hx hpool
    · obtain ⟨hmem, hlive, x, hx, hpool⟩ := hplaced ha
      obtain ⟨hmem', hlive', y, hy, hpool'⟩ := hplaced hb
      rw [hx, hy]
      exact live_apart hs hp hmem hmem' hne hlive hlive' hx hy (hpool.trans hpool'.symm)
  exact hpacked.sum_le hbound fun b _ => r.size_nonneg b

end Placed

end Recorded

theorem mem_vec {ws : Workspace} {arr vec : List BufferRef} {b : BufferRef}
    (hsort : StdSort ws GreedySize.less arr vec ∨ StdSort ws GreedyConflicts.less arr vec)
    (hb : b ∈ arr) : b ∈ vec := by
  cases hsort with
  | inl hsort => exact hsort.1.mem_iff.mpr hb
  | inr hsort => exact hsort.1.mem_iff.mpr hb

/-- Liveness analysis and greedy planning together: buffers that are live at one tick never share a
byte of a pool, and every buffer has a place within the hint of its pool. -/
theorem live_buffers_apart (r : Recorded) (hsize : ∀ b, r.sizeBytes b < 2^63)
    (pool : PoolRef → PoolInfo) (info : BufferRef → BufferInfo) (iteration : SetOrder)
    (timeline : List LivenessEvent) (vec : List BufferRef) (allocs : PoolAllocations) (ws : Workspace)
    (hs : r.Sorted timeline)
    (hws : ws = r.workspace hsize pool info (Sweep.run r.sizeBytes iteration timeline))
    (hsort : StdSort ws GreedySize.less r.buffers vec ∨ StdSort ws GreedyConflicts.less r.buffers vec)
    (hrun : RunMeets ws vec (fun _ => none)) (h : postSortAllocation ws vec = some allocs) :
    (∀ b ∈ r.buffers, ∃ x, allocs b = some x ∧ 0 ≤ x.byteOffset ∧ WithinHint ws b x) ∧
      ∀ tick, ∀ a ∈ r.buffers, ∀ b ∈ r.buffers, a ≠ b → r.Live tick a → r.Live tick b →
        ∀ x y, allocs a = some x → allocs b = some y → x.poolInfo = y.poolInfo →
          x.byteOffset + r.sizeBytes a ≤ y.byteOffset ∨
            y.byteOffset + r.sizeBytes b ≤ x.byteOffset := by
  subst hws
  obtain ⟨hp, hall, -⟩ := placeBuffers_placed vec (Recorded.workspace_symmetric hs)
    ⟨by simp, by simp⟩ hrun h
  constructor
  · intro b hb
    obtain ⟨x, hx⟩ := Option.isSome_iff_exists.mp (hall b (mem_vec hsort hb))
    exact ⟨x, hx, (hp.within b x hx).1, (hp.within b x hx).2.2⟩
  · intro tick a ha b hb hne hla hlb x y hx hy hpool
    exact Recorded.live_apart hs hp ha hb hne hla hlb hx hy hpool

/-- A hash set that is gone through in the order of its list. -/
def listOrder : SetOrder := ⟨id, fun l => List.Perm.refl l⟩

theorem twoLive_size_lt (b : BufferRef) : (twoLive 100).sizeBytes b < 2^63 := by
  show ((100 : Nat) : Int) < 2^63
  decide

/-- The two buffers of one hundred bytes in one pool without a hint. -/
def twoLiveWorkspace : Workspace :=
  (twoLive 100).workspace twoLive_size_lt (fun _ => ⟨-1, no_hint⟩)
    (fun _ => ⟨"", 0, [0], 2, [], nothing_nonneg, nothing_lt, two_pos, two_lt⟩)
    (Sweep.run (twoLive 100).sizeBytes listOrder twoLiveTimeline)

theorem twoLiveWorkspace_sorted : StdSort twoLiveWorkspace GreedySize.less (twoLive 100).buffers
    [0, 1] := ⟨List.Perm.refl _, by decide⟩

theorem twoLiveWorkspace_runMeets : RunMeets twoLiveWorkspace [0, 1] (fun _ => none) := by
  have hfirst : (twoLiveWorkspace.buffer 0).conflicts = [1] := by decide
  have hsecond : (twoLiveWorkspace.buffer 1).conflicts = [0] := by decide
  refine ⟨⟨by rw [hfirst]; exact List.pairwise_singleton _ _, by simp⟩, fun allocs h =>
    ⟨⟨by rw [hsecond]; exact List.pairwise_singleton _ _, fun c hc x hx => ?_⟩, fun _ _ => trivial⟩⟩
  have hplaced : (placeBuffer twoLiveWorkspace (fun _ => none) 0).map (fun f => f 0) =
      some (some ⟨0, 0⟩) := by decide
  rw [h, Option.map_some, Option.some.injEq] at hplaced
  rw [hsecond, List.mem_singleton] at hc
  obtain rfl := hc
  obtain rfl := Option.some.inj (hplaced.symm.trans hx)
  exact ⟨by decide, by decide⟩

theorem live_buffers_apart_two : ∃ allocs x y,
    postSortAllocation twoLiveWorkspace [0, 1] = some allocs ∧ allocs 0 = some x ∧
      allocs 1 = some y ∧ x.poolInfo = y.poolInfo ∧
      (x.byteOffset + 100 ≤ y.byteOffset ∨ y.byteOffset + 100 ≤ x.byteOffset) := by
  obtain ⟨allocs, hrun⟩ : ∃ allocs, postSortAllocation twoLiveWorkspace [0, 1] = some allocs :=
    Option.isSome_iff_exists.mp (by decide)
  have hplaces : (postSortAllocation twoLiveWorkspace [0, 1]).map (fun f => (f 0, f 1)) =
      some (some ⟨0, 0⟩, some ⟨0, 100⟩) := by decide
  rw [hrun, Option.map_some, Option.some.injEq, Prod.mk.injEq] at hplaces
  exact ⟨allocs, _, _, hrun, hplaces.1, hplaces.2, rfl,
    (live_buffers_apart (twoLive 100) twoLive_size_lt _ _ listOrder twoLiveTimeline [0, 1] allocs
      twoLiveWorkspace (twoLive_sorted 100) rfl (.inl twoLiveWorkspace_sorted)
      twoLiveWorkspace_runMeets hrun).2 0 0 (by decide) 1 (by decide) (by decide) (by decide)
      (by decide) _ _ hplaces.1 hplaces.2 rfl⟩

/-- The memory pressure that the analysis reports is a lower bound: no plan in one pool gets by with
fewer bytes. -/
theorem pressure_le_memory (r : Recorded) (hsize : ∀ b, r.sizeBytes b < 2^63)
    (pool : PoolRef → PoolInfo) (info : BufferRef → BufferInfo) (iteration : SetOrder)
    (timeline : List LivenessEvent) (vec : List BufferRef) (allocs : PoolAllocations) (ws : Workspace)
    (p : PoolRef) (bound : Int) (hs : r.Sorted timeline)
    (hws : ws = r.workspace hsize pool info (Sweep.run r.sizeBytes iteration timeline))
    (hsort : StdSort ws GreedySize.less r.buffers vec ∨ StdSort ws GreedyConflicts.less r.buffers vec)
    (hrun : RunMeets ws vec (fun _ => none)) (h : postSortAllocation ws vec = some allocs)
    (hpool : ∀ b ∈ r.buffers, (info b).poolCandidates = [p])
    (hlive : ∀ tick, r.liveSize tick < 2^31) (hbound : 0 ≤ bound)
    (hused : UsedBelow ws r.buffers allocs p bound) :
    (Sweep.run r.sizeBytes iteration timeline).maxOpenSetSize ≤ bound := by
  subst hws
  obtain ⟨hp, hall, -⟩ := placeBuffers_placed vec (Recorded.workspace_symmetric hs)
    ⟨by simp, by simp⟩ hrun h
  have hmaximum : IsGreatest (Set.range r.liveSize)
      (Sweep.run r.sizeBytes iteration timeline).maxOpenSetSize := Recorded.maximum_of_bound hs hlive
  obtain ⟨tick, htick⟩ := hmaximum.1
  have hone (b : BufferRef) (hb : b ∈ r.buffers.toFinset.filter (r.Live tick)) :
      (allocs b).map PoolAllocation.poolInfo = some p := by
    have hmem : b ∈ r.buffers := List.mem_toFinset.mp (Finset.mem_filter.mp hb).1
    obtain ⟨x, hx⟩ := Option.isSome_iff_exists.mp (hall b (mem_vec hsort hmem))
    have hcand : x.poolInfo ∈ (info b).poolCandidates := (hp.within b x hx).2.1
    rw [hpool b hmem, List.mem_singleton] at hcand
    rw [hx, Option.map_some, hcand]
  have hsum := Recorded.live_sum_le hs hp tick hbound hused
  rw [Finset.filter_true_of_mem hone] at hsum
  rw [← htick]
  exact hsum

theorem pressure_le_memory_two :
    (Sweep.run (twoLive 100).sizeBytes listOrder twoLiveTimeline).maxOpenSetSize ≤ 200 := by
  obtain ⟨allocs, hrun⟩ : ∃ allocs, postSortAllocation twoLiveWorkspace [0, 1] = some allocs :=
    Option.isSome_iff_exists.mp (by decide)
  have hplaces : (postSortAllocation twoLiveWorkspace [0, 1]).map (fun f => (f 0, f 1)) =
      some (some ⟨0, 0⟩, some ⟨0, 100⟩) := by decide
  rw [hrun, Option.map_some, Option.some.injEq, Prod.mk.injEq] at hplaces
  have hlive (tick : Nat) : (twoLive 100).liveSize tick < 2^31 := by
    have hle := twoLive_liveSize_le 100 tick
    omega
  have hused : UsedBelow twoLiveWorkspace (twoLive 100).buffers allocs 0 200 := by
    intro b hb x hx _
    have hcase : b = 0 ∨ b = 1 := by simpa [twoLive] using hb
    cases hcase with
    | inl heq =>
      obtain rfl := Option.some.inj (hplaces.1.symm.trans (heq ▸ hx))
      exact (show (0 : Int) + 100 ≤ 200 by decide)
    | inr heq =>
      obtain rfl := Option.some.inj (hplaces.2.symm.trans (heq ▸ hx))
      exact (show (100 : Int) + 100 ≤ 200 by decide)
  exact pressure_le_memory (twoLive 100) twoLive_size_lt _ _ listOrder twoLiveTimeline [0, 1]
    allocs twoLiveWorkspace 0 200 (twoLive_sorted 100) rfl (.inl twoLiveWorkspace_sorted)
    twoLiveWorkspace_runMeets hrun (fun _ _ => rfl) hlive (by decide) hused

end StencilGraph.Usmp

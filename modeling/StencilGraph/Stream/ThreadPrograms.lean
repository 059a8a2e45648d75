import StencilGraph.Stream.Threads

namespace StencilGraph.Stream
open Framework Relay Relation StreamSolver CodeGen GenMain CounterBarrier

/-- The programs of the threads in terms of the barrier protocol. -/
def programs (streams : Streams) (i : Fin streams.length) : List (Op Kernel Counter) :=
  threadOps streams[i]

section Programs

variable {levels : List (List Nat)} {keep : Nat → Bool} {i n x : Nat}

theorem launches_levelPart (l : List Nat) : launches ((levelPart keep i (l, n)).map Element.op) =
    (l[i]?).toList.map .call := by
  unfold levelPart
  split <;> cases l[i]? <;> rfl

theorem barriers_levelPart (l : List Nat) : barriers ((levelPart keep i (l, n)).map Element.op) =
    if n ≠ 0 ∧ keep n then [.sync n] else [] := by
  unfold levelPart
  split <;> cases l[i]? <;> rfl

theorem launches_streamFrom : launches ((streamFrom keep i n levels).map Element.op) =
    (levels.filterMap (·[i]?)).map .call := by
  induction levels generalizing n with
  | nil => rfl
  | cons l levels ih =>
    rw [streamFrom_cons, List.map_append, launches_append, launches_levelPart, ih, List.filterMap_cons]
    cases l[i]? <;> rfl

/-- The syncs of a stream do not depend on the stream. -/
theorem barriers_streamFrom : barriers ((streamFrom keep i n levels).map Element.op) =
    ((List.range' n levels.length).filter fun k => k ≠ 0 ∧ keep k).map .sync := by
  induction levels generalizing n with
  | nil => rfl
  | cons l levels ih =>
    rw [streamFrom_cons, List.map_append, barriers_append, barriers_levelPart, ih, List.length_cons,
      List.range'_succ, List.filter_cons]
    simp only [decide_eq_true_eq]
    split <;> rfl

/-- The barriers of all threads: `START`, then the syncs that are kept. -/
def keptCounters (keep : Nat → Bool) (levels : List (List Nat)) : List Counter :=
  .start :: ((List.range levels.length).filter fun k => k ≠ 0 ∧ keep k).map .sync

theorem nodup_keptCounters : (keptCounters keep levels).Nodup := by
  unfold keptCounters
  rw [List.nodup_cons]
  constructor
  · simp
  · apply List.Nodup.map
    · intro a b hab
      exact Counter.sync.inj hab
    · exact List.nodup_range.filter _

theorem sublist_flatten_filterMap : (levels.filterMap (·[i]?)).Sublist levels.flatten := by
  induction levels with
  | nil => exact List.Sublist.refl _
  | cons l levels ih =>
    rw [List.filterMap_cons, List.flatten_cons]
    cases hx : l[i]? with
    | none => exact ih.trans (List.sublist_append_right _ _)
    | some x =>
      have hmem := List.singleton_sublist.mpr (List.mem_of_getElem? hx)
      exact hmem.append ih

theorem length_streamsOf : (streamsOf keep levels).length = maxStreamNumber levels := by
  simp [streamsOf]

theorem programs_streamsOf (i : Fin (streamsOf keep levels).length) :
    programs (streamsOf keep levels) i = threadOps (streamFrom keep i 0 levels) := by
  unfold programs
  congr 1
  show ((List.range (maxStreamNumber levels)).map _)[(i : Nat)] = _
  rw [List.getElem_map, List.getElem_range]

theorem aligned_streamsOf (hn : levels.flatten.Nodup) :
    Aligned (programs (streamsOf keep levels)) (keptCounters keep levels) := by
  refine ⟨nodup_keptCounters, fun i => ?_, fun i => ?_⟩
  · rw [programs_streamsOf, threadOps, barriers_launch, barriers_barrier, barriers_streamFrom,
      ← List.range_eq_range']
    rfl
  · rw [programs_streamsOf, threadOps, launches_launch, launches_barrier, launches_streamFrom,
      List.nodup_cons]
    constructor
    · simp
    · apply List.Nodup.map
      · intro a b hab
        exact Kernel.call.inj hab
      · exact hn.sublist sublist_flatten_filterMap

/-- Every counter is compared with the number of threads. -/
theorem awaited_streamsOf : ∀ v ∈ keptCounters keep levels,
    awaited (streamsOf keep levels) v = Fintype.card (Fin (streamsOf keep levels).length) := by
  intro v hv
  rw [Fintype.card_fin]
  unfold keptCounters at hv
  cases List.mem_cons.mp hv with
  | inl hstart => rw [hstart, awaited]
  | inr hsync =>
    obtain ⟨k, hk, rfl⟩ := List.mem_map.mp hsync
    rw [List.mem_filter, List.mem_range, decide_eq_true_eq] at hk
    rw [awaited, syncVarLength, count_streamsOf, if_pos hk, length_streamsOf]

theorem mem_launches_op {l : List Element} : .call x ∈ launches (l.map Element.op) ↔ .call x ∈ l := by
  induction l with
  | nil => simp
  | cons e l ih =>
    cases e with
    | call y => simp [Element.op, ih]
    | sync k => simpa [Element.op] using ih

section Before

variable {a b k u l v : Nat} (ha : At levels a k u) (hb : At levels b l v)
  (i : Fin (streamsOf keep levels).length) (hi : i = u)

include ha hb hi

/-- In one stream the earlier level is launched first. -/
theorem before_same (hlk : l < k) (huv : u = v) :
    Before (programs (streamsOf keep levels)) i (.call b) (.call a) := by
  obtain ⟨before, level, after, rfl, hlen, hget⟩ := ha.split
  have hstream : streamFrom keep u 0 (before ++ level :: after) = (streamFrom keep u 0 before ++
      if k ≠ 0 ∧ keep k then [Element.sync k] else []) ++
        .call a :: streamFrom keep u (k + 1) after := by
    rw [streamFrom_append, streamFrom_cons, Nat.zero_add, hlen]
    simp [levelPart, hget]
  have hprog : programs (streamsOf keep (before ++ level :: after)) i =
      (.launch .warmUp :: .barrier .start :: ((streamFrom keep u 0 before ++
        if k ≠ 0 ∧ keep k then [Element.sync k] else []).map Element.op)) ++
        .launch (.call a) :: (streamFrom keep u (k + 1) after).map Element.op := by
    rw [programs_streamsOf, hi, hstream, threadOps, List.map_append, List.map_cons]
    rfl
  refine .same _ _ hprog ?_
  rw [launches_launch, launches_barrier, List.map_append, launches_append]
  apply List.mem_cons_of_mem
  apply List.mem_append_left
  rw [mem_launches_op, huv]
  exact (@At.mem_streamFrom keep 0 b _ _ l v hb).1 (by omega)

/-- A kept sync separates the levels before it from those after it. -/
theorem before_across {s : Nat} (hls : l < s) (hsk : s ≤ k) (hs : keep s = true) :
    Before (programs (streamsOf keep levels)) i (.call b) (.call a) := by
  have hlt : s < levels.length := by
    have := ha.lt.1
    omega
  obtain ⟨before, level, after, rfl, hlen⟩ : ∃ before level after,
      levels = before ++ level :: after ∧ before.length = s := by
    refine ⟨levels.take s, levels[s], levels.drop (s + 1), ?_, by simp; omega⟩
    rw [List.getElem_cons_drop, List.take_append_drop]
  have hprog (w : Nat) : threadOps (streamFrom keep w 0 (before ++ level :: after)) =
      (.launch .warmUp :: .barrier .start :: (streamFrom keep w 0 before).map Element.op) ++
        .barrier (.sync s) :: ((level[w]?).toList.map Element.call ++
          streamFrom keep w (s + 1) after).map Element.op := by
    have h0 : s ≠ 0 := by omega
    rw [streamFrom_append, streamFrom_cons, Nat.zero_add, hlen, threadOps]
    simp [levelPart, h0, hs, Element.op]
  have hv : v < (streamsOf keep (before ++ level :: after)).length := by
    rw [length_streamsOf]
    exact hb.lt.2
  have hprogi := programs_streamsOf i
  rw [hi, hprog u] at hprogi
  refine .across ⟨v, hv⟩ (.sync s) _ _ _ _ hprogi ?_ ((programs_streamsOf ⟨v, hv⟩).trans (hprog v)) ?_
  · rw [mem_launches_op]
    have hlater : .call a ∈ streamFrom keep u s (level :: after) := ha.mem_streamFrom.2 (by omega)
    rw [streamFrom_cons, List.mem_append] at hlater
    cases hlater with
    | inl hhere =>
      apply List.mem_append_left
      unfold levelPart at hhere
      split at hhere <;> simpa using hhere
    | inr hlater => exact List.mem_append_right _ hlater
  · rw [launches_launch, launches_barrier]
    apply List.mem_cons_of_mem
    rw [mem_launches_op]
    exact (@At.mem_streamFrom keep 0 b _ _ l v hb).1 (by omega)

end Before

/-- A call that is read stands before its reader in the same stream, or a barrier is between. -/
theorem before_of_covers {graph : Graph} {a b k u l v : Nat}
    (hcovers : Covers graph levels keep levels.length) (ha : At levels a k u) (hb : At levels b l v)
    (hlk : l < k) (hab : b ∈ graph.input a) (i : Fin (streamsOf keep levels).length) (hi : i = u) :
    Before (programs (streamsOf keep levels)) i (.call b) (.call a) := by
  by_cases huv : u = v
  · exact before_same ha hb i hi hlk huv
  · obtain ⟨s, hls, hsk, hs⟩ := hcovers a k u b l v ha hb ha.lt.1 hab huv
    exact before_across ha hb i hi hls hsk hs

end Programs

end StencilGraph.Stream

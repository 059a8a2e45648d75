import StencilGraph.Stream.ThreadRuns

namespace StencilGraph.Stream
open Framework Relay Relation StreamSolver CodeGen GenMain CounterBarrier

/-- The streams schedule the calls of `main`: what a call depends on is launched before it, or before
a barrier that its thread passes. -/
structure Scheduled (h : Heap) (b : Nat) (levels : List (List Nat)) (keep : Nat → Bool) : Prop where
  nodup : levels.flatten.Nodup
  mem : ∀ x, x ∈ levels.flatten ↔ TopCall h b x
  before : ∀ d x, Dep h b d x → ∀ k u, At levels x k u → ∀ i : Fin (streamsOf keep levels).length,
    i = u → Before (programs (streamsOf keep levels)) i (.call d) (.call x)

section Scheduled

variable {h : Heap} {b d x n : Nat} {levels : List (List Nat)} {keep : Nat → Bool} {machine : Machine}

theorem call_mem_programs {i : Fin (streamsOf keep levels).length} :
    .call x ∈ launches (programs (streamsOf keep levels) i) ↔ ∃ k, At levels x k i := by
  rw [programs_streamsOf, threadOps, launches_launch, launches_barrier, List.mem_cons,
    mem_launches_op, mem_streamFrom_call]
  constructor
  · intro hcase
    cases hcase with
    | inl hwarm => cases hwarm
    | inr hcall =>
      obtain ⟨level, hlevel, hget⟩ := hcall
      obtain ⟨k, hk⟩ := List.mem_iff_getElem?.mp hlevel
      exact ⟨k, level, hk, hget⟩
  · intro hat
    obtain ⟨k, level, hk, hget⟩ := hat
    exact Or.inr ⟨level, List.mem_of_getElem? hk, hget⟩

theorem launches_programs (i : Fin (streamsOf keep levels).length) :
    launches (programs (streamsOf keep levels) i) =
      .warmUp :: (levels.filterMap (·[(i : Nat)]?)).map .call := by
  rw [programs_streamsOf, threadOps, launches_launch, launches_barrier, launches_streamFrom]

theorem mem_completed {streams : Streams} : d ∈ machine.completed streams ↔
    ∃ i < streams.length, .call d ∈ (machine.threads i).finished := by
  unfold Machine.completed
  rw [List.mem_flatMap]
  constructor
  · intro ⟨i, hi, hd⟩
    obtain ⟨kernel, hkernel, hd⟩ := List.mem_filterMap.mp hd
    cases kernel with
    | warmUp => cases hd
    | call y =>
      rw [Kernel.call?, Option.some.injEq] at hd
      exact ⟨i, List.mem_range.mp hi, hd ▸ hkernel⟩
  · intro ⟨i, hi, hd⟩
    exact ⟨i, List.mem_range.mpr hi, List.mem_filterMap.mpr ⟨.call d, hd, rfl⟩⟩

theorem Machine.Running.dispatched {streams : Streams} (hx : machine.Running streams x) :
    machine.Dispatched streams x := by
  obtain ⟨i, hi, -, hqueue⟩ := hx
  exact ⟨i, hi, Or.inr hqueue⟩

theorem Thread.issue_finished {t t' : Thread} {counter counter' : Counter → Nat}
    (hissue : t.issue counter = some (t', counter')) : t'.finished = t.finished := by
  unfold Thread.issue at hissue
  split at hissue
  · cases hissue
  · cases hissue
    rfl
  · simp only [Option.ite_none_right_eq_some, Option.some.injEq, Prod.mk.injEq] at hissue
    rw [← hissue.2.1]
  · cases hissue
    rfl
  · simp only [Option.ite_none_right_eq_some, Option.some.injEq, Prod.mk.injEq] at hissue
    rw [← hissue.2.1]

theorem Machine.mainStep_finished {machine' : Machine} {i : Nat}
    (hstep : machine.mainStep = some machine') :
    (machine'.threads i).finished = (machine.threads i).finished := by
  unfold Machine.mainStep at hstep
  split at hstep
  · cases hstep
  · cases hstep
    rfl
  · rename_i j main hmain
    cases hstep
    show (Function.update machine.threads j _ i).finished = _
    by_cases hij : i = j
    · rw [hij, Function.update_self]
    · rw [Function.update_of_ne hij]
  · cases (Option.ite_none_right_eq_some.mp hstep).2
    rfl
  · cases (Option.ite_none_right_eq_some.mp hstep).2
    rfl

theorem Thread.device_finished {t t' : Thread} {kernel : Kernel} (hdevice : t.device = some t')
    (hx : kernel ∈ t'.finished) :
    kernel ∈ t.finished ∨ t.busy = true ∧ t.queue.head? = some kernel := by
  unfold Thread.device at hdevice
  split at hdevice
  · cases hdevice
  · rename_i first queue hqueue
    split at hdevice
    · rename_i hbusy
      cases hdevice
      cases List.mem_append.mp hx with
      | inl hx => exact Or.inl hx
      | inr hx =>
        obtain rfl := List.mem_singleton.mp hx
        exact Or.inr ⟨hbusy, by rw [hqueue]; rfl⟩
    · cases hdevice
      exact Or.inl hx

/-- Only kernels that run complete. -/
theorem completed_step {streams : Streams} {machine' : Machine} {party : Party}
    (hstep : machine.step party = some machine') (hx : x ∈ machine'.completed streams) :
    x ∈ machine.completed streams ∨ machine.Running streams x := by
  obtain ⟨i, hi, hx⟩ := mem_completed.mp hx
  have hother {j : Nat} {t : Thread} (hne : i ≠ j)
      (hx : .call x ∈ (Function.update machine.threads j t i).finished) :
      x ∈ machine.completed streams := by
    rw [Function.update_of_ne hne] at hx
    exact mem_completed.mpr ⟨i, hi, hx⟩
  cases party with
  | main =>
    rw [Machine.mainStep_finished hstep] at hx
    exact Or.inl (mem_completed.mpr ⟨i, hi, hx⟩)
  | thread j =>
    obtain ⟨-, hstep⟩ := Option.ite_none_right_eq_some.mp hstep
    obtain ⟨⟨t, counter⟩, hissue, rfl⟩ := Option.map_eq_some_iff.mp hstep
    by_cases hij : i = j
    · subst hij
      have hx : .call x ∈ (Function.update machine.threads i t i).finished := hx
      rw [Function.update_self, Thread.issue_finished hissue] at hx
      exact Or.inl (mem_completed.mpr ⟨i, hi, hx⟩)
    · exact Or.inl (hother hij hx)
  | device j =>
    obtain ⟨t, hdevice, rfl⟩ := Option.map_eq_some_iff.mp hstep
    by_cases hij : i = j
    · subst hij
      have hx : .call x ∈ (Function.update machine.threads i t i).finished := hx
      rw [Function.update_self] at hx
      cases Thread.device_finished hdevice hx with
      | inl hx => exact Or.inl (mem_completed.mpr ⟨i, hi, hx⟩)
      | inr hrunning => exact Or.inr ⟨i, hi, hrunning⟩
    · exact Or.inl (hother hij hx)

variable (hs : Scheduled h b levels keep) (hrun : Machine.Run (streamsOf keep levels) n machine)

include hs hrun

/-- A thread has launched calls of its own stream only, and each of them once. -/
theorem launched_of_run {i : Nat} (hi : i < (streamsOf keep levels).length) :
    ((machine.threads i).finished ++ (machine.threads i).queue).Nodup ∧
      ∀ x, .call x ∈ (machine.threads i).finished ++ (machine.threads i).queue →
        ∃ k, At levels x k i := by
  obtain ⟨st, hr, hinv, -⟩ := hrun.refines (@aligned_streamsOf levels keep hs.nodup) awaited_streamsOf
  obtain ⟨past, hpast, hlaunches, -⟩ := (hinv.ok ⟨i, hi⟩).past
  rw [hr.thread ⟨i, hi⟩]
  show ((st.worker ⟨i, hi⟩).finished ++ (st.worker ⟨i, hi⟩).queue).Nodup ∧
    ∀ x, .call x ∈ (st.worker ⟨i, hi⟩).finished ++ (st.worker ⟨i, hi⟩).queue → _
  have hlaunched : launches past <+: launches (programs (streamsOf keep levels) ⟨i, hi⟩) := by
    rw [hpast, launches_append]
    exact List.prefix_append _ _
  rw [← hlaunches]
  constructor
  · apply hlaunched.sublist.nodup
    rw [launches_programs, List.nodup_cons]
    refine ⟨by simp, (hs.nodup.sublist sublist_flatten_filterMap).map fun a c hac => ?_⟩
    exact Kernel.call.inj hac
  · intro x hx
    exact call_mem_programs.mp (hlaunched.subset hx)

/-- What a thread has completed, or what its queue begins with, is a call of its stream. -/
theorem exists_at_of_dispatched {i : Nat} (hi : i < (streamsOf keep levels).length)
    (hcase : .call x ∈ (machine.threads i).finished ∨
      (machine.threads i).queue.head? = some (.call x)) : ∃ k, At levels x k i := by
  apply (launched_of_run hs hrun hi).2 x
  cases hcase with
  | inl hfinished => exact List.mem_append_left _ hfinished
  | inr hqueue => exact List.mem_append_right _ (List.mem_of_head? hqueue)

/-- A call that runs has not completed, on no thread. -/
theorem not_completed_of_running (hx : machine.Running (streamsOf keep levels) x) :
    x ∉ machine.completed (streamsOf keep levels) := by
  intro hdone
  obtain ⟨i, hi, -, hqueue⟩ := hx
  obtain ⟨j, hj, hfinished⟩ := mem_completed.mp hdone
  obtain ⟨k, hk⟩ := exists_at_of_dispatched hs hrun hi (Or.inr hqueue)
  obtain ⟨l, hl⟩ := exists_at_of_dispatched hs hrun hj (Or.inl hfinished)
  obtain rfl := (hk.unique hs.nodup hl).2
  exact List.disjoint_of_nodup_append (launched_of_run hs hrun hi).1 hfinished
    (List.mem_of_head? hqueue)

/-- What has completed or runs is a call of `main`. -/
theorem topCall_of_dispatched (hx : machine.Dispatched (streamsOf keep levels) x) :
    TopCall h b x := by
  obtain ⟨i, hi, hcase⟩ := hx
  obtain ⟨k, hk⟩ := exists_at_of_dispatched hs hrun hi hcase
  rw [← hs.mem, ← exists_at_iff]
  exact ⟨k, i, hk⟩

/-- The direct inputs of a call have completed when the device can start it. -/
theorem completed_of_dep (hdep : Dep h b d x) (hx : machine.Dispatched (streamsOf keep levels) x) :
    d ∈ machine.completed (streamsOf keep levels) := by
  have haligned := @aligned_streamsOf levels keep hs.nodup
  obtain ⟨st, hr, hinv, -⟩ := hrun.refines haligned awaited_streamsOf
  obtain ⟨i, hi, hcase⟩ := hx
  obtain ⟨k, hat⟩ := exists_at_of_dispatched hs hrun hi hcase
  rw [hr.thread ⟨i, hi⟩] at hcase
  obtain ⟨j, hj⟩ := hinv.finished_before haligned hcase (hs.before d x hdep k i hat ⟨i, hi⟩ rfl)
  refine mem_completed.mpr ⟨j, j.2, ?_⟩
  rw [hr.thread j]
  exact hj

omit hs hrun in
theorem dispatched_of_completed (hd : d ∈ machine.completed (streamsOf keep levels)) :
    machine.Dispatched (streamsOf keep levels) d := by
  obtain ⟨i, hi, hd⟩ := mem_completed.mp hd
  exact ⟨i, hi, Or.inl hd⟩

theorem completed_of_transGen (hdep : TransGen (Dep h b) d x)
    (hx : machine.Dispatched (streamsOf keep levels) x) :
    d ∈ machine.completed (streamsOf keep levels) := by
  induction hdep with
  | single hdep => exact completed_of_dep hs hrun hdep hx
  | tail _ hdep ih => exact ih (dispatched_of_completed (completed_of_dep hs hrun hdep hx))

/-- At the end each thread has completed the calls of its stream, in order. -/
theorem completed_of_ended (hended : machine.Ended (streamsOf keep levels)) :
    machine.completed (streamsOf keep levels) =
      (List.range (maxStreamNumber levels)).flatMap fun i => levels.filterMap (·[i]?) := by
  have haligned := @aligned_streamsOf levels keep hs.nodup
  obtain ⟨st, hr, hinv, -⟩ := hrun.refines haligned awaited_streamsOf
  unfold Machine.completed
  rw [length_streamsOf]
  apply List.flatMap_congr
  intro i hi
  have hi : i < (streamsOf keep levels).length := by
    rw [length_streamsOf]
    exact List.mem_range.mp hi
  have hdone : (st.worker ⟨i, hi⟩).Done := by
    rw [← done_iff (hinv.ok ⟨i, hi⟩)]
    have hrest := (hended.2 i hi).1
    rw [hr.thread ⟨i, hi⟩] at hrest
    exact hrest
  have hfinished : (machine.threads i).finished = launches (programs (streamsOf keep levels) ⟨i, hi⟩) := by
    rw [hr.thread ⟨i, hi⟩]
    exact hinv.finished_of_done hdone
  rw [hfinished, launches_programs, List.filterMap_cons, List.filterMap_map]
  simp [Kernel.call?, Function.comp_def]

/-- At the end every call of `main` has completed, and once. -/
theorem completed_all (hended : machine.Ended (streamsOf keep levels)) :
    (machine.completed (streamsOf keep levels)).Nodup ∧
      ∀ x, x ∈ machine.completed (streamsOf keep levels) ↔ TopCall h b x := by
  rw [completed_of_ended hs hrun hended]
  have hmem (i x : Nat) : x ∈ levels.filterMap (·[i]?) ↔ ∃ k, At levels x k i := by
    rw [List.mem_filterMap]
    constructor
    · intro ⟨level, hlevel, hget⟩
      obtain ⟨k, hk⟩ := List.mem_iff_getElem?.mp hlevel
      exact ⟨k, level, hk, hget⟩
    · intro ⟨k, level, hk, hget⟩
      exact ⟨level, List.mem_of_getElem? hk, hget⟩
  constructor
  · rw [List.nodup_flatMap]
    refine ⟨fun i _ => hs.nodup.sublist sublist_flatten_filterMap, ?_⟩
    apply List.nodup_range.imp
    intro i j hij x hi hj
    obtain ⟨k, hk⟩ := (hmem i x).mp hi
    obtain ⟨l, hl⟩ := (hmem j x).mp hj
    exact hij (hk.unique hs.nodup hl).2
  · intro x
    rw [← hs.mem, ← exists_at_iff, List.mem_flatMap]
    constructor
    · intro ⟨i, _, hx⟩
      obtain ⟨k, hk⟩ := (hmem i x).mp hx
      exact ⟨k, i, hk⟩
    · intro ⟨k, i, hk⟩
      exact ⟨i, List.mem_range.mpr hk.lt.2, (hmem i x).mpr ⟨k, hk⟩⟩

end Scheduled

section Main

variable {m m' : Module} {ps : List Nat} {b : Nat}

/-- The stream lists of a program schedule its calls. -/
theorem exists_scheduled (hm : m.Stencil ps b) (hssa : SsaNames m.heap b)
    (hrun : ReflTransGen FusionStep m m') :
    ∃ b' tag, m'.heap[m'.main]? = some (.function ps b' tag) ∧ ∃ levels keep,
      (∀ fuel, m'.heap.length < fuel → solve fuel m'.heap m'.main = some levels) ∧
      generateCodegenStreamlist m'.heap m'.main levels = some (streamsOf keep levels) ∧
      Scheduled m'.heap b' levels keep := by
  obtain ⟨b', hok, hn⟩ := run_named hm hssa.distinct hrun
  obtain ⟨tag, hmain⟩ := hok.node
  obtain ⟨graph, hgraph, hnodup, hmem, hinput⟩ :=
    buildGraph_spec hok.main hmain hn hssa.noUnderscore
  obtain ⟨levels, n, hsolve, hl, hall⟩ := solve_spec hok.main hmain hn hssa.noUnderscore
  have hdep {a d k u : Nat} (ha : At levels a k u) : d ∈ graph.input a ↔ Dep m'.heap b' d a := by
    rw [hinput, mem_inputs_iff_dep hok.main hmem ((hall a).mp (exists_at_iff.mp ⟨k, u, ha⟩))]
  have hlong {a k u : Nat} (ha : At levels a k u) : Longest (Dep m'.heap b') a k := by
    obtain ⟨level, hk, hu⟩ := ha
    exact ((hl.level k level hk a).mp (List.mem_of_getElem? hu)).2
  have hbelow (a k u d l v : Nat) (ha : At levels a k u) (hd : At levels d l v)
      (hin : d ∈ graph.input a) : l < k :=
    Longest.lt (.single ((hdep ha).mp hin)) (hlong hd) (hlong ha)
  obtain ⟨keep, hgen, hcovers⟩ := generateCodegenStreamlist_covers hl.nodup hbelow hgraph
  refine ⟨b', tag, hmain, levels, keep, hsolve, hgen, hl.nodup, hall, fun d x hdx k u hx i hi => ?_⟩
  obtain ⟨l, v, hd⟩ := exists_at_iff.mpr ((hall d).mpr hdx.1)
  have hin := (hdep hx).mpr hdx
  exact before_of_covers hcovers hx hd (hbelow x k u d l v hx hd hin) hin i hi

end Main

end StencilGraph.Stream

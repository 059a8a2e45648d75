import StencilGraph.Stream.ThreadPrograms

namespace StencilGraph.Stream
open Framework Relay Relation StreamSolver CodeGen GenMain CounterBarrier

/-- The part of `main` that a statement belongs to. -/
def MainStatement.rank : MainStatement → Nat
  | .reset _ => 0
  | .create _ => 1
  | .await _ _ => 2
  | .join _ => 2

variable {streams : Streams} {m m' : Machine} {i : Nat}

/-- `main` resets the counters, creates the threads, and then waits. -/
theorem sorted_genTimingAndRun :
    (genTimingAndRun streams).Pairwise fun a b => a.rank ≤ b.rank := by
  have hconst {l : List MainStatement} {k : Nat} (hl : ∀ a ∈ l, a.rank = k) :
      l.Pairwise fun a b => a.rank ≤ b.rank := by
    apply List.pairwise_of_forall_mem_list
    intro a ha b hb
    rw [hl a ha, hl b hb]
  have hreset : ∀ a ∈ initSyncVars streams, a.rank = 0 := by
    simp [initSyncVars, MainStatement.rank]
  have hcreate : ∀ a ∈ (pthreadCreate streams).map MainStatement.create, a.rank = 1 := by
    simp [MainStatement.rank]
  have hwait : ∀ a ∈ .await .start streams.length :: (pthreadJoin streams).map MainStatement.join,
      a.rank = 2 := by
    simp [MainStatement.rank]
  unfold genTimingAndRun
  rw [List.pairwise_append, List.pairwise_append]
  refine ⟨⟨hconst hreset, hconst hcreate, fun a ha b hb => ?_⟩, hconst hwait, fun a ha b hb => ?_⟩
  · rw [hreset a ha]
    exact Nat.zero_le _
  · rw [hwait b hb]
    cases List.mem_append.mp ha with
    | inl ha => rw [hreset a ha]; exact Nat.zero_le _
    | inr ha => rw [hcreate a ha]; exact Nat.le_succ 1

theorem create_mem_iff : .create i ∈ genTimingAndRun streams ↔ i < streams.length := by
  simp [genTimingAndRun, initSyncVars, pthreadCreate_eq_range]

/-- A state of the program as a state of the barrier protocol. -/
structure Refines (streams : Streams) (m : Machine) (st : State (Fin streams.length) Kernel Counter) :
    Prop where
  thread : ∀ i : Fin streams.length,
    m.threads i = threadOf streams (m.threads i).created (st.worker i)
  uncreated : ∀ i : Fin streams.length, (m.threads i).created = false →
    st.worker i = (State.init (σ := Counter) (programs streams)).worker i
  outside : ∀ i, streams.length ≤ i → (m.threads i).queue = []
  counter : m.counter = st.counter
  zero : (∀ i : Fin streams.length, (m.threads i).created = false) → ∀ v, st.counter v = 0
  main : ∃ past, genTimingAndRun streams = past ++ m.main ∧
    ∀ i, (m.threads i).created = true ↔ .create i ∈ past

theorem refines_init : Refines streams (.init streams) (.init (programs streams)) := by
  refine ⟨fun i => ?_, fun i _ => rfl, fun i _ => rfl, rfl, fun _ _ => rfl,
    [], rfl, fun i => by simp [Machine.init]⟩
  have hget : streams[(i : Nat)]?.getD [] = streams[i] := by simp
  simp only [Machine.init, State.init, hget, genLaunchKernel_eq, threadOf, code, executed,
    List.drop_zero, programs]

namespace Refines

variable {st : State (Fin streams.length) Kernel Counter}

/-- Only threads of the lists are created. -/
theorem lt_of_created (h : Refines streams m st) (hi : (m.threads i).created = true) :
    i < streams.length := by
  obtain ⟨past, hmain, hcreated⟩ := h.main
  rw [← create_mem_iff, hmain]
  exact List.mem_append_left _ ((hcreated i).mp hi)

/-- A queue that the device works on belongs to a thread that runs. -/
theorem created_of_queue (h : Refines streams m st) (hi : (m.threads i).queue ≠ []) :
    (m.threads i).created = true := by
  by_contra hno
  rw [Bool.not_eq_true] at hno
  by_cases hlt : i < streams.length
  · have hw := h.uncreated ⟨i, hlt⟩ hno
    have ht := h.thread ⟨i, hlt⟩
    rw [hw] at ht
    exact hi (congrArg Thread.queue ht)
  · exact hi (h.outside i (Nat.le_of_not_lt hlt))

/-- A statement of a thread, or of the device, is a move of its worker. -/
theorem worker_step (h : Refines streams m st) (hlt : i < streams.length)
    (hi : (m.threads i).created = true) {move : Move Kernel Counter} {w : Worker Kernel Counter}
    {counter : Counter → Nat}
    (hstep : (st.worker ⟨i, hlt⟩).Step (fun v => st.counter v = awaited streams v) move w)
    (hcounter : ∀ v, counter v = st.counter v + move.counted v) :
    ∃ st', State.Step (awaited streams) ⟨i, hlt⟩ move st st' ∧
      Refines streams { m with threads := Function.update m.threads i (threadOf streams true w),
                               counter } st' := by
  have hcreated (j : Nat) : (Function.update m.threads i (threadOf streams true w) j).created =
      (m.threads j).created := by
    by_cases hj : j = i
    · rw [hj, Function.update_self, hi]
      rfl
    · rw [Function.update_of_ne hj]
  refine ⟨⟨Function.update st.worker ⟨i, hlt⟩ w, counter⟩, ⟨?_, ?_, hcounter⟩,
    ⟨fun j => ?_, fun j hj => ?_, fun j hj => ?_, rfl, fun hnone => ?_, ?_⟩⟩
  · show Worker.Step _ _ move (Function.update st.worker ⟨i, hlt⟩ w ⟨i, hlt⟩)
    rw [Function.update_self]
    exact hstep
  · intro j hj
    exact Function.update_of_ne hj _ _
  · show Function.update m.threads i (threadOf streams true w) j =
      threadOf streams (Function.update m.threads i (threadOf streams true w) j).created
        (Function.update st.worker ⟨i, hlt⟩ w j)
    by_cases hj : j = ⟨i, hlt⟩
    · rw [hj]
      simp [threadOf]
    · have hne : (j : Nat) ≠ i := fun heq => hj (Fin.ext heq)
      rw [Function.update_of_ne hne, Function.update_of_ne hj]
      exact h.thread j
  · have hj' : (m.threads j).created = false := by rw [← hj, hcreated]
    have hne : j ≠ ⟨i, hlt⟩ := by
      intro heq
      rw [heq, hi] at hj'
      cases hj'
    show Function.update st.worker _ w j = _
    rw [Function.update_of_ne hne]
    exact h.uncreated j hj'
  · show (Function.update m.threads i _ j).queue = []
    rw [Function.update_of_ne (by omega)]
    exact h.outside j hj
  · have := hnone ⟨i, hlt⟩
    rw [hcreated, hi] at this
    cases this
  · obtain ⟨past, hmain, hiff⟩ := h.main
    refine ⟨past, hmain, fun j => ?_⟩
    rw [hcreated]
    exact hiff j

/-- While `main` resets counters no thread runs and they are zero. -/
theorem reset_eq (h : Refines streams m st) {v : Counter} {main : List MainStatement}
    (hm : m.main = .reset v :: main) : Function.update m.counter v 0 = m.counter := by
  obtain ⟨past, hmain, hcreated⟩ := h.main
  have hsorted := @sorted_genTimingAndRun streams
  rw [hmain, hm, List.pairwise_append] at hsorted
  have hnone (i : Fin streams.length) : (m.threads i).created = false := by
    rw [← Bool.not_eq_true, hcreated]
    intro hmem
    exact absurd (hsorted.2.2 _ hmem _ List.mem_cons_self) (by simp [MainStatement.rank])
  rw [Function.update_eq_self_iff, h.counter, h.zero hnone]

/-- `main` moves without the protocol. -/
theorem main_step (h : Refines streams m st) (hstep : m.step .main = some m') :
    Refines streams m' st ∧ m.main.length = m'.main.length + 1 := by
  have hstep : m.mainStep = some m' := hstep
  obtain ⟨past, hmain, hcreated⟩ := h.main
  unfold Machine.mainStep at hstep
  split at hstep
  · cases hstep
  · rename_i v main hm
    obtain rfl := Option.some.inj hstep
    rw [h.reset_eq hm, hm]
    refine ⟨⟨h.thread, h.uncreated, h.outside, h.counter, h.zero, past ++ [.reset v], ?_, ?_⟩, rfl⟩
    · rw [hmain, hm, List.append_assoc]
      rfl
    · intro i
      rw [hcreated]
      simp
  · rename_i i main hm
    obtain rfl := Option.some.inj hstep
    have hi : i < streams.length := by
      rw [← create_mem_iff, hmain, hm]
      simp
    have hthread (j : Nat) : Function.update m.threads i { m.threads i with created := true } j =
        { m.threads j with created := decide (j = i) || (m.threads j).created } := by
      by_cases hj : j = i
      · rw [hj]
        simp
      · rw [Function.update_of_ne hj]
        simp [hj]
    rw [hm]
    refine ⟨⟨fun j => ?_, fun j hj => ?_, fun j hj => ?_, h.counter, fun hnone => ?_,
      past ++ [.create i], ?_, fun j => ?_⟩, rfl⟩
    · show Function.update m.threads i _ j = threadOf streams (Function.update m.threads i _ j).created _
      rw [hthread, h.thread j]
      rfl
    · have hj' := congrArg Thread.created (hthread j)
      rw [show (Function.update m.threads i _ j).created = false from hj] at hj'
      apply h.uncreated j
      simpa using (Bool.or_eq_false_iff.mp hj'.symm).2
    · show (Function.update m.threads i _ j).queue = []
      rw [hthread]
      exact h.outside j hj
    · have hself := hnone ⟨i, hi⟩
      simp at hself
    · rw [hmain, hm, List.append_assoc]
      rfl
    · show (Function.update m.threads i _ j).created = true ↔ _
      rw [hthread, Bool.or_eq_true, hcreated, List.mem_append, List.mem_singleton, decide_eq_true_iff,
        MainStatement.create.injEq, or_comm]
  · rename_i v n main hm
    rw [Option.ite_none_right_eq_some] at hstep
    obtain rfl := Option.some.inj hstep.2
    rw [hm]
    refine ⟨⟨h.thread, h.uncreated, h.outside, h.counter, h.zero, past ++ [.await v n], ?_, ?_⟩, rfl⟩
    · rw [hmain, hm, List.append_assoc]
      rfl
    · intro i
      rw [hcreated]
      simp
  · rename_i j main hm
    rw [Option.ite_none_right_eq_some] at hstep
    obtain rfl := Option.some.inj hstep.2
    rw [hm]
    refine ⟨⟨h.thread, h.uncreated, h.outside, h.counter, h.zero, past ++ [.join j], ?_, ?_⟩, rfl⟩
    · rw [hmain, hm, List.append_assoc]
      rfl
    · intro i
      rw [hcreated]
      simp

variable {syncs : List Counter} {party : Party}

/-- Every step of the program is a move of the protocol, or one of `main` that the protocol does not
see. -/
theorem step (h : Refines streams m st) (hinv : Invariant (programs streams) syncs st)
    (hstep : m.step party = some m') :
    (Refines streams m' st ∧ m.main.length = m'.main.length + 1) ∨
      ∃ i move st', State.Step (awaited streams) i move st st' ∧ Refines streams m' st' ∧
        m'.main = m.main := by
  cases party with
  | main => exact Or.inl (h.main_step hstep)
  | thread i =>
    right
    unfold Machine.step at hstep
    rw [Option.ite_none_right_eq_some, Option.map_eq_some_iff] at hstep
    obtain ⟨hi, ⟨t, counter⟩, hissue, rfl⟩ := hstep
    have hlt := h.lt_of_created hi
    rw [h.thread ⟨i, hlt⟩, h.counter, hi] at hissue
    obtain ⟨move, w, hmove, rfl, hcounter⟩ := issue_spec (hinv.ok ⟨i, hlt⟩) hissue
    obtain ⟨st', hst', hr⟩ := h.worker_step hlt hi hmove hcounter
    exact ⟨_, _, st', hst', hr, rfl⟩
  | device i =>
    right
    unfold Machine.step at hstep
    rw [Option.map_eq_some_iff] at hstep
    obtain ⟨t, hdevice, rfl⟩ := hstep
    have hi := h.created_of_queue (i := i) (by
      intro hempty
      simp [Thread.device, hempty] at hdevice)
    have hlt := h.lt_of_created hi
    rw [h.thread ⟨i, hlt⟩, hi] at hdevice
    obtain ⟨move, w, hmove, rfl, hcounter⟩ :=
      device_spec (fun v => st.counter v = awaited streams v) hdevice
    have hsame (v : Counter) : m.counter v = st.counter v + move.counted v := by
      rw [hcounter, h.counter]
      rfl
    obtain ⟨st', hst', hr⟩ := h.worker_step hlt hi hmove hsame
    exact ⟨_, _, st', hst', hr, rfl⟩

end Refines

section Run

variable {syncs : List Counter} {n : Nat} (haligned : Aligned (programs streams) syncs)
  (hawaited : ∀ v ∈ syncs, awaited streams v = Fintype.card (Fin streams.length))

include haligned hawaited

/-- Every run of the program is one of the protocol, and each step uses up one of finitely many. -/
theorem Machine.Run.refines (hrun : Machine.Run streams n m) :
    ∃ st, Refines streams m st ∧ Invariant (programs streams) syncs st ∧
      n + m.main.length + st.left ≤
        (genTimingAndRun streams).length + (State.init (σ := Counter) (programs streams)).left := by
  induction hrun with
  | init => exact ⟨_, refines_init, .init haligned, by simp [Machine.init]⟩
  | step party _ hstep ih =>
    obtain ⟨st, hr, hinv, hleft⟩ := ih
    cases hr.step hinv hstep with
    | inl hmain => exact ⟨st, hmain.1, hinv, by omega⟩
    | inr hmove =>
      obtain ⟨i, move, st', hst', hr', hmain⟩ := hmove
      have hlt := hst'.left_lt
      exact ⟨st', hr', hinv.step haligned hawaited hst', by rw [hmain]; omega⟩

/-- No counter passes the value that it is compared with. -/
theorem Machine.Run.counter_le (hrun : Machine.Run streams n m) {v : Counter} (hv : v ∈ syncs) :
    m.counter v ≤ awaited streams v := by
  obtain ⟨st, hr, hinv, -⟩ := hrun.refines haligned hawaited
  rw [hr.counter, hawaited v hv]
  exact hinv.counter_le hv

omit haligned hawaited in
/-- When `main` waits, all threads are created. -/
theorem Refines.created_of_waiting {st : State (Fin streams.length) Kernel Counter}
    (h : Refines streams m st) (hwait : ∀ a ∈ m.main.head?, a.rank = 2) (hi : i < streams.length) :
    (m.threads i).created = true := by
  obtain ⟨past, hmain, hcreated⟩ := h.main
  rw [hcreated]
  have hmem : .create i ∈ past ++ m.main := by
    rw [← hmain, create_mem_iff]
    exact hi
  cases List.mem_append.mp hmem with
  | inl hpast => exact hpast
  | inr hlater =>
    have hsorted := @sorted_genTimingAndRun streams
    rw [hmain, List.pairwise_append] at hsorted
    cases hm : m.main with
    | nil =>
      rw [hm] at hlater
      cases hlater
    | cons a main =>
      have ha := hwait a (by simp [hm])
      rw [hm] at hlater hsorted
      cases List.mem_cons.mp hlater with
      | inl heq =>
        rw [← heq] at ha
        cases ha
      | inr hlater =>
        have hle := (List.pairwise_cons.mp hsorted.2.1).1 _ hlater
        rw [ha] at hle
        exact absurd hle (by simp [MainStatement.rank])

omit haligned hawaited in
/-- A move of the protocol is a step of its thread or of the device. -/
theorem Refines.exists_step_of_move {st : State (Fin streams.length) Kernel Counter}
    (h : Refines streams m st) {i : Fin streams.length} (hi : (m.threads i).created = true)
    {move : Move Kernel Counter} {w : Worker Kernel Counter}
    (hstep : (st.worker i).Step (fun v => st.counter v = awaited streams v) move w) :
    ∃ party m', m.step party = some m' := by
  have hthread := h.thread i
  rw [hi] at hthread
  rw [← h.counter] at hstep
  have henabled : (∃ r, (threadOf streams true (st.worker i)).issue m.counter = some r) ∨
      ∃ t, (threadOf streams true (st.worker i)).device = some t := enabled_of_step hstep
  rw [← hthread] at henabled
  cases henabled with
  | inl hissue =>
    obtain ⟨r, hissue⟩ := hissue
    refine ⟨.thread i, { m with threads := Function.update m.threads i r.1, counter := r.2 }, ?_⟩
    simp [Machine.step, hi, hissue]
  | inr hdevice =>
    obtain ⟨t, hdevice⟩ := hdevice
    refine ⟨.device i, { m with threads := Function.update m.threads i t }, ?_⟩
    simp [Machine.step, hdevice]

omit haligned hawaited in
/-- When all threads have returned, `main` does not wait. -/
theorem Refines.ended_or_step_of_done {st : State (Fin streams.length) Kernel Counter}
    (h : Refines streams m st) (hinv : Invariant (programs streams) syncs st)
    (hstart : .start ∈ syncs) (hdone : ∀ i, (st.worker i).Done) :
    m.Ended streams ∨ ∃ party m', m.step party = some m' := by
  have hreturned {i : Nat} (hi : i < streams.length) : (m.threads i).rest = [] := by
    rw [h.thread ⟨i, hi⟩]
    exact (done_iff (hinv.ok ⟨i, hi⟩)).mpr (hdone ⟨i, hi⟩)
  have hmem {a : MainStatement} {main : List MainStatement} (hm : m.main = a :: main) :
      a ∈ genTimingAndRun streams := by
    obtain ⟨past, hmain, -⟩ := h.main
    rw [hmain, hm]
    simp
  cases hm : m.main with
  | nil =>
    refine Or.inl ⟨hm, fun i hi => ⟨hreturned hi, ?_⟩⟩
    rw [h.thread ⟨i, hi⟩]
    exact ((hinv.ok ⟨i, hi⟩).idle (by rw [(hdone ⟨i, hi⟩).1]; intro hno; cases hno)).1
  | cons a main =>
    right
    refine ⟨.main, ?_⟩
    simp only [Machine.step, Machine.mainStep, hm]
    cases a with
    | reset v => exact ⟨_, rfl⟩
    | create i => exact ⟨_, rfl⟩
    | await v k =>
      obtain ⟨rfl, rfl⟩ : v = .start ∧ k = streams.length := by
        simpa [genTimingAndRun, initSyncVars] using hmem hm
      -- all threads have counted themselves
      have hall : st.arrived .start = Finset.univ := by
        rw [Finset.eq_univ_iff_forall]
        intro i
        refine State.mem_arrived.mpr (Or.inl ?_)
        simp [(hdone i).2]
      have hcounter : m.counter .start = streams.length := by
        rw [h.counter, hinv.counter .start hstart, hall, Finset.card_univ, Fintype.card_fin]
      exact ⟨_, if_pos hcounter⟩
    | join i =>
      have hi : i < streams.length := by
        simpa [genTimingAndRun, initSyncVars, pthreadJoin, List.mem_zipIdx_iff_getElem?]
          using hmem hm
      exact ⟨_, if_pos (hreturned hi)⟩

/-- While a thread has not returned or `main` is not over, somebody can move. -/
theorem Machine.Run.ended_or_step (hstart : .start ∈ syncs) (hrun : Machine.Run streams n m) :
    m.Ended streams ∨ ∃ party m', m.step party = some m' := by
  obtain ⟨st, hr, hinv, -⟩ := hrun.refines haligned hawaited
  by_cases hwait : ∀ a ∈ m.main.head?, a.rank = 2
  · by_cases hdone : ∀ i, (st.worker i).Done
    · exact hr.ended_or_step_of_done hinv hstart hdone
    · right
      obtain ⟨i, hi⟩ := not_forall.mp hdone
      obtain ⟨j, move, w, hstep⟩ := hinv.progress haligned hawaited hi
      exact hr.exists_step_of_move (hr.created_of_waiting hwait j.2) hstep
  · right
    push Not at hwait
    obtain ⟨a, ha, hrank⟩ := hwait
    obtain ⟨main, hm⟩ := List.head?_eq_some_iff.mp ha
    refine ⟨.main, ?_⟩
    simp only [Machine.step, Machine.mainStep, hm]
    cases a with
    | reset v => exact ⟨_, rfl⟩
    | create i => exact ⟨_, rfl⟩
    | await v k => exact absurd rfl hrank
    | join i => exact absurd rfl hrank

end Run

end StencilGraph.Stream

import Mathlib.Algebra.Order.BigOperators.Group.Finset
import Mathlib.Data.Fintype.Card
import Mathlib.Data.Finset.Max
import Mathlib.Data.List.Nodup

namespace StencilGraph.Framework.CounterBarrier

/-- An operation of a worker: launch a kernel on its own queue, or meet the others. -/
inductive Op (κ σ : Type*) where
  | launch (k : κ)
  | barrier (s : σ)

variable {ι κ σ : Type*}

def Op.kernel? : Op κ σ → Option κ
  | .launch k => some k
  | .barrier _ => none

def Op.sync? : Op κ σ → Option σ
  | .launch _ => none
  | .barrier s => some s

def launches (ops : List (Op κ σ)) : List κ := ops.filterMap Op.kernel?

def barriers (ops : List (Op κ σ)) : List σ := ops.filterMap Op.sync?

@[simp] theorem launches_nil : launches ([] : List (Op κ σ)) = [] := rfl

@[simp] theorem launches_launch (k : κ) (ops : List (Op κ σ)) :
    launches (.launch k :: ops) = k :: launches ops := rfl

@[simp] theorem launches_barrier (s : σ) (ops : List (Op κ σ)) :
    launches (.barrier s :: ops) = launches ops := rfl

@[simp] theorem launches_append (a b : List (Op κ σ)) :
    launches (a ++ b) = launches a ++ launches b := List.filterMap_append

@[simp] theorem barriers_nil : barriers ([] : List (Op κ σ)) = [] := rfl

@[simp] theorem barriers_launch (k : κ) (ops : List (Op κ σ)) :
    barriers (.launch k :: ops) = barriers ops := rfl

@[simp] theorem barriers_barrier (s : σ) (ops : List (Op κ σ)) :
    barriers (.barrier s :: ops) = s :: barriers ops := rfl

@[simp] theorem barriers_append (a b : List (Op κ σ)) :
    barriers (a ++ b) = barriers a ++ barriers b := List.filterMap_append

/-- A worker issues operations, has drained its queue, or waits at the barrier that is next. -/
inductive Phase where
  | running
  | drained
  | waiting

/-- A worker and the in-order queue of its kernels; `busy` when the first of them has started. -/
structure Worker (κ σ : Type*) where
  phase : Phase
  rest : List (Op κ σ)
  queue : List κ
  busy : Bool
  finished : List κ

inductive Move (κ σ : Type*) where
  | launch (k : κ)
  | start (k : κ)
  | complete (k : κ)
  | drain
  | arrive (s : σ)
  | pass (s : σ)

section Worker

/-- The moves of a worker; `reached s` when the counter of `s` has the value it waits for. -/
inductive Worker.Step (reached : σ → Prop) : Worker κ σ → Move κ σ → Worker κ σ → Prop where
  | launch (k : κ) (rest : List (Op κ σ)) (queue : List κ) (busy : Bool) (finished : List κ) :
      Step reached ⟨.running, .launch k :: rest, queue, busy, finished⟩ (.launch k)
        ⟨.running, rest, queue ++ [k], busy, finished⟩
  | start (phase : Phase) (rest : List (Op κ σ)) (k : κ) (queue finished : List κ) :
      Step reached ⟨phase, rest, k :: queue, false, finished⟩ (.start k)
        ⟨phase, rest, k :: queue, true, finished⟩
  | complete (phase : Phase) (rest : List (Op κ σ)) (k : κ) (queue finished : List κ) :
      Step reached ⟨phase, rest, k :: queue, true, finished⟩ (.complete k)
        ⟨phase, rest, queue, false, finished ++ [k]⟩
  | drain (rest : List (Op κ σ)) (busy : Bool) (finished : List κ)
      (hnext : ∀ k r, rest ≠ .launch k :: r) :
      Step reached ⟨.running, rest, [], busy, finished⟩ .drain ⟨.drained, rest, [], busy, finished⟩
  | arrive (s : σ) (rest : List (Op κ σ)) (queue : List κ) (busy : Bool) (finished : List κ) :
      Step reached ⟨.drained, .barrier s :: rest, queue, busy, finished⟩ (.arrive s)
        ⟨.waiting, .barrier s :: rest, queue, busy, finished⟩
  | pass (s : σ) (rest : List (Op κ σ)) (queue : List κ) (busy : Bool) (finished : List κ)
      (hreached : reached s) :
      Step reached ⟨.waiting, .barrier s :: rest, queue, busy, finished⟩ (.pass s)
        ⟨.running, rest, queue, busy, finished⟩

/-- The worker has counted itself at the barrier. -/
def Worker.Arrived (w : Worker κ σ) (s : σ) : Prop :=
  s ∉ barriers w.rest ∨ w.phase = .waiting ∧ w.rest.head? = some (.barrier s)

/-- The worker is beyond the barrier. -/
def Worker.Passed (w : Worker κ σ) (s : σ) : Prop := s ∉ barriers w.rest

theorem Worker.Passed.arrived {w : Worker κ σ} {s : σ} (h : w.Passed s) : w.Arrived s := Or.inl h

/-- A worker is done when its program is over and its queue is drained. -/
def Worker.Done (w : Worker κ σ) : Prop := w.phase = .drained ∧ w.rest = []

/-- The state of a worker within its program. -/
structure Worker.Ok (prog : List (Op κ σ)) (w : Worker κ σ) : Prop where
  past : ∃ past, prog = past ++ w.rest ∧ launches past = w.finished ++ w.queue ∧
    ∀ a s, a ++ [.barrier s] <+: past → launches a ⊆ w.finished
  idle : w.phase ≠ .running → w.queue = [] ∧ ∀ k r, w.rest ≠ .launch k :: r
  waiting : w.phase = .waiting → w.rest ≠ []

variable {prog : List (Op κ σ)} {w w' : Worker κ σ} {reached : σ → Prop} {move : Move κ σ} {s : σ}

theorem Worker.Ok.next_barrier (h : w.Ok prog) (hw : w.phase = .waiting) :
    ∃ s rest, w.rest = .barrier s :: rest := by
  have hidle := h.idle (by rw [hw]; intro hno; cases hno)
  cases hrest : w.rest with
  | nil => exact absurd hrest (h.waiting hw)
  | cons op rest =>
    cases op with
    | launch k => exact absurd hrest (hidle.2 k rest)
    | barrier s => exact ⟨s, rest, rfl⟩

theorem Worker.Ok.barriers_rest (h : w.Ok prog) : barriers w.rest <:+ barriers prog := by
  obtain ⟨past, hprog, -⟩ := h.past
  rw [hprog, barriers_append]
  exact List.suffix_append _ _

/-- A move keeps the place of the worker in its program. -/
theorem Worker.Ok.step (h : w.Ok prog) (hstep : w.Step reached move w') : w'.Ok prog := by
  obtain ⟨⟨past, hprog, hdone, hbefore⟩, hidle, hwaiting⟩ := h
  cases hstep with
  | launch k rest queue busy finished =>
    refine ⟨⟨past ++ [.launch k], by simp [hprog], by simp [hdone], ?_⟩, by simp, by simp⟩
    intro a s ha
    cases List.prefix_concat_iff.mp ha with
    | inl heq =>
      have hlast := congrArg List.getLast? heq
      simp at hlast
    | inr hpre => exact hbefore a s hpre
  | start phase rest k queue finished => exact ⟨⟨past, hprog, hdone, hbefore⟩, hidle, hwaiting⟩
  | complete phase rest k queue finished =>
    refine ⟨⟨past, hprog, by simp [hdone], ?_⟩, ?_, hwaiting⟩
    · intro a s ha
      exact List.Subset.trans (hbefore a s ha) (List.subset_append_left _ _)
    · intro hphase
      exact absurd (hidle hphase).1 (by simp)
  | drain rest busy finished hnext =>
    exact ⟨⟨past, hprog, hdone, hbefore⟩, fun _ => ⟨rfl, hnext⟩, by simp⟩
  | arrive s rest queue busy finished =>
    exact ⟨⟨past, hprog, hdone, hbefore⟩, fun _ => hidle (by simp), by simp⟩
  | pass s rest queue busy finished hreached =>
    have hqueue : queue = [] := (hidle (by simp)).1
    rw [hqueue, List.append_nil] at hdone
    refine ⟨⟨past ++ [.barrier s], by simp [hprog], by simp [hdone, hqueue], ?_⟩, by simp, by simp⟩
    intro a t ha
    cases List.prefix_concat_iff.mp ha with
    | inl heq =>
      -- the operations before the barrier have all finished
      rw [(List.append_inj' heq rfl).1, hdone]
      exact List.Subset.refl _
    | inr hpre => exact hbefore a t hpre

theorem mem_barriers {ops : List (Op κ σ)} : s ∈ barriers ops ↔ .barrier s ∈ ops := by
  unfold barriers
  rw [List.mem_filterMap]
  constructor
  · intro ⟨op, hop, hs⟩
    cases op with
    | launch k => cases hs
    | barrier t =>
      rw [← Option.some.inj hs]
      exact hop
  · intro hop
    exact ⟨_, hop, rfl⟩

/-- A barrier splits a program in one way. -/
theorem split_unique {a b c d : List (Op κ σ)} (hn : (barriers (a ++ .barrier s :: b)).Nodup)
    (heq : a ++ .barrier s :: b = c ++ .barrier s :: d) : a = c ∧ b = d := by
  rw [barriers_append, barriers_barrier] at hn
  have ha : .barrier s ∉ a := by
    intro hmem
    exact (List.nodup_append.mp hn).2.2 s (mem_barriers.mpr hmem) s List.mem_cons_self rfl
  have hb : .barrier s ∉ b := by
    intro hmem
    exact (List.nodup_cons.mp (List.nodup_append.mp hn).2.1).1 (mem_barriers.mpr hmem)
  have hinj := (List.append_cons_inj_of_notMem ha hb).mp heq
  exact ⟨hinj.1, hinj.2.2⟩

/-- Only `arrive` counts a worker at a barrier, and at one where it was not counted. -/
theorem Worker.Step.arrived_iff (hstep : w.Step reached move w') (hn : (barriers w.rest).Nodup) (t : σ) :
    (w'.Arrived t ↔ w.Arrived t ∨ move = .arrive t) ∧ (move = .arrive t → ¬ w.Arrived t) := by
  cases hstep with
  | launch k rest queue busy finished => simp [Worker.Arrived]
  | start phase rest k queue finished => simp [Worker.Arrived]
  | complete phase rest k queue finished => simp [Worker.Arrived]
  | drain rest busy finished hnext => simp [Worker.Arrived]
  | arrive s rest queue busy finished =>
    simp only [Worker.Arrived, barriers_barrier, List.mem_cons, List.head?_cons, Option.some.injEq,
      Op.barrier.injEq, Move.arrive.injEq, reduceCtorEq, false_and, or_false, true_and]
    intro heq hno
    exact hno (Or.inl heq.symm)
  | pass s rest queue busy finished hreached =>
    have hs : s ∉ barriers rest := (List.nodup_cons.mp hn).1
    simp only [Worker.Arrived, barriers_barrier, List.mem_cons, List.head?_cons, Option.some.injEq,
      Op.barrier.injEq, reduceCtorEq, false_and, or_false, true_and, not_or]
    refine ⟨⟨fun hno => ?_, fun hcase => ?_⟩, fun hno => hno.elim⟩
    · by_cases heq : t = s
      · exact Or.inr heq.symm
      · exact Or.inl ⟨heq, hno⟩
    · cases hcase with
      | inl hno => exact hno.2
      | inr heq =>
        rw [← heq]
        exact hs

/-- A barrier is passed only when its counter has the value waited for. -/
theorem Worker.Step.passed (hstep : w.Step reached move w') {t : σ} (hpassed : w'.Passed t) :
    w.Passed t ∨ reached t := by
  cases hstep with
  | launch k rest queue busy finished => exact Or.inl hpassed
  | start phase rest k queue finished => exact Or.inl hpassed
  | complete phase rest k queue finished => exact Or.inl hpassed
  | drain rest busy finished hnext => exact Or.inl hpassed
  | arrive s rest queue busy finished => exact Or.inl hpassed
  | pass s rest queue busy finished hreached =>
    by_cases heq : t = s
    · rw [heq]
      exact Or.inr hreached
    · left
      simp only [Worker.Passed, barriers_barrier, List.mem_cons, not_or]
      exact ⟨heq, hpassed⟩

/-- A worker that has arrived at a barrier has finished what it launched before. -/
theorem Worker.Ok.finished_of_arrived (h : w.Ok prog) (hn : (barriers prog).Nodup)
    {a b : List (Op κ σ)} (hprog : prog = a ++ .barrier s :: b) (harrived : w.Arrived s) :
    launches a ⊆ w.finished := by
  obtain ⟨past, hpast, hdone, hbefore⟩ := h.past
  rw [hprog] at hn
  have hsplit : past ++ w.rest = a ++ .barrier s :: b := hpast.symm.trans hprog
  cases harrived with
  | inl hpassed =>
    apply hbefore a s
    rw [List.append_eq_append_iff] at hsplit
    cases hsplit with
    | inl hcase =>
      obtain ⟨c, -, hrest⟩ := hcase
      exact absurd (mem_barriers.mpr (by simp [hrest])) hpassed
    | inr hcase =>
      obtain ⟨c, hc, hrest⟩ := hcase
      cases c with
      | nil =>
        have hmem : .barrier s ∈ w.rest := by simp [show w.rest = .barrier s :: b from hrest.symm]
        exact absurd (mem_barriers.mpr hmem) hpassed
      | cons op c =>
        rw [List.cons_append, List.cons.injEq] at hrest
        rw [hc, hrest.1]
        exact ⟨c, by simp⟩
  | inr hwaiting =>
    obtain ⟨s', rest, hrest⟩ := h.next_barrier hwaiting.1
    obtain rfl : s' = s := by simpa [hrest] using hwaiting.2
    have hqueue := (h.idle (by rw [hwaiting.1]; intro hno; cases hno)).1
    rw [hrest] at hsplit
    have hpasta := (split_unique (hsplit ▸ hn) hsplit).1
    rw [← hpasta, hdone, hqueue, List.append_nil]
    exact List.Subset.refl _

end Worker

/-- Workers with their queues, and the counters they share. -/
structure State (ι κ σ : Type*) where
  worker : ι → Worker κ σ
  counter : σ → Nat

def State.init (prog : ι → List (Op κ σ)) : State ι κ σ :=
  ⟨fun i => ⟨.running, prog i, [], false, []⟩, fun _ => 0⟩

/-- What a move adds to the counter of a barrier. -/
def Move.counted [DecidableEq σ] : Move κ σ → σ → Nat
  | .arrive s, t => if s = t then 1 else 0
  | _, _ => 0

/-- Worker `i` moves; the counter of a barrier is awaited with its target. -/
structure State.Step [DecidableEq σ] (target : σ → Nat) (i : ι) (move : Move κ σ)
    (st st' : State ι κ σ) : Prop where
  own : (st.worker i).Step (fun s => st.counter s = target s) move (st'.worker i)
  others : ∀ j, j ≠ i → st'.worker j = st.worker j
  counter : ∀ s, st'.counter s = st.counter s + move.counted s

/-- All programs meet the same barriers in the same order, and no program launches a kernel twice. -/
structure Aligned (prog : ι → List (Op κ σ)) (syncs : List σ) : Prop where
  nodup : syncs.Nodup
  barriers : ∀ i, barriers (prog i) = syncs
  launches : ∀ i, (launches (prog i)).Nodup

variable [Fintype ι] {prog : ι → List (Op κ σ)} {syncs : List σ} {target : σ → Nat}
  {st st' : State ι κ σ} {i j : ι} {move : Move κ σ} {s : σ}

section State

open Classical in
/-- The workers counted at a barrier. -/
noncomputable def State.arrived (st : State ι κ σ) (s : σ) : Finset ι :=
  Finset.univ.filter fun i => (st.worker i).Arrived s

theorem State.mem_arrived : i ∈ st.arrived s ↔ (st.worker i).Arrived s := by
  simp [State.arrived]

/-- What holds of all reachable states. -/
structure Invariant (prog : ι → List (Op κ σ)) (syncs : List σ) (st : State ι κ σ) : Prop where
  ok : ∀ i, (st.worker i).Ok (prog i)
  counter : ∀ s ∈ syncs, st.counter s = (st.arrived s).card
  passed : ∀ i, ∀ s ∈ syncs, (st.worker i).Passed s → ∀ j, (st.worker j).Arrived s

theorem Invariant.init (hprog : Aligned prog syncs) : Invariant prog syncs (.init prog) := by
  have hno {i : ι} {s : σ} (hs : s ∈ syncs) : ¬ ((State.init prog).worker i).Arrived s := by
    intro harrived
    cases harrived with
    | inl hpassed => exact hpassed (hprog.barriers i ▸ hs)
    | inr hwaiting => cases hwaiting.1
  refine ⟨fun i => ⟨⟨[], rfl, rfl, by simp⟩, ?_, ?_⟩, fun s hs => ?_, fun i s hs hpassed => ?_⟩
  · intro hphase
    exact absurd rfl hphase
  · intro hphase
    cases hphase
  · symm
    rw [State.init, Finset.card_eq_zero, Finset.eq_empty_iff_forall_notMem]
    intro i hi
    exact hno hs (State.mem_arrived.mp hi)
  · exact absurd hpassed.arrived (hno hs)

theorem Invariant.nodup_rest (h : Invariant prog syncs st) (hprog : Aligned prog syncs) (i : ι) :
    (barriers (st.worker i).rest).Nodup := by
  have hsub := (h.ok i).barriers_rest
  rw [hprog.barriers i] at hsub
  exact hprog.nodup.sublist hsub.sublist

/-- No counter exceeds its target. -/
theorem Invariant.counter_le (h : Invariant prog syncs st) (hs : s ∈ syncs) :
    st.counter s ≤ Fintype.card ι := by
  rw [h.counter s hs]
  exact Finset.card_le_univ _

section Step

variable [DecidableEq σ]

/-- A move counts its worker at one barrier at most. -/
theorem Invariant.arrived_step (h : Invariant prog syncs st) (hprog : Aligned prog syncs)
    (hstep : State.Step target i move st st') (s : σ) :
    (st'.arrived s).card = (st.arrived s).card + move.counted s ∧ st.arrived s ⊆ st'.arrived s := by
  have hown := hstep.own.arrived_iff (h.nodup_rest hprog i) s
  have hmem (j : ι) : j ∈ st'.arrived s ↔ j ∈ st.arrived s ∨ j = i ∧ move = .arrive s := by
    rw [State.mem_arrived, State.mem_arrived]
    by_cases hj : j = i
    · rw [hj, hown.1]
      simp
    · rw [hstep.others j hj]
      simp [hj]
  constructor
  · by_cases hmove : move = .arrive s
    · have hinsert : st'.arrived s = Finset.cons i (st.arrived s) (by
          rw [State.mem_arrived]
          exact hown.2 hmove) := by
        ext j
        rw [hmem, Finset.mem_cons]
        tauto
      rw [hinsert, Finset.card_cons, hmove]
      simp [Move.counted]
    · have hsame : st'.arrived s = st.arrived s := by
        ext j
        rw [hmem]
        simp [hmove]
      rw [hsame]
      cases move with
      | arrive t =>
        have hne : t ≠ s := fun heq => hmove (heq ▸ rfl)
        simp [Move.counted, hne]
      | _ => rfl
  · intro j hj
    exact (hmem j).mpr (Or.inl hj)

theorem Invariant.step (h : Invariant prog syncs st) (hprog : Aligned prog syncs)
    (htarget : ∀ s ∈ syncs, target s = Fintype.card ι) (hstep : State.Step target i move st st') :
    Invariant prog syncs st' := by
  have harrived (s : σ) := h.arrived_step hprog hstep s
  refine ⟨fun j => ?_, fun s hs => ?_, fun k s hs hpassed => ?_⟩
  · by_cases hj : j = i
    · rw [hj]
      exact (h.ok i).step hstep.own
    · rw [hstep.others j hj]
      exact h.ok j
  · rw [hstep.counter, h.counter s hs, (harrived s).1]
  · -- all were counted when the barrier was passed
    have hall : ∀ j, (st.worker j).Arrived s := by
      by_cases hk : k = i
      · rw [hk] at hpassed
        cases hstep.own.passed hpassed with
        | inl hold => exact h.passed i s hs hold
        | inr hreached =>
          rw [h.counter s hs, htarget s hs, Finset.card_eq_iff_eq_univ] at hreached
          intro j
          rw [← State.mem_arrived, hreached]
          exact Finset.mem_univ j
      · rw [hstep.others k hk] at hpassed
        exact h.passed k s hs hpassed
    intro j
    exact State.mem_arrived.mp ((harrived s).2 (State.mem_arrived.mpr (hall j)))

end Step

/-- Worker `i` launches `k` after `d`, or after a barrier that another worker reaches after `d`. -/
inductive Before (prog : ι → List (Op κ σ)) (i : ι) (d k : κ) : Prop where
  | same (a b : List (Op κ σ)) (hprog : prog i = a ++ .launch k :: b) (hd : d ∈ launches a) :
      Before prog i d k
  | across (j : ι) (s : σ) (a b a' b' : List (Op κ σ)) (hi : prog i = a ++ .barrier s :: b)
      (hk : k ∈ launches b) (hj : prog j = a' ++ .barrier s :: b') (hd : d ∈ launches a') :
      Before prog i d k

/-- When a kernel is next in its queue or has finished, everything before it has finished. -/
theorem Invariant.finished_before (h : Invariant prog syncs st) (hprog : Aligned prog syncs)
    {d k : κ} (hk : k ∈ (st.worker i).finished ∨ (st.worker i).queue.head? = some k)
    (hbefore : Before prog i d k) : ∃ j, d ∈ (st.worker j).finished := by
  obtain ⟨past, hpast, hdone, -⟩ := (h.ok i).past
  obtain ⟨first, later, hsplit, hfirst⟩ : ∃ first later,
      (st.worker i).finished ++ (st.worker i).queue = first ++ k :: later ∧
        first ⊆ (st.worker i).finished := by
    cases hk with
    | inl hfinished =>
      obtain ⟨first, later, heq⟩ := List.append_of_mem hfinished
      refine ⟨first, later ++ (st.worker i).queue, by simp [heq], ?_⟩
      rw [heq]
      exact List.subset_append_left _ _
    | inr hqueue =>
      obtain ⟨queue, hq⟩ := List.head?_eq_some_iff.mp hqueue
      exact ⟨_, queue, by rw [hq], List.Subset.refl _⟩
  have hall : launches (prog i) = first ++ k :: (later ++ launches (st.worker i).rest) := by
    rw [hpast, launches_append, hdone, hsplit]
    simp
  have hnodup := hprog.launches i
  cases hbefore with
  | same a b hi hd =>
    have heq : first ++ k :: (later ++ launches (st.worker i).rest) =
        launches a ++ k :: launches b := by
      rw [← hall, hi, launches_append, launches_launch]
    rw [hall, List.nodup_append, List.nodup_cons] at hnodup
    have hnot : k ∉ first := fun hmem => hnodup.2.2 k hmem k List.mem_cons_self rfl
    have hinj := (List.append_cons_inj_of_notMem hnot hnodup.2.1.1).mp heq
    exact ⟨i, hfirst (hinj.1 ▸ hd)⟩
  | across j s a b a' b' hi hk hj hd =>
    have hs : s ∈ syncs := by
      rw [← hprog.barriers i, hi]
      simp
    -- worker `i` is beyond the barrier: it has launched `k`
    have hpassed : (st.worker i).Passed s := by
      intro hmem
      obtain ⟨c, e, hrest⟩ := List.append_of_mem (mem_barriers.mp hmem)
      have hsplit' : (past ++ c) ++ .barrier s :: e = a ++ .barrier s :: b := by
        rw [List.append_assoc, ← hrest, ← hpast, hi]
      have hn : (barriers ((past ++ c) ++ .barrier s :: e)).Nodup := by
        rw [hsplit', ← hi, hprog.barriers i]
        exact hprog.nodup
      have ha := (split_unique hn hsplit').1
      rw [hi, launches_append, launches_barrier, ← ha, launches_append, hdone, hsplit] at hnodup
      exact (List.nodup_append.mp hnodup).2.2 k (by simp) k hk rfl
    have hbar : (barriers (prog j)).Nodup := by
      rw [hprog.barriers j]
      exact hprog.nodup
    exact ⟨j, (h.ok j).finished_of_arrived hbar hj (h.passed i s hs hpassed j) hd⟩

/-- A worker that is done has finished what its program launches, in the order of the program. -/
theorem Invariant.finished_of_done (h : Invariant prog syncs st) (hdone : (st.worker i).Done) :
    (st.worker i).finished = launches (prog i) := by
  obtain ⟨past, hpast, hlaunches, -⟩ := (h.ok i).past
  have hidle := (h.ok i).idle (by rw [hdone.1]; intro hno; cases hno)
  rw [hpast, hdone.2, List.append_nil, hlaunches, hidle.1, List.append_nil]

/-- A worker that is neither done nor waiting has a move. -/
theorem Worker.Ok.exists_move {ops : List (Op κ σ)} {w : Worker κ σ} (h : w.Ok ops)
    (reached : σ → Prop) (hdone : ¬ w.Done) (hwait : w.phase ≠ .waiting) :
    ∃ move w', w.Step reached move w' := by
  obtain ⟨phase, rest, queue, busy, finished⟩ := w
  cases phase with
  | waiting => exact absurd rfl hwait
  | drained =>
    cases rest with
    | nil => exact absurd ⟨rfl, rfl⟩ hdone
    | cons op rest =>
      cases op with
      | launch k => exact absurd rfl ((h.idle (by simp)).2 k rest)
      | barrier s => exact ⟨_, _, .arrive s rest queue busy finished⟩
  | running =>
    cases queue with
    | cons k queue =>
      cases busy with
      | false => exact ⟨_, _, .start .running rest k queue finished⟩
      | true => exact ⟨_, _, .complete .running rest k queue finished⟩
    | nil =>
      cases rest with
      | nil => exact ⟨_, _, .drain [] busy finished (by simp)⟩
      | cons op rest =>
        cases op with
        | launch k => exact ⟨_, _, .launch k rest [] busy finished⟩
        | barrier s => exact ⟨_, _, .drain (.barrier s :: rest) busy finished (by simp)⟩

/-- When all are done or waiting, one that waits has the most left, and all are counted there. -/
theorem Invariant.exists_pass (h : Invariant prog syncs st) (hprog : Aligned prog syncs)
    (hstuck : ∀ i, (st.worker i).Done ∨ (st.worker i).phase = .waiting)
    (hwait : (st.worker i).phase = .waiting) :
    ∃ i s rest, (st.worker i).phase = .waiting ∧ (st.worker i).rest = .barrier s :: rest ∧
      s ∈ syncs ∧ ∀ j, (st.worker j).Arrived s := by
  classical
  obtain ⟨k, hk, hmax⟩ := Finset.exists_max_image
    (Finset.univ.filter fun i => (st.worker i).phase = .waiting)
    (fun i => (barriers (st.worker i).rest).length) ⟨i, by simp [hwait]⟩
  have hk : (st.worker k).phase = .waiting := by simpa using hk
  obtain ⟨s, rest, hrest⟩ := (h.ok k).next_barrier hk
  have hleft (j : ι) : barriers (st.worker j).rest <:+ syncs := by
    rw [← hprog.barriers j]
    exact (h.ok j).barriers_rest
  have hs : s ∈ syncs := (hleft k).subset (by simp [hrest])
  refine ⟨k, s, rest, hk, hrest, hs, fun j => ?_⟩
  cases hstuck j with
  | inl hdone =>
    left
    simp [hdone.2]
  | inr hj =>
    have hlen := hmax j (by simp [hj])
    obtain ⟨t, rest', hrest'⟩ := (h.ok j).next_barrier hj
    have hsuffix := List.suffix_of_suffix_length_le (hleft j) (hleft k) hlen
    rw [hrest, hrest', barriers_barrier, barriers_barrier, List.suffix_cons_iff] at hsuffix
    cases hsuffix with
    | inl heq =>
      right
      rw [hrest', (List.cons.inj heq).1]
      exact ⟨hj, rfl⟩
    | inr hlater =>
      left
      rw [hrest', barriers_barrier]
      intro hmem
      have hn := h.nodup_rest hprog k
      rw [hrest, barriers_barrier, List.nodup_cons] at hn
      exact hn.1 (hlater.subset hmem)

/-- As long as a worker is not done, one of them has a move. -/
theorem Invariant.progress (h : Invariant prog syncs st) (hprog : Aligned prog syncs)
    (htarget : ∀ s ∈ syncs, target s = Fintype.card ι) (hi : ¬ (st.worker i).Done) :
    ∃ i move w', (st.worker i).Step (fun s => st.counter s = target s) move w' := by
  by_cases hmove : ∃ i, ¬ (st.worker i).Done ∧ (st.worker i).phase ≠ .waiting
  · obtain ⟨i, hdone, hwait⟩ := hmove
    exact ⟨i, (h.ok i).exists_move _ hdone hwait⟩
  · have hstuck (i : ι) : (st.worker i).Done ∨ (st.worker i).phase = .waiting := by
      by_contra hno
      exact hmove ⟨i, not_or.mp hno⟩
    obtain ⟨k, s, rest, hk, hrest, hs, hall⟩ :=
      h.exists_pass hprog hstuck ((hstuck i).resolve_left hi)
    have hreached : st.counter s = target s := by
      rw [h.counter s hs, htarget s hs, Finset.card_eq_iff_eq_univ, Finset.eq_univ_iff_forall]
      intro j
      exact State.mem_arrived.mpr (hall j)
    have hw : st.worker k = ⟨.waiting, .barrier s :: rest, (st.worker k).queue,
        (st.worker k).busy, (st.worker k).finished⟩ := by
      rw [← hk, ← hrest]
    have hpass : Worker.Step (fun s => st.counter s = target s) _ _ _ :=
      .pass s rest (st.worker k).queue (st.worker k).busy (st.worker k).finished hreached
    rw [← hw] at hpass
    exact ⟨k, _, _, hpass⟩

/-- An upper bound on the moves that are left to a worker. -/
def Worker.left (w : Worker κ σ) : Nat :=
  3 * w.rest.length + 2 * w.queue.length + (if w.busy then 0 else 1) +
    match w.phase with
    | .running => 2
    | .drained => 1
    | .waiting => 0

theorem Worker.Step.left_lt {w w' : Worker κ σ} {reached : σ → Prop} (h : w.Step reached move w') :
    w'.left < w.left := by
  cases h with
  | launch k rest queue busy finished => simp [Worker.left]; omega
  | start phase rest k queue finished => simp [Worker.left]
  | complete phase rest k queue finished => simp [Worker.left]; omega
  | drain rest busy finished hnext => simp [Worker.left]
  | arrive s rest queue busy finished => simp [Worker.left]
  | pass s rest queue busy finished hreached => simp [Worker.left]; omega

def State.left (st : State ι κ σ) : Nat := ∑ i, (st.worker i).left

/-- Every move uses up one of finitely many. -/
theorem State.Step.left_lt [DecidableEq σ] (h : State.Step target i move st st') :
    st'.left < st.left := by
  apply Finset.sum_lt_sum
  · intro j _
    by_cases hj : j = i
    · rw [hj]
      exact h.own.left_lt.le
    · rw [h.others j hj]
  · exact ⟨i, Finset.mem_univ i, h.own.left_lt⟩

end State

end StencilGraph.Framework.CounterBarrier

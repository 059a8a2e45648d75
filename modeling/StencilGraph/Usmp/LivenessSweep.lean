import Mathlib
import StencilGraph.Usmp.Liveness

namespace StencilGraph.Usmp
open Framework

variable {r : Recorded} {iteration : SetOrder} {timeline done rest : List LivenessEvent}
  {e d : LivenessEvent} {a b x : BufferRef} {i j : Interval} {s : Sweep}

def startOf (b : BufferRef) (i : Interval) : LivenessEvent := ⟨i.first, .start, b⟩

def stopOf (b : BufferRef) (i : Interval) : LivenessEvent := ⟨i.last, .stop, b⟩

theorem startOf_ne_stopOf {y : BufferRef} : startOf x i ≠ stopOf y j := by
  intro heq
  have := congrArg LivenessEvent.leType heq
  cases this

theorem less_false_iff : d.less e = false ↔
    e.tick ≤ d.tick ∧ ¬ (d.tick = e.tick ∧ d.leType = .start ∧ e.leType = .stop) := by
  unfold LivenessEvent.less
  split_ifs with h
  · simp only [false_iff, not_and]
    omega
  · rw [Bool.and_eq_false_iff, Bool.and_eq_false_iff, beq_eq_false_iff_ne, beq_eq_false_iff_ne,
      beq_eq_false_iff_ne]
    constructor
    · intro hne
      refine ⟨by omega, ?_⟩
      intro hall
      exact hne.elim (fun h => h.elim (fun h => h hall.1) (fun h => h hall.2.1)) (fun h => h hall.2.2)
    · intro hall
      by_cases htick : d.tick = e.tick
      · by_cases hstart : d.leType = .start
        · exact Or.inr fun hstop => hall.2 ⟨htick, hstart, hstop⟩
        · exact Or.inl (Or.inr hstart)
      · exact Or.inl (Or.inl htick)

namespace Recorded

theorem mem_eventsOf : e ∈ r.eventsOf b ↔ ∃ i ∈ r.intervals b, e = startOf b i ∨ e = stopOf b i := by
  simp only [eventsOf, List.mem_append, List.mem_map]
  constructor
  · intro h
    cases h with
    | inl h =>
      obtain ⟨i, hi, heq⟩ := h
      exact ⟨i, hi, Or.inl heq.symm⟩
    | inr h =>
      obtain ⟨i, hi, heq⟩ := h
      exact ⟨i, hi, Or.inr heq.symm⟩
  · intro h
    obtain ⟨i, hi, heq⟩ := h
    cases heq with
    | inl heq => exact Or.inl ⟨i, hi, heq.symm⟩
    | inr heq => exact Or.inr ⟨i, hi, heq.symm⟩

theorem bufferInfo_of_mem_eventsOf (he : e ∈ r.eventsOf b) : e.bufferInfo = b := by
  obtain ⟨i, -, heq⟩ := mem_eventsOf.mp he
  cases heq with
  | inl heq => rw [heq]; rfl
  | inr heq => rw [heq]; rfl

theorem eventsOf_nodup (r : Recorded) (b : BufferRef) : (r.eventsOf b).Nodup := by
  apply List.Nodup.append
  · apply List.Pairwise.map _ _ (r.apart b)
    intro i j hij heq
    have hfirst : i.first = j.first := congrArg LivenessEvent.tick heq
    have hi := i.le
    have hj := j.le
    unfold Interval.Apart at hij
    omega
  · apply List.Pairwise.map _ _ (r.apart b)
    intro i j hij heq
    have hlast : i.last = j.last := congrArg LivenessEvent.tick heq
    have hi := i.le
    have hj := j.le
    unfold Interval.Apart at hij
    omega
  · intro e hstart hstop
    obtain ⟨i, -, rfl⟩ := List.mem_map.mp hstart
    obtain ⟨j, -, heq⟩ := List.mem_map.mp hstop
    have := congrArg LivenessEvent.leType heq
    cases this

theorem Sorted.nodup (hs : r.Sorted timeline) : timeline.Nodup := by
  rw [hs.1.nodup_iff, leEventsTimeline, List.nodup_flatMap]
  constructor
  · intro b _
    exact r.eventsOf_nodup b
  · apply r.nodup.imp
    intro a b hab e ha hb
    exact hab ((bufferInfo_of_mem_eventsOf ha).symm.trans (bufferInfo_of_mem_eventsOf hb))

theorem Sorted.mem_iff (hs : r.Sorted timeline) : e ∈ timeline ↔
    ∃ b ∈ r.buffers, ∃ i ∈ r.intervals b, e = startOf b i ∨ e = stopOf b i := by
  rw [hs.1.mem_iff, leEventsTimeline, List.mem_flatMap]
  simp only [mem_eventsOf]

/-- The interval of a buffer that an event belongs to. -/
theorem Sorted.start_mem (hs : r.Sorted timeline) (hb : b ∈ r.buffers) (hi : i ∈ r.intervals b) :
    startOf b i ∈ timeline := hs.mem_iff.mpr ⟨b, hb, i, hi, Or.inl rfl⟩

theorem Sorted.stop_mem (hs : r.Sorted timeline) (hb : b ∈ r.buffers) (hi : i ∈ r.intervals b) :
    stopOf b i ∈ timeline := hs.mem_iff.mpr ⟨b, hb, i, hi, Or.inr rfl⟩

/-- A timeline cut in front of an event. -/
structure Cut (r : Recorded) (timeline done : List LivenessEvent) (e : LivenessEvent)
    (rest : List LivenessEvent) : Prop where
  sorted : r.Sorted timeline
  eq : timeline = done ++ e :: rest

theorem Cut.before (hc : r.Cut timeline done e rest) (hd : d ∈ done) : e.less d = false := by
  have hpair := hc.sorted.2
  rw [hc.eq, List.pairwise_append] at hpair
  exact hpair.2.2 d hd e List.mem_cons_self

theorem Cut.after (hc : r.Cut timeline done e rest) (hd : d ∈ timeline) (hdone : d ∉ done)
    (hne : d ≠ e) : d.less e = false := by
  have hpair := hc.sorted.2
  rw [hc.eq, List.pairwise_append, List.pairwise_cons] at hpair
  rw [hc.eq, List.mem_append, List.mem_cons] at hd
  cases hd with
  | inl hd => exact absurd hd hdone
  | inr hd =>
    cases hd with
    | inl heq => exact absurd heq hne
    | inr hrest => exact hpair.2.1.1 d hrest

theorem Cut.notMem (hc : r.Cut timeline done e rest) : e ∉ done := by
  have hnodup := hc.sorted.nodup
  rw [hc.eq, List.nodup_append] at hnodup
  intro he
  exact hnodup.2.2 e he e List.mem_cons_self rfl

theorem Cut.mem (hc : r.Cut timeline done e rest) : e ∈ timeline := by
  rw [hc.eq]
  simp

theorem Cut.buffer_mem (hc : r.Cut timeline done e rest) (hd : d ∈ done) :
    d.bufferInfo ∈ r.buffers := by
  have hmem : d ∈ timeline := by
    rw [hc.eq]
    exact List.mem_append_left _ hd
  obtain ⟨b, hb, i, -, heq⟩ := hc.sorted.mem_iff.mp hmem
  cases heq with
  | inl heq => rw [heq]; exact hb
  | inr heq => rw [heq]; exact hb

theorem Cut.first_le (hc : r.Cut timeline done e rest) (hd : startOf x i ∈ done) :
    i.first ≤ e.tick := (less_false_iff.mp (hc.before hd)).1

/-- An interval that has ended ended before this start. -/
theorem Cut.last_lt (hc : r.Cut timeline done (startOf b j) rest) (hd : stopOf x i ∈ done) :
    i.last < j.first := by
  have hless := less_false_iff.mp (hc.before hd)
  have hle : i.last ≤ j.first := hless.1
  have hne : ¬ j.first = i.last := fun heq => hless.2 ⟨heq, rfl, rfl⟩
  omega

theorem Cut.le_last (hc : r.Cut timeline done e rest) (hd : stopOf x i ∈ timeline)
    (hdone : stopOf x i ∉ done) (hne : stopOf x i ≠ e) : e.tick ≤ i.last :=
  (less_false_iff.mp (hc.after hd hdone hne)).1

/-- An interval that has not begun begins after this end. -/
theorem Cut.lt_first (hc : r.Cut timeline done (stopOf b j) rest) (hd : startOf x i ∈ timeline)
    (hdone : startOf x i ∉ done) : j.last < i.first := by
  have hless := less_false_iff.mp (hc.after hd hdone startOf_ne_stopOf)
  have hle : j.last ≤ i.first := hless.1
  have htick : ¬ i.first = j.last := fun heq => hless.2 ⟨heq, rfl, rfl⟩
  omega

theorem apart_of_ne (hi : i ∈ r.intervals b) (hj : j ∈ r.intervals b) (hne : i ≠ j) :
    i.Apart j := by
  have : Std.Symm Interval.Apart := ⟨fun _ _ h => h.symm⟩
  exact (r.apart b).forall hi hj hne

/-- An interval of the buffer has begun and not ended. -/
def Open (r : Recorded) (done : List LivenessEvent) (x : BufferRef) : Prop :=
  ∃ i ∈ r.intervals x, startOf x i ∈ done ∧ stopOf x i ∉ done

/-- Intervals of the two buffers that have both begun share a tick. -/
def Met (r : Recorded) (done : List LivenessEvent) (a b : BufferRef) : Prop :=
  a ≠ b ∧ ∃ i ∈ r.intervals a, ∃ j ∈ r.intervals b, startOf a i ∈ done ∧ startOf b j ∈ done ∧
    i.first ≤ j.last ∧ j.first ≤ i.last

/-- A buffer that starts is not open. -/
theorem Cut.not_open (hc : r.Cut timeline done (startOf b j) rest) (hj : j ∈ r.intervals b)
    (hb : b ∈ r.buffers) : ¬ r.Open done b := by
  intro hopen
  obtain ⟨i, hi, hstart, hstop⟩ := hopen
  have hfirst : i.first ≤ j.first := hc.first_le hstart
  have hlast : j.first ≤ i.last := 
    hc.le_last (hc.sorted.stop_mem hb hi) hstop (Ne.symm startOf_ne_stopOf)
  have hne : i ≠ j := by
    intro heq
    rw [heq] at hstart
    exact hc.notMem hstart
  have hapart := apart_of_ne hi hj hne
  unfold Interval.Apart at hapart
  have hi' := i.le
  have hj' := j.le
  omega

/-- A buffer that ends is open. -/
theorem Cut.open_of_stop (hc : r.Cut timeline done (stopOf b j) rest) (hj : j ∈ r.intervals b)
    (hb : b ∈ r.buffers) : r.Open done b := by
  apply Exists.intro j
  apply And.intro hj
  constructor
  · by_contra hnot
    have hlt := hc.lt_first (hc.sorted.start_mem hb hj) hnot
    have hle := j.le
    omega
  · exact hc.notMem

theorem Cut.open_start (hc : r.Cut timeline done (startOf b j) rest) (hj : j ∈ r.intervals b) :
    r.Open (done ++ [startOf b j]) x ↔ r.Open done x ∨ x = b := by
  constructor
  · intro hopen
    obtain ⟨i, hi, hstart, hstop⟩ := hopen
    rw [List.mem_append, List.mem_singleton] at hstart
    cases hstart with
    | inl hstart => exact Or.inl ⟨i, hi, hstart, fun hmem => hstop (List.mem_append_left _ hmem)⟩
    | inr heq => exact Or.inr (congrArg LivenessEvent.bufferInfo heq)
  · intro h
    cases h with
    | inl hopen =>
      obtain ⟨i, hi, hstart, hstop⟩ := hopen
      refine ⟨i, hi, List.mem_append_left _ hstart, ?_⟩
      rw [List.mem_append, List.mem_singleton]
      intro hmem
      cases hmem with
      | inl hmem => exact hstop hmem
      | inr heq => exact startOf_ne_stopOf heq.symm
    | inr heq =>
      rw [heq]
      refine ⟨j, hj, by simp, ?_⟩
      rw [List.mem_append, List.mem_singleton]
      intro hmem
      cases hmem with
      | inl hmem =>
        have hlt := hc.last_lt hmem
        have hle := j.le
        omega
      | inr heq => exact startOf_ne_stopOf heq.symm

theorem Cut.open_stop (hc : r.Cut timeline done (stopOf b j) rest) (hj : j ∈ r.intervals b)
    (hb : b ∈ r.buffers) : r.Open (done ++ [stopOf b j]) x ↔ r.Open done x ∧ x ≠ b := by
  constructor
  · intro hopen
    obtain ⟨i, hi, hstart, hstop⟩ := hopen
    rw [List.mem_append, List.mem_singleton] at hstart hstop
    rw [not_or] at hstop
    have hbegun : startOf x i ∈ done := by
      cases hstart with
      | inl hstart => exact hstart
      | inr heq => exact absurd heq startOf_ne_stopOf
    refine ⟨⟨i, hi, hbegun, hstop.1⟩, ?_⟩
    intro heq
    subst heq
    have hne : i ≠ j := by
      intro heq
      rw [heq] at hstop
      exact hstop.2 rfl
    have hfirst : i.first ≤ j.last := hc.first_le hbegun
    have hlast : j.last ≤ i.last := hc.le_last (hc.sorted.stop_mem hb hi) hstop.1 hstop.2
    have hapart := apart_of_ne hi hj hne
    unfold Interval.Apart at hapart
    have hj' := j.le
    omega
  · intro h
    obtain ⟨⟨i, hi, hstart, hstop⟩, hne⟩ := h
    refine ⟨i, hi, List.mem_append_left _ hstart, ?_⟩
    rw [List.mem_append, List.mem_singleton]
    intro hmem
    cases hmem with
    | inl hmem => exact hstop hmem
    | inr heq => exact hne (congrArg LivenessEvent.bufferInfo heq)

/-- The starting buffer meets the open ones. -/
theorem Cut.meets (hc : r.Cut timeline done (startOf b j) rest) (hj : j ∈ r.intervals b)
    (hb : b ∈ r.buffers) (hopen : r.Open done x) :
    x ≠ b ∧ ∃ i ∈ r.intervals x, startOf x i ∈ done ∧ i.Holds j.first := by
  constructor
  · intro heq
    rw [heq] at hopen
    exact hc.not_open hj hb hopen
  · obtain ⟨i, hi, hstart, hstop⟩ := hopen
    have hx : x ∈ r.buffers := hc.buffer_mem hstart
    have hfirst : i.first ≤ j.first := hc.first_le hstart
    have hlast : j.first ≤ i.last :=
      hc.le_last (hc.sorted.stop_mem hx hi) hstop (Ne.symm startOf_ne_stopOf)
    exact ⟨i, hi, hstart, hfirst, hlast⟩

/-- An interval that has begun and shares a tick with the one that starts has not ended. -/
theorem Cut.open_of_meets (hc : r.Cut timeline done (startOf b j) rest) (hi : i ∈ r.intervals x)
    (hstart : startOf x i ∈ done) (hmeets : j.first ≤ i.last) : r.Open done x := by
  refine ⟨i, hi, hstart, ?_⟩
  intro hstop
  have hlt := hc.last_lt hstop
  omega

/-- A start adds the pairs of the buffer with the open ones. -/
theorem Cut.met_start (hc : r.Cut timeline done (startOf b j) rest) (hj : j ∈ r.intervals b)
    (hb : b ∈ r.buffers) : r.Met (done ++ [startOf b j]) a x ↔ r.Met done a x ∨
      (x = b ∧ r.Open done a) ∨ (a = b ∧ r.Open done x) := by
  constructor
  · intro hmet
    obtain ⟨hne, i, hi, k, hk, hstart, hstart', hik, hki⟩ := hmet
    rw [List.mem_append, List.mem_singleton] at hstart hstart'
    cases hstart with
    | inl hstart =>
      cases hstart' with
      | inl hstart' => exact Or.inl ⟨hne, i, hi, k, hk, hstart, hstart', hik, hki⟩
      | inr heq =>
        have hx : x = b := congrArg LivenessEvent.bufferInfo heq
        have hfirst : k.first = j.first := congrArg LivenessEvent.tick heq
        exact Or.inr (Or.inl ⟨hx, hc.open_of_meets hi hstart (hfirst ▸ hki)⟩)
    | inr heq =>
      have ha : a = b := congrArg LivenessEvent.bufferInfo heq
      have hfirst : i.first = j.first := congrArg LivenessEvent.tick heq
      cases hstart' with
      | inl hstart' =>
        exact Or.inr (Or.inr ⟨ha, hc.open_of_meets hk hstart' (hfirst ▸ hik)⟩)
      | inr heq' =>
        have hx : x = b := congrArg LivenessEvent.bufferInfo heq'
        exact absurd (ha.trans hx.symm) hne
  · intro h
    have hlast : startOf b j ∈ done ++ [startOf b j] := by simp
    rcases h with hmet | ⟨hx, hopen⟩ | ⟨ha, hopen⟩
    · obtain ⟨hne, i, hi, k, hk, hstart, hstart', hik, hki⟩ := hmet
      exact ⟨hne, i, hi, k, hk, List.mem_append_left _ hstart, List.mem_append_left _ hstart', hik,
        hki⟩
    · obtain ⟨hne, i, hi, hstart, hij, hji⟩ := hc.meets hj hb hopen
      subst hx
      exact ⟨hne, i, hi, j, hj, List.mem_append_left _ hstart, hlast, hij.trans j.le, hji⟩
    · obtain ⟨hne, i, hi, hstart, hij, hji⟩ := hc.meets hj hb hopen
      subst ha
      exact ⟨Ne.symm hne, j, hj, i, hi, hlast, List.mem_append_left _ hstart, hji, hij.trans j.le⟩

theorem met_stop : r.Met (done ++ [stopOf b j]) a x ↔ r.Met done a x := by
  have hstart (y : BufferRef) (i : Interval) :
      startOf y i ∈ done ++ [stopOf b j] ↔ startOf y i ∈ done := by
    rw [List.mem_append, List.mem_singleton, or_iff_left startOf_ne_stopOf]
  simp only [Met, hstart]

end Recorded

namespace Sweep

variable {sizeBytes : BufferRef → Int}

theorem mem_addConflict {c : BufferRef → List BufferRef} {o : BufferRef} :
    x ∈ addConflict b c o a ↔ x ∈ c a ∨ (a = o ∧ x = b) ∨ (a = b ∧ b ≠ o ∧ x = o) := by
  unfold addConflict
  by_cases hbo : b = o
  · subst hbo
    by_cases hab : a = b
    · subst hab
      simp
    · simp [hab]
  · by_cases hab : a = b
    · subst hab
      simp [hbo]
    · by_cases hao : a = o
      · subst hao
        simp [hbo, hab]
      · simp [hab, hao, hbo]

theorem mem_addConflicts (l : List BufferRef) (c : BufferRef → List BufferRef) :
    x ∈ l.foldl (addConflict b) c a ↔ x ∈ c a ∨ (x = b ∧ a ∈ l) ∨ (a = b ∧ x ≠ b ∧ x ∈ l) := by
  induction l generalizing c with
  | nil => simp
  | cons o l ih =>
    rw [List.foldl_cons, ih, mem_addConflict, List.mem_cons, List.mem_cons]
    constructor
    · intro h
      rcases h with (hc | ⟨ha, hx⟩ | ⟨ha, hbo, hx⟩) | ⟨hx, ha⟩ | ⟨ha, hne, hx⟩
      · exact Or.inl hc
      · exact Or.inr (Or.inl ⟨hx, Or.inl ha⟩)
      · exact Or.inr (Or.inr ⟨ha, fun h => hbo (h.symm.trans hx), Or.inl hx⟩)
      · exact Or.inr (Or.inl ⟨hx, Or.inr ha⟩)
      · exact Or.inr (Or.inr ⟨ha, hne, Or.inr hx⟩)
    · intro h
      rcases h with hc | ⟨hx, ha | ha⟩ | ⟨ha, hne, hx | hx⟩
      · exact Or.inl (Or.inl hc)
      · exact Or.inl (Or.inr (Or.inl ⟨ha, hx⟩))
      · exact Or.inr (Or.inl ⟨hx, ha⟩)
      · exact Or.inl (Or.inr (Or.inr ⟨ha, fun h => hne (hx.trans h.symm), hx⟩))
      · exact Or.inr (Or.inr ⟨ha, hne, hx⟩)

/-- What the traversal of a part of the timeline has found. -/
structure Swept (r : Recorded) (done : List LivenessEvent) (s : Sweep) : Prop where
  openSet : ∀ x, x ∈ s.openSet ↔ r.Open done x
  nodup : s.openSet.Nodup
  conflicts : ∀ a b, b ∈ s.conflicts a ↔ r.Met done a b

theorem Swept.start (hs : Swept r done s) (hc : r.Cut timeline done (startOf b j) rest)
    (hj : j ∈ r.intervals b) (hb : b ∈ r.buffers) :
    Swept r (done ++ [startOf b j]) (s.handle sizeBytes iteration (startOf b j)) := by
  have hnot : b ∉ s.openSet := fun hmem => hc.not_open hj hb ((hs.openSet b).mp hmem)
  have hset : (s.handle sizeBytes iteration (startOf b j)).openSet = s.openSet ++ [b] := if_neg hnot
  constructor
  · intro x
    rw [hset, List.mem_append, List.mem_singleton, hs.openSet, hc.open_start hj]
  · rw [hset]
    apply hs.nodup.append (List.nodup_singleton b)
    intro x hx hxb
    rw [List.mem_singleton] at hxb
    exact hnot (hxb ▸ hx)
  · intro a x
    rw [hc.met_start hj hb, ← hs.conflicts, ← hs.openSet, ← hs.openSet]
    show x ∈ (iteration.order s.openSet).foldl (addConflict b) s.conflicts a ↔ _
    rw [mem_addConflicts, (iteration.perm s.openSet).mem_iff, (iteration.perm s.openSet).mem_iff]
    constructor
    · intro h
      rcases h with h | h | ⟨ha, -, hx⟩
      · exact Or.inl h
      · exact Or.inr (Or.inl h)
      · exact Or.inr (Or.inr ⟨ha, hx⟩)
    · intro h
      rcases h with h | h | ⟨ha, hx⟩
      · exact Or.inl h
      · exact Or.inr (Or.inl h)
      · exact Or.inr (Or.inr ⟨ha, fun heq => hnot (heq ▸ hx), hx⟩)

theorem Swept.stop (hs : Swept r done s) (hc : r.Cut timeline done (stopOf b j) rest)
    (hj : j ∈ r.intervals b) (hb : b ∈ r.buffers) :
    Swept r (done ++ [stopOf b j]) (s.handle sizeBytes iteration (stopOf b j)) := by
  constructor
  · intro x
    show x ∈ s.openSet.erase b ↔ _
    rw [hs.nodup.mem_erase_iff, hs.openSet, hc.open_stop hj hb, and_comm]
  · exact hs.nodup.erase b
  · intro a x
    rw [Recorded.met_stop]
    exact hs.conflicts a x

theorem swept_nil (r : Recorded) : Swept r [] init := by
  constructor
  · intro x
    simp [init, Recorded.Open]
  · exact List.nodup_nil
  · intro a b
    simp [init, Recorded.Met]

theorem run_append (done : List LivenessEvent) (e : LivenessEvent) :
    run sizeBytes iteration (done ++ [e]) =
      (run sizeBytes iteration done).handle sizeBytes iteration e := by
  rw [run, List.foldl_append]
  rfl

/-- A fact about the parts of a timeline is proved start by start and end by end. -/
theorem along {P : List LivenessEvent → Sweep → Prop} (hsorted : r.Sorted timeline)
    (hnil : P [] init)
    (hstart : ∀ done rest s b j, r.Cut timeline done (startOf b j) rest → j ∈ r.intervals b →
      b ∈ r.buffers → P done s →
      P (done ++ [startOf b j]) (s.handle r.sizeBytes iteration (startOf b j)))
    (hstop : ∀ done rest s b j, r.Cut timeline done (stopOf b j) rest → j ∈ r.intervals b →
      b ∈ r.buffers → P done s →
      P (done ++ [stopOf b j]) (s.handle r.sizeBytes iteration (stopOf b j)))
    (done rest : List LivenessEvent) (heq : timeline = done ++ rest) :
    P done (run r.sizeBytes iteration done) := by
  induction done using List.reverseRecOn generalizing rest with
  | nil => exact hnil
  | append_singleton done e ih =>
    rw [List.append_assoc, List.singleton_append] at heq
    have hc : r.Cut timeline done e rest := ⟨hsorted, heq⟩
    have hprev := ih (e :: rest) heq
    rw [run_append]
    obtain ⟨b, hb, j, hj, he⟩ := hsorted.mem_iff.mp hc.mem
    cases he with
    | inl he =>
      subst he
      exact hstart done rest _ b j hc hj hb hprev
    | inr he =>
      subst he
      exact hstop done rest _ b j hc hj hb hprev

theorem swept (hsorted : r.Sorted timeline) (heq : timeline = done ++ rest) :
    Swept r done (run r.sizeBytes iteration done) := by
  apply along hsorted (swept_nil r) _ _ done rest heq
  · intro done rest s b j hc hj hb hs
    exact hs.start hc hj hb
  · intro done rest s b j hc hj hb hs
    exact hs.stop hc hj hb

/-- The sizes kept, while no tick has more than an `int` can hold. -/
structure Sized (r : Recorded) (s : Sweep) : Prop where
  size_eq : s.openSetSize = ∑ x ∈ s.openSet.toFinset, r.sizeBytes x
  le_max : s.openSetSize ≤ s.maxOpenSetSize
  nonneg : 0 ≤ s.maxOpenSetSize
  attained : ∃ tick, s.maxOpenSetSize ≤ r.liveSize tick

theorem sum_nonneg (r : Recorded) (l : Finset BufferRef) : 0 ≤ ∑ x ∈ l, r.sizeBytes x :=
  Finset.sum_nonneg fun x _ => r.size_nonneg x

theorem sized_init (r : Recorded) : Sized r init :=
  ⟨rfl, Int.le_refl 0, Int.le_refl 0, 0, sum_nonneg r _⟩

theorem Sized.start (hz : Sized r s) (hs : Swept r done s) (hbound : ∀ tick, r.liveSize tick < 2^31)
    (hc : r.Cut timeline done (startOf b j) rest) (hj : j ∈ r.intervals b) (hb : b ∈ r.buffers) :
    Sized r (s.handle r.sizeBytes iteration (startOf b j)) := by
  have hnot : b ∉ s.openSet := fun hmem => hc.not_open hj hb ((hs.openSet b).mp hmem)
  have hset : (s.handle r.sizeBytes iteration (startOf b j)).openSet = s.openSet ++ [b] := if_neg hnot
  have hsum : ∑ x ∈ (s.openSet ++ [b]).toFinset, r.sizeBytes x = s.openSetSize + r.sizeBytes b := by
    have hinsert : (s.openSet ++ [b]).toFinset = insert b s.openSet.toFinset := by
      ext x
      simp
    rw [hinsert, Finset.sum_insert (by simpa using hnot), hz.size_eq, Int.add_comm]
  have hlive : s.openSetSize + r.sizeBytes b ≤ r.liveSize j.first := by
    rw [← hsum]
    apply Finset.sum_le_sum_of_subset_of_nonneg
    · intro x hx
      rw [List.mem_toFinset, List.mem_append, List.mem_singleton] at hx
      rw [Finset.mem_filter, List.mem_toFinset]
      cases hx with
      | inl hx =>
        have hopen := (hs.openSet x).mp hx
        obtain ⟨-, i, hi, hstart, hholds⟩ := hc.meets hj hb hopen
        exact ⟨hc.buffer_mem hstart, i, hi, hholds⟩
      | inr heq =>
        rw [heq]
        exact ⟨hb, j, hj, Nat.le_refl _, j.le⟩
    · intro x _ _
      exact r.size_nonneg x
  have hsize : (s.handle r.sizeBytes iteration (startOf b j)).openSetSize =
      s.openSetSize + r.sizeBytes b := by
    have hnonneg : 0 ≤ s.openSetSize + r.sizeBytes b := by
      rw [← hsum]
      exact sum_nonneg r _
    exact int32_of_small _ hnonneg (hlive.trans_lt (hbound j.first))
  have hmax : (s.handle r.sizeBytes iteration (startOf b j)).maxOpenSetSize =
      if s.openSetSize + r.sizeBytes b > s.maxOpenSetSize then s.openSetSize + r.sizeBytes b
      else s.maxOpenSetSize := by
    rw [← hsize]
    rfl
  have hnonneg := hz.nonneg
  constructor
  · rw [hsize, hset, hsum]
  · rw [hsize, hmax]
    split_ifs
    · exact Int.le_refl _
    · omega
  · rw [hmax]
    split_ifs
    · omega
    · exact hnonneg
  · rw [hmax]
    split_ifs
    · exact ⟨j.first, hlive⟩
    · exact hz.attained

theorem Sized.stop (hz : Sized r s) (hs : Swept r done s) (hbound : ∀ tick, r.liveSize tick < 2^31)
    (hc : r.Cut timeline done (stopOf b j) rest) (hj : j ∈ r.intervals b) (hb : b ∈ r.buffers) :
    Sized r (s.handle r.sizeBytes iteration (stopOf b j)) := by
  have hmem : b ∈ s.openSet := (hs.openSet b).mpr (hc.open_of_stop hj hb)
  have hsum : ∑ x ∈ (s.openSet.erase b).toFinset, r.sizeBytes x = s.openSetSize - r.sizeBytes b := by
    have herase : (s.openSet.erase b).toFinset = s.openSet.toFinset.erase b := by
      ext x
      simp [hs.nodup.mem_erase_iff]
    rw [herase, hz.size_eq, ← Finset.add_sum_erase s.openSet.toFinset r.sizeBytes (by simpa using hmem)]
    omega
  have hsize : (s.handle r.sizeBytes iteration (stopOf b j)).openSetSize =
      s.openSetSize - r.sizeBytes b := by
    have hnonneg : 0 ≤ s.openSetSize - r.sizeBytes b := by
      rw [← hsum]
      exact sum_nonneg r _
    obtain ⟨tick, htick⟩ := hz.attained
    have hlt := hbound tick
    have hle := hz.le_max
    have hb := r.size_nonneg b
    show int32 (s.openSetSize - r.sizeBytes b) = _
    apply int32_of_small _ hnonneg
    omega
  have hle := hz.le_max
  have hsize_nonneg := r.size_nonneg b
  constructor
  · rw [hsize, ← hsum]
    rfl
  · rw [hsize]
    show _ ≤ s.maxOpenSetSize
    omega
  · exact hz.nonneg
  · exact hz.attained

theorem sized (hsorted : r.Sorted timeline) (hbound : ∀ tick, r.liveSize tick < 2^31)
    (heq : timeline = done ++ rest) : Sized r (run r.sizeBytes iteration done) := by
  have hboth : Swept r done (run r.sizeBytes iteration done) ∧
      Sized r (run r.sizeBytes iteration done) := by
    apply along (P := fun done s => Swept r done s ∧ Sized r s) hsorted
      ⟨swept_nil r, sized_init r⟩ _ _ done rest heq
    · intro done rest s b j hc hj hb hs
      exact ⟨hs.1.start hc hj hb, hs.2.start hs.1 hbound hc hj hb⟩
    · intro done rest s b j hc hj hb hs
      exact ⟨hs.1.stop hc hj hb, hs.2.stop hs.1 hbound hc hj hb⟩
  exact hboth.2

theorem max_le_handle (s : Sweep) (e : LivenessEvent) :
    s.maxOpenSetSize ≤ (s.handle sizeBytes iteration e).maxOpenSetSize := by
  unfold handle
  cases e.leType with
  | start =>
    simp only
    split_ifs
    · omega
    · exact Int.le_refl _
  | stop => exact Int.le_refl _

theorem max_le_run (done rest : List LivenessEvent) :
    (run sizeBytes iteration done).maxOpenSetSize ≤
      (run sizeBytes iteration (done ++ rest)).maxOpenSetSize := by
  induction rest using List.reverseRecOn with
  | nil => rw [List.append_nil]
  | append_singleton rest e ih =>
    rw [← List.append_assoc, run_append]
    exact ih.trans (max_le_handle _ _)

end Sweep

theorem mem_takeWhile_iff {α : Type*} {R : α → α → Prop} {p : α → Bool} {l : List α} {e : α}
    (hl : l.Pairwise R) (hp : ∀ d e, R d e → p e = true → p d = true) (he : e ∈ l) :
    e ∈ l.takeWhile p ↔ p e = true := by
  constructor
  · exact List.mem_takeWhile_imp
  · intro hpe
    induction l with
    | nil => cases he
    | cons d l ih =>
      rw [List.pairwise_cons] at hl
      cases List.mem_cons.mp he with
      | inl heq =>
        subst heq
        rw [List.takeWhile_cons_of_pos hpe]
        exact List.mem_cons_self
      | inr hmem =>
        rw [List.takeWhile_cons_of_pos (hp d e (hl.1 e hmem) hpe)]
        exact List.mem_cons_of_mem _ (ih hl.2 hmem)

/-- The event comes no later than the starts of a tick. -/
def upTo (tick : Nat) (e : LivenessEvent) : Bool :=
  decide (e.tick < tick ∨ (e.tick = tick ∧ e.leType = .start))

namespace Recorded

theorem Sorted.mem_upTo (hs : r.Sorted timeline) (tick : Nat) (he : e ∈ timeline) :
    e ∈ timeline.takeWhile (upTo tick) ↔ upTo tick e = true := by
  apply mem_takeWhile_iff hs.2 _ he
  intro d e hless hup
  have hle := less_false_iff.mp hless
  rw [upTo, decide_eq_true_iff] at hup ⊢
  cases hup with
  | inl hlt => exact Or.inl (by omega)
  | inr heq =>
    by_cases htick : d.tick < tick
    · exact Or.inl htick
    · right
      have hdt : d.tick = tick := by omega
      apply And.intro hdt
      cases hd : d.leType with
      | start => rfl
      | stop => exact absurd ⟨heq.1.trans hdt.symm, heq.2, hd⟩ hle.2

/-- Once the starts of a tick are done, the open set are the buffers live at it. -/
theorem Sorted.open_upTo (hs : r.Sorted timeline) (tick : Nat) :
    r.Open (timeline.takeWhile (upTo tick)) x ↔ x ∈ r.buffers ∧ r.Live tick x := by
  have hstart {i : Interval} (hx : x ∈ r.buffers) (hi : i ∈ r.intervals x) :
      startOf x i ∈ timeline.takeWhile (upTo tick) ↔ i.first ≤ tick := by
    rw [hs.mem_upTo tick (hs.start_mem hx hi), upTo, decide_eq_true_iff]
    show (i.first < tick ∨ i.first = tick ∧ LivenessEventType.start = .start) ↔ _
    simp [Nat.le_iff_lt_or_eq]
  have hstop {i : Interval} (hx : x ∈ r.buffers) (hi : i ∈ r.intervals x) :
      stopOf x i ∈ timeline.takeWhile (upTo tick) ↔ i.last < tick := by
    rw [hs.mem_upTo tick (hs.stop_mem hx hi), upTo, decide_eq_true_iff]
    show (i.last < tick ∨ i.last = tick ∧ LivenessEventType.stop = .start) ↔ _
    simp
  constructor
  · intro hopen
    obtain ⟨i, hi, hbegun, hleft⟩ := hopen
    have hx : x ∈ r.buffers := by
      have hmem := (List.takeWhile_prefix _).subset hbegun
      obtain ⟨b, hb, k, -, heq⟩ := hs.mem_iff.mp hmem
      cases heq with
      | inl heq => rw [show x = b from congrArg LivenessEvent.bufferInfo heq]; exact hb
      | inr heq => exact absurd heq startOf_ne_stopOf
    rw [hstart hx hi] at hbegun
    rw [hstop hx hi] at hleft
    exact ⟨hx, i, hi, hbegun, by omega⟩
  · intro h
    obtain ⟨hx, i, hi, hfirst, hlast⟩ := h
    refine ⟨i, hi, (hstart hx hi).mpr hfirst, ?_⟩
    rw [hstop hx hi]
    omega

theorem Sorted.met_all (hs : r.Sorted timeline) (ha : a ∈ r.buffers) (hb : b ∈ r.buffers)
    (hne : a ≠ b) : r.Met timeline a b ↔ r.Overlap a b := by
  constructor
  · intro h
    obtain ⟨-, i, hi, j, hj, -, -, hij, hji⟩ := h
    have hi' := i.le
    have hj' := j.le
    refine ⟨i, hi, j, hj, max i.first j.first, ?_, ?_⟩
    · unfold Interval.Holds
      omega
    · unfold Interval.Holds
      omega
  · intro h
    obtain ⟨i, hi, j, hj, tick, hti, htj⟩ := h
    unfold Interval.Holds at hti htj
    exact ⟨hne, i, hi, j, hj, hs.start_mem ha hi, hs.start_mem hb hj, by omega, by omega⟩

theorem Met.symm (h : r.Met done a b) : r.Met done b a := by
  obtain ⟨hne, i, hi, j, hj, hstart, hstart', hij, hji⟩ := h
  exact ⟨Ne.symm hne, j, hj, i, hi, hstart', hstart, hji, hij⟩

theorem maximum_of_bound (hs : r.Sorted timeline) (hbound : ∀ tick, r.liveSize tick < 2^31) :
    IsGreatest (Set.range r.liveSize) (Sweep.run r.sizeBytes iteration timeline).maxOpenSetSize := by
  have hle (tick : Nat) :
      r.liveSize tick ≤ (Sweep.run r.sizeBytes iteration timeline).maxOpenSetSize := by
    have heq := (List.takeWhile_append_dropWhile (p := upTo tick) (l := timeline)).symm
    have hswept : Sweep.Swept r _ (Sweep.run r.sizeBytes iteration _) := Sweep.swept hs heq
    have hsized : Sweep.Sized r (Sweep.run r.sizeBytes iteration _) := Sweep.sized hs hbound heq
    have hlive : (Sweep.run r.sizeBytes iteration (timeline.takeWhile (upTo tick))).openSet.toFinset =
        r.buffers.toFinset.filter (r.Live tick) := by
      ext x
      rw [List.mem_toFinset, hswept.openSet, hs.open_upTo, Finset.mem_filter, List.mem_toFinset]
    have hmono := @Sweep.max_le_run iteration r.sizeBytes (timeline.takeWhile (upTo tick))
      (timeline.dropWhile (upTo tick))
    rw [List.takeWhile_append_dropWhile] at hmono
    calc r.liveSize tick
        = (Sweep.run r.sizeBytes iteration (timeline.takeWhile (upTo tick))).openSetSize := by
          rw [hsized.size_eq, hlive]
          rfl
      _ ≤ (Sweep.run r.sizeBytes iteration (timeline.takeWhile (upTo tick))).maxOpenSetSize :=
          hsized.le_max
      _ ≤ _ := hmono
  have hsized : Sweep.Sized r (Sweep.run r.sizeBytes iteration timeline) :=
    Sweep.sized hs hbound (List.append_nil timeline).symm
  obtain ⟨tick, htick⟩ := hsized.attained
  constructor
  · exact ⟨tick, le_antisymm (hle tick) htick⟩
  · intro z hz
    obtain ⟨t, rfl⟩ := hz
    exact hle t

end Recorded

theorem int32_lt (z : Int) : int32 z < 2^31 := by
  have := Int.bmod_lt (x := z) (m := 2^32) (by decide)
  unfold int32
  omega

/-- The sizes are kept in an `int`. -/
theorem Sweep.max_lt (timeline : List LivenessEvent) (sizeBytes : BufferRef → Int) :
    (Sweep.run sizeBytes iteration timeline).maxOpenSetSize < 2^31 := by
  induction timeline using List.reverseRecOn with
  | nil =>
    show (0 : Int) < 2^31
    decide
  | append_singleton done e ih =>
    rw [Sweep.run_append]
    unfold Sweep.handle
    cases e.leType with
    | start =>
      simp only
      split_ifs
      · exact int32_lt _
      · exact ih
    | stop => exact ih

/-- The conflict lists hold exactly the overlaps, whatever the sizes are. -/
theorem sweep_conflicts (hs : r.Sorted timeline) (ha : a ∈ r.buffers) (hb : b ∈ r.buffers)
    (hne : a ≠ b) :
    b ∈ (Sweep.run r.sizeBytes iteration timeline).conflicts a ↔ r.Overlap a b := by
  have hswept : Sweep.Swept r timeline (Sweep.run r.sizeBytes iteration timeline) :=
    Sweep.swept hs (List.append_nil timeline).symm
  rw [hswept.conflicts, hs.met_all ha hb hne]

/-- The sweep is exact if and only if no tick has more live bytes than an `int` can hold. -/
theorem liveness_sweep_exact_iff (r : Recorded) (iteration : SetOrder)
    (timeline : List LivenessEvent) (hs : r.Sorted timeline) :
    r.Exact (Sweep.run r.sizeBytes iteration timeline) ↔ ∀ tick, r.liveSize tick < 2^31 := by
  constructor
  · intro hexact tick
    have hle := hexact.maximum.2 ⟨tick, rfl⟩
    exact hle.trans_lt (Sweep.max_lt timeline r.sizeBytes)
  · intro hbound
    have hswept : Sweep.Swept r timeline (Sweep.run r.sizeBytes iteration timeline) :=
      Sweep.swept hs (List.append_nil timeline).symm
    constructor
    · intro a ha b hb hne
      exact sweep_conflicts hs ha hb hne
    · intro a b hconf
      rw [hswept.conflicts] at hconf ⊢
      exact hconf.symm
    · intro a hconf
      rw [hswept.conflicts] at hconf
      exact hconf.1 rfl
    · exact Recorded.maximum_of_bound hs hbound

/-- Two buffers of one size, live from tick 0 to tick 1. -/
def twoLive (size : Nat) : Recorded where
  buffers := [0, 1]
  sizeBytes _ := size
  intervals _ := [⟨0, 1, by omega⟩]
  nodup := by decide
  size_nonneg _ := by omega
  apart _ := List.pairwise_singleton _ _

def twoLiveTimeline : List LivenessEvent :=
  [⟨0, .start, 0⟩, ⟨0, .start, 1⟩, ⟨1, .stop, 0⟩, ⟨1, .stop, 1⟩]

theorem twoLive_sorted (size : Nat) : (twoLive size).Sorted twoLiveTimeline := by
  have hevents : (twoLive size).leEventsTimeline =
      [⟨0, .start, 0⟩, ⟨1, .stop, 0⟩, ⟨0, .start, 1⟩, ⟨1, .stop, 1⟩] := rfl
  constructor
  · rw [hevents]
    decide
  · decide

theorem twoLive_liveSize_le (size tick : Nat) : (twoLive size).liveSize tick ≤ 2 * size := by
  have hle : (twoLive size).liveSize tick ≤ ∑ b ∈ (twoLive size).buffers.toFinset,
      (twoLive size).sizeBytes b := by
    apply Finset.sum_le_sum_of_subset_of_nonneg (Finset.filter_subset _ _)
    intro b _ _
    exact (twoLive size).size_nonneg b
  apply hle.trans
  simp [twoLive]

/-- Two gigabytes live at once do not fit the `int`. -/
theorem liveness_sweep_overflows :
    ¬ ∀ (r : Recorded) (iteration : SetOrder) (timeline : List LivenessEvent),
      r.Sorted timeline → r.Exact (Sweep.run r.sizeBytes iteration timeline) := by
  intro hall
  let iteration : SetOrder := ⟨id, fun l => List.Perm.refl l⟩
  have hexact := hall (twoLive (2^30)) iteration twoLiveTimeline (twoLive_sorted (2^30))
  have hle := hexact.maximum.2 ⟨0, rfl⟩
  have hlt := @Sweep.max_lt iteration twoLiveTimeline (twoLive (2^30)).sizeBytes
  have htotal : (twoLive (2^30)).liveSize 0 = 2^31 := by
    have hfilter : (twoLive (2^30)).buffers.toFinset.filter ((twoLive (2^30)).Live 0) = {0, 1} := by
      decide
    unfold Recorded.liveSize
    rw [hfilter]
    decide
  omega

theorem liveness_sweep_exact_small :
    (twoLive 100).Exact (Sweep.run (twoLive 100).sizeBytes ⟨id, fun l => List.Perm.refl l⟩
      twoLiveTimeline) := by
  apply (liveness_sweep_exact_iff (twoLive 100) ⟨id, fun l => List.Perm.refl l⟩ twoLiveTimeline
    (twoLive_sorted 100)).mpr
  intro tick
  have hle := twoLive_liveSize_le 100 tick
  omega

end StencilGraph.Usmp

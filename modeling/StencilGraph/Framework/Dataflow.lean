import Mathlib.Tactic.Common

namespace StencilGraph.Framework

/-- Tasks that compute some locations of a memory from others. `leaves t view mem` says what a task
that has read `view` may leave in the memory. -/
structure Flow (T B V : Type*) where
  task : T → Prop
  reads : T → B → Prop
  writes : T → B → Prop
  leaves : T → (B → V) → (B → V) → Prop

namespace Flow

variable {T B V : Type*}

/-- The memory at a moment, with what the running tasks have read. -/
structure Moment (T B V : Type*) where
  completed : T → Prop
  running : T → Prop
  mem : B → V
  view : T → B → V

variable (F : Flow T B V)

/-- A running task may write the location. -/
def Touched (s : Moment T B V) (b : B) : Prop := ∃ t, s.running t ∧ F.writes t b

/-- One moment and the next one. Tasks run at the same time: a location that one of them writes may
hold anything meanwhile, and so may what another one reads of it. -/
structure Step (s s' : Moment T B V) : Prop where
  frame : ∀ b, ¬ F.Touched s b → s'.mem b = s.mem b
  start : ∀ t, s'.running t → ¬ s.running t → s'.view t = s'.mem
  keep : ∀ t, s.running t → ∀ b, ¬ F.Touched s b → s'.view t b = s.view t b
  finish : ∀ t, s'.completed t → ¬ s.completed t → s.running t ∧ F.leaves t (s'.view t) s'.mem

/-- The schedule: what a task reads has been written by tasks that have completed. -/
structure Orderly (s : Moment T B V) : Prop where
  task : ∀ t, s.running t ∨ s.completed t → F.task t
  apart : ∀ t, s.running t → ¬ s.completed t
  ready : ∀ t, s.running t → ∀ b, F.reads t b → ∃ d, s.completed d ∧ F.writes d b

/-- No location has two writers. -/
def SingleWriter : Prop := ∀ t t' b, F.task t → F.task t' → F.writes t b → F.writes t' b → t = t'

/-- A memory that every task leaves as it is. -/
def Solves (target : B → V) : Prop :=
  ∀ t, F.task t → ∀ view mem, (∀ b, F.reads t b → view b = target b) → F.leaves t view mem →
    ∀ b, F.writes t b → mem b = target b

/-- What has been written, and what running tasks have read, is final. -/
structure Settled (target : B → V) (s : Moment T B V) : Prop where
  written : ∀ t, s.completed t → ∀ b, F.writes t b → s.mem b = target b
  read : ∀ t, s.running t → ∀ b, F.reads t b → s.view t b = target b

variable {F} {s s' : Moment T B V} {t t' : T} {b : B} {target : B → V}

theorem Orderly.not_touched (h : F.Orderly s) (hw : F.SingleWriter) (ht : s.completed t)
    (hb : F.writes t b) : ¬ F.Touched s b := by
  intro htouched
  obtain ⟨t', hrun, hb'⟩ := htouched
  have heq := hw t t' b (h.task t (Or.inr ht)) (h.task t' (Or.inl hrun)) hb hb'
  exact h.apart t' hrun (heq ▸ ht)

/-- Tasks that run at the same time do not race. -/
theorem Orderly.no_race (h : F.Orderly s) (hw : F.SingleWriter) (ht : s.running t)
    (ht' : s.running t') (hne : t ≠ t') (hb : F.writes t b) :
    ¬ F.reads t' b ∧ ¬ F.writes t' b := by
  constructor
  · intro hread
    obtain ⟨d, hd, hdb⟩ := h.ready t' ht' b hread
    exact h.not_touched hw hd hdb ⟨t, ht, hb⟩
  · intro hb'
    exact hne (hw t t' b (h.task t (Or.inl ht)) (h.task t' (Or.inl ht')) hb hb')

/-- A step keeps what is final. -/
theorem Settled.step (h : F.Settled target s) (hsolve : F.Solves target) (hw : F.SingleWriter)
    (ho : F.Orderly s) (ho' : F.Orderly s') (hstep : F.Step s s') : F.Settled target s' := by
  have hview (t : T) (ht : s.running t) (b : B) (hb : F.reads t b) : s'.view t b = target b := by
    obtain ⟨d, hd, hdb⟩ := ho.ready t ht b hb
    rw [hstep.keep t ht b (ho.not_touched hw hd hdb)]
    exact h.read t ht b hb
  have hwritten (t : T) (ht : s'.completed t) (b : B) (hb : F.writes t b) :
      s'.mem b = target b := by
    by_cases hdone : s.completed t
    · rw [hstep.frame b (ho.not_touched hw hdone hb)]
      exact h.written t hdone b hb
    · obtain ⟨hrun, hleaves⟩ := hstep.finish t ht hdone
      exact hsolve t (ho.task t (Or.inl hrun)) _ _ (hview t hrun) hleaves b hb
  refine ⟨hwritten, fun t ht b hb => ?_⟩
  by_cases hrun : s.running t
  · exact hview t hrun b hb
  · rw [hstep.start t ht hrun]
    obtain ⟨d, hd, hdb⟩ := ho'.ready t ht b hb
    exact hwritten d hd b hdb

/-- When every running task has something to leave, there is a next moment for every set of tasks that
complete. -/
theorem exists_step (hw : F.SingleWriter) (ho : F.Orderly s) (completed running : T → Prop)
    (hcompleted : ∀ t, completed t → s.completed t ∨ s.running t)
    (hstores : ∀ t, s.running t → ∃ stores : B → Option V,
      (∀ b v, stores b = some v → F.writes t b) ∧
      ∀ mem, (∀ b v, stores b = some v → mem b = v) → F.leaves t (s.view t) mem) :
    ∃ mem view, F.Step s ⟨completed, running, mem, view⟩ := by
  choose stores hwrites hleaves using hstores
  have hnext (b : B) : ∃ v, (∀ t ht w, stores t ht b = some w → v = w) ∧
      (¬ F.Touched s b → v = s.mem b) := by
    by_cases hex : ∃ t ht v, stores t ht b = some v
    · obtain ⟨t, ht, v, hv⟩ := hex
      refine ⟨v, fun t' ht' w hv' => ?_, fun hno => absurd ⟨t, ht, hwrites t ht b v hv⟩ hno⟩
      obtain rfl := hw t t' b (ho.task t (Or.inl ht)) (ho.task t' (Or.inl ht')) (hwrites t ht b v hv)
        (hwrites t' ht' b w hv')
      exact Option.some.inj (hv.symm.trans hv')
    · exact ⟨s.mem b, fun t ht w hv => absurd ⟨t, ht, w, hv⟩ hex, fun _ => rfl⟩
  choose mem hmem hframe using hnext
  classical
  refine ⟨mem, fun t => if s.running t then s.view t else mem, hframe, fun t _ ht => if_neg ht,
    fun t ht b _ => congrFun (if_pos ht) b, fun t ht hnew => ?_⟩
  have hrun : s.running t := (hcompleted t ht).resolve_left hnew
  refine ⟨hrun, ?_⟩
  show F.leaves t (if s.running t then s.view t else mem) mem
  rw [if_pos hrun]
  exact hleaves t hrun mem fun b v hv => hmem b t hrun v hv

end Flow

end StencilGraph.Framework

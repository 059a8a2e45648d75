import StencilGraph.Codegen.Kernels
import StencilGraph.Stream.ThreadOrder

namespace StencilGraph.Codegen
open Framework Relay StencilGraph.Stream Relation StreamSolver CodeGen NodeAutoFusion

variable {V : Type} {I : Interp V} {h : Heap} {ps L : List Nat} {b x y : Nat} {N : String → Prop}
  {σ : Env V} {levels : List (List Nat)} {keep : Nat → Bool} {streams : Streams} {n : Nat}
  {machine machine' : Machine} {mem mem' target : String → V} {view view' : Nat → String → V}

/-- The kernels at a moment of the generated program. -/
def moment (streams : Streams) (machine : Machine) (mem : String → V) (view : Nat → String → V) :
    Flow.Moment Nat String V :=
  ⟨(· ∈ machine.completed streams), machine.Running streams, mem, view⟩

/-- An interleaving of the generated program with what its storages hold. They may hold anything at
the start. -/
inductive Computes (I : Interp V) (h : Heap) (callSequence : List Nat) (σ : Env V)
    (streams : Streams) : Machine → (String → V) → (Nat → String → V) → Prop where
  | init (mem : String → V) (view : Nat → String → V) :
      Computes I h callSequence σ streams (.init streams) mem view
  | step {m m' : Machine} {mem mem' : String → V} {view view' : Nat → String → V} (party : Party)
      (hrun : Computes I h callSequence σ streams m mem view) (hstep : m.step party = some m')
      (hmem : (kernelFlow I h callSequence σ).Step (moment streams m mem view)
        (moment streams m' mem' view')) :
      Computes I h callSequence σ streams m' mem' view'

theorem Computes.run (hrun : Computes I h L σ streams machine mem view) :
    ∃ n, Machine.Run streams n machine := by
  induction hrun with
  | init mem view => exact ⟨0, .init⟩
  | step party _ hstep _ ih =>
    obtain ⟨n, hn⟩ := ih
    exact ⟨n + 1, .step party hn hstep⟩

section Main

variable (hm : Main h ps b) (hn : Named h b N) (hN : ∀ name, N name → ∃ n : Nat, name = toString n)
  (hL : ∀ x, x ∈ L ↔ TopCall h b x) (hs : Scheduled h b levels keep)

include hm hn hN hL hs

theorem orderly_of_run (hrun : Machine.Run (streamsOf keep levels) n machine) (mem : String → V)
    (view : Nat → String → V) :
    (kernelFlow I h L σ).Orderly (moment (streamsOf keep levels) machine mem view) := by
  have htop (x : Nat) (hx : machine.Dispatched (streamsOf keep levels) x) : TopCall h b x :=
    topCall_of_dispatched hs hrun hx
  refine ⟨fun x hx => (hL x).mpr (htop x ?_), fun x hx => not_completed_of_running hs hrun hx,
    fun x hx buffer hread => ?_⟩
  · cases hx with
    | inl hrunning => exact hrunning.dispatched
    | inr hcompleted => exact dispatched_of_completed hcompleted
  · have hx : machine.Running (streamsOf keep levels) x := hx
    obtain ⟨r, hr, rfl⟩ := (mem_reads_iff hm hn hN hL (htop x hx.dispatched)).mp hread
    have hdep := top_of_read hm (htop x hx.dispatched) hr
    refine ⟨r.1, completed_of_dep hs hrun hdep hx.dispatched, ?_⟩
    exact (mem_writes_iff hm hn hN hL hdep.1).mpr
      ⟨r, (result_of_read hm (htop x hx.dispatched) hr).2, rfl⟩

/-- What a completed kernel has stored is the value of its call, whatever runs beside it. -/
theorem Computes.settled (hσ : Binds h ps σ) (htarget : Holds I h L σ b target)
    (hrun : Computes I h L σ (streamsOf keep levels) machine mem view) :
    (kernelFlow I h L σ).Settled target (moment (streamsOf keep levels) machine mem view) := by
  induction hrun with
  | init mem view =>
    refine ⟨fun x hx => ?_, fun x hx => ?_⟩
    · obtain ⟨i, hi, hx⟩ := mem_completed.mp hx
      cases hx
    · obtain ⟨i, hi, hbusy, -⟩ := hx
      cases hbusy
  | step party hrun hstep hmem ih =>
    obtain ⟨n, hn'⟩ := hrun.run
    exact ih.step (kernelFlow_solves hm hn hN hL hσ htarget) (kernelFlow_singleWriter hm hn hN hL)
      (orderly_of_run hm hn hN hL hs hn' _ _)
      (orderly_of_run hm hn hN hL hs (.step party hn' hstep) _ _) hmem

/-- Every interleaving has storages that go with it, when the headers of the kernels are functions. -/
theorem exists_computes (hσ : Binds h ps σ)
    (hfields : ∀ x ∈ L, ∀ fields, printCallFields h L x = some fields → fields.Nodup)
    (start : String → V) (hrun : Machine.Run (streamsOf keep levels) n machine) :
    ∃ mem view, Computes I h L σ (streamsOf keep levels) machine mem view := by
  induction hrun with
  | init => exact ⟨start, fun _ => start, .init _ _⟩
  | step party hrun hstep ih =>
    obtain ⟨mem, view, hcomputes⟩ := ih
    obtain ⟨mem', view', hmem⟩ := Flow.exists_step (kernelFlow_singleWriter hm hn hN hL)
      (orderly_of_run (I := I) (σ := σ) hm hn hN hL hs hrun mem view) _ _
      (fun x hx => completed_step hstep hx) fun x hx => by
        have hx : Machine.Running _ _ x := hx
        have htop := topCall_of_dispatched hs hrun hx.dispatched
        exact kernelFlow_stores hm hn hN hL hσ htop (hfields x ((hL x).mpr htop))
    exact ⟨mem', view', .step party hcomputes hstep hmem⟩

end Main

variable {m m' : Module}

/-- Two stencils that run on two streams, and a third one that reads both. -/
def forkModule : Module :=
  ⟨[.var "data_0", .call (.op "1" 1) [0], .call (.op "2" 1) [0], .call (.op "3" 1) [1, 2],
    .function [0] 3 []], 4⟩

theorem forkModule_stencil : forkModule.Stencil [0] 3 := by
  have h0 : Typed forkModule.heap noCall (IsCall forkModule.heap) [0] 0 :=
    .var 0 "data_0" rfl (by simp)
  have h1 : Typed forkModule.heap noCall (IsCall forkModule.heap) [0] 1 :=
    .op 1 "1" 1 [0] rfl (by simpa using h0) (by decide)
  have h2 : Typed forkModule.heap noCall (IsCall forkModule.heap) [0] 2 :=
    .op 2 "2" 1 [0] rfl (by simpa using h0) (by decide)
  have h3 : Typed forkModule.heap noCall (IsCall forkModule.heap) [0] 3 :=
    .op 3 "3" 1 [1, 2] rfl (by simpa using ⟨h1, h2⟩) (by decide)
  refine ⟨?_, ⟨[], rfl⟩, by decide, ?_, h3, Or.inl (by decide)⟩
  · have hwf : ∀ x < 5, ∀ n ∈ forkModule.heap[x]?, ∀ y ∈ n.refs, y < x := by decide
    exact fun x n hx => hwf x (lt_of_get hx) n hx
  · intro p hp
    obtain rfl : p = 0 := by simpa using hp
    exact ⟨"data_0", rfl⟩

theorem forkModule_ssaNumbers : SsaNumbers forkModule.heap 3 :=
  ssaNumbers_of_tags [(1, 1), (2, 2), (3, 3)] (by decide) (by decide)

end StencilGraph.Codegen

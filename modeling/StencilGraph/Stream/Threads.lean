import StencilGraph.Framework.CounterBarrier
import StencilGraph.Stream.Syncs

namespace StencilGraph.Stream
open Framework Relay CodeGen

/-- What a thread launches on its stream: the kernel that warms the device up, or a call. -/
inductive Kernel where
  | warmUp
  | call (x : Nat)
  deriving DecidableEq, Repr

def Kernel.call? : Kernel → Option Nat
  | .warmUp => none
  | .call x => some x

/-- `START` and the variables `sync_<step>`. -/
inductive Counter where
  | start
  | sync (step : Nat)
  deriving DecidableEq, Repr

/-- The statements of `launch_kernel_<index>` that the device or another thread can see. -/
inductive Statement where
  | launch (kernel : Kernel)
  | streamSynchronize
  | increment (v : Counter)
  | await (v : Counter) (n : Nat)
  deriving DecidableEq, Repr

/-- The statements of `main` about the counters and the threads. -/
inductive MainStatement where
  | reset (v : Counter)
  | create (index : Nat)
  | await (v : Counter) (n : Nat)
  | join (index : Nat)
  deriving DecidableEq, Repr

namespace GenMain

/-- `sync_var_length` of `sync_<step>`. -/
def syncVarLength (streams : Streams) (step : Nat) : Nat := streams.flatten.count (.sync step)

/-- The keys of `sync_var_length`. -/
def syncVars (streams : Streams) : List Nat :=
  (streams.flatten.filterMap fun
    | .call _ => none
    | .sync step => some step).eraseDups

/-- The value that a counter is compared with. -/
def awaited (streams : Streams) : Counter → Nat
  | .start => streams.length
  | .sync step => syncVarLength streams step

def genSingleCall (streams : Streams) : Element → List Statement
  | .call x => [.launch (.call x)]
  | .sync step => [.streamSynchronize, .increment (.sync step),
      .await (.sync step) (syncVarLength streams step)]

def genLaunchKernel (streams : Streams) (stream : List Element) : List Statement :=
  [.launch .warmUp, .streamSynchronize, .increment .start, .await .start streams.length] ++
    stream.flatMap (genSingleCall streams) ++ [.streamSynchronize]

example : genLaunchKernel [[.call 1, .sync 1, .call 3], [.call 2, .sync 1]] [.call 2, .sync 1] =
    [.launch .warmUp, .streamSynchronize, .increment .start, .await .start 2, .launch (.call 2),
      .streamSynchronize, .increment (.sync 1), .await (.sync 1) 2, .streamSynchronize] := by
  decide

def initSyncVars (streams : Streams) : List MainStatement :=
  .reset .start :: (syncVars streams).map fun step => .reset (.sync step)

/-- One round of the loop of `gen_timing_and_run`. -/
def genTimingAndRun (streams : Streams) : List MainStatement :=
  initSyncVars streams ++ (pthreadCreate streams).map .create ++
    .await .start streams.length :: (pthreadJoin streams).map .join

end GenMain

/-- A thread with the in-order queue of its stream; `busy` when the first kernel has started. -/
structure Thread where
  created : Bool
  rest : List Statement
  queue : List Kernel
  busy : Bool
  finished : List Kernel

/-- The generated program in execution. -/
structure Machine where
  main : List MainStatement
  threads : Nat → Thread
  counter : Counter → Nat

/-- Who moves: `main`, a thread, or the device on a thread's queue. -/
inductive Party where
  | main
  | thread (index : Nat)
  | device (index : Nat)

/-- The next statement of a thread; `none` when it has returned or waits. -/
def Thread.issue (counter : Counter → Nat) (t : Thread) : Option (Thread × (Counter → Nat)) :=
  match t.rest with
  | [] => none
  | .launch kernel :: rest => some ({ t with rest, queue := t.queue ++ [kernel] }, counter)
  | .streamSynchronize :: rest => if t.queue = [] then some ({ t with rest }, counter) else none
  | .increment v :: rest =>
    some ({ t with rest }, fun w => if v = w then counter w + 1 else counter w)
  | .await v n :: rest => if counter v = n then some ({ t with rest }, counter) else none

/-- The device starts the first kernel of a queue, or completes it. -/
def Thread.device (t : Thread) : Option Thread :=
  match t.queue with
  | [] => none
  | kernel :: queue =>
    if t.busy then some { t with queue, busy := false, finished := t.finished ++ [kernel] }
    else some { t with busy := true }

namespace Machine

def init (streams : Streams) : Machine where
  main := GenMain.genTimingAndRun streams
  threads i := ⟨false, GenMain.genLaunchKernel streams (streams[i]?.getD []), [], false, []⟩
  counter _ := 0

/-- A step of the main thread. -/
def mainStep (m : Machine) : Option Machine :=
  match m.main with
  | [] => none
  | .reset v :: main => some { m with main, counter := Function.update m.counter v 0 }
  | .create i :: main =>
    some { m with main, threads := Function.update m.threads i { m.threads i with created := true } }
  | .await v n :: main => if m.counter v = n then some { m with main } else none
  | .join i :: main => if (m.threads i).rest = [] then some { m with main } else none

def step (m : Machine) : Party → Option Machine
  | .main => m.mainStep
  | .thread i =>
    if (m.threads i).created then
      ((m.threads i).issue m.counter).map fun (t, counter) =>
        { m with threads := Function.update m.threads i t, counter }
    else none
  | .device i =>
    (m.threads i).device.map fun t => { m with threads := Function.update m.threads i t }

/-- Some interleaving of the threads and the device leads to a state in `n` steps. -/
inductive Run (streams : Streams) : Nat → Machine → Prop where
  | init : Run streams 0 (.init streams)
  | step {n : Nat} {m m' : Machine} (party : Party) (h : Run streams n m)
      (hstep : m.step party = some m') : Run streams (n + 1) m'

/-- `main` is over and the threads have returned. -/
def Ended (streams : Streams) (m : Machine) : Prop :=
  m.main = [] ∧ ∀ i < streams.length, (m.threads i).rest = [] ∧ (m.threads i).queue = []

/-- A call has completed, runs, or is what the device starts next on some queue. -/
def Dispatched (streams : Streams) (m : Machine) (x : Nat) : Prop :=
  ∃ i < streams.length, .call x ∈ (m.threads i).finished ∨
    (m.threads i).queue.head? = some (.call x)

/-- The kernel of a call has started and has not completed. -/
def Running (streams : Streams) (m : Machine) (x : Nat) : Prop :=
  ∃ i < streams.length, (m.threads i).busy = true ∧ (m.threads i).queue.head? = some (.call x)

/-- The calls that have completed, thread by thread. -/
def completed (streams : Streams) (m : Machine) : List Nat :=
  (List.range streams.length).flatMap fun i => (m.threads i).finished.filterMap Kernel.call?

end Machine

open CounterBarrier

/-- An element of a stream as an operation of the barrier protocol. -/
def Element.op : Element → Op Kernel Counter
  | .call x => .launch (.call x)
  | .sync step => .barrier (.sync step)

/-- What a thread does, in terms of the protocol. -/
def threadOps (stream : List Element) : List (Op Kernel Counter) :=
  .launch .warmUp :: .barrier .start :: stream.map Element.op

section Emitted

variable {streams : Streams}

/-- The statements of an operation. -/
def opCode (streams : Streams) : Op Kernel Counter → List Statement
  | .launch kernel => [.launch kernel]
  | .barrier v => [.streamSynchronize, .increment v, .await v (GenMain.awaited streams v)]

/-- The statements of a program; a thread drains its queue before it returns. -/
def emitted (streams : Streams) (ops : List (Op Kernel Counter)) : List Statement :=
  ops.flatMap (opCode streams) ++ [.streamSynchronize]

theorem genLaunchKernel_eq (stream : List Element) :
    GenMain.genLaunchKernel streams stream = emitted streams (threadOps stream) := by
  have hstream : stream.flatMap (GenMain.genSingleCall streams) =
      (stream.map Element.op).flatMap (opCode streams) := by
    rw [List.flatMap_map]
    congr 1
    funext e
    cases e <;> rfl
  simp [GenMain.genLaunchKernel, emitted, threadOps, opCode, hstream, GenMain.awaited]

/-- How many statements of the next operation are executed. -/
def executed : Phase → Nat
  | .running => 0
  | .drained => 1
  | .waiting => 2

/-- The statements that are left to a worker of the protocol. -/
def code (streams : Streams) (w : Worker Kernel Counter) : List Statement :=
  (emitted streams w.rest).drop (executed w.phase)

/-- The thread that a worker of the protocol stands for. -/
def threadOf (streams : Streams) (created : Bool) (w : Worker Kernel Counter) : Thread :=
  ⟨created, code streams w, w.queue, w.busy, w.finished⟩

variable {ops : List (Op Kernel Counter)} {w : Worker Kernel Counter} {t' : Thread} {created : Bool}
  {counter counter' : Counter → Nat}

/-- A statement that a thread executes is a move of the protocol. -/
theorem issue_spec (hw : w.Ok ops)
    (hstep : (threadOf streams created w).issue counter = some (t', counter')) :
    ∃ move w', w.Step (fun v => counter v = GenMain.awaited streams v) move w' ∧
      t' = threadOf streams created w' ∧ ∀ v, counter' v = counter v + move.counted v := by
  obtain ⟨phase, rest, queue, busy, finished⟩ := w
  cases phase with
  | running =>
    cases rest with
    | nil =>
      simp only [Thread.issue, threadOf, code, executed, emitted, List.flatMap_nil, List.nil_append,
        List.drop_zero, Option.ite_none_right_eq_some, Option.some.injEq, Prod.mk.injEq] at hstep
      obtain ⟨rfl, rfl, rfl⟩ := hstep
      exact ⟨_, _, .drain [] busy finished (by simp), rfl, fun v => rfl⟩
    | cons op rest =>
      cases op with
      | launch kernel =>
        simp only [Thread.issue, threadOf, code, executed, emitted, List.flatMap_cons, opCode,
          List.cons_append, List.nil_append, List.drop_zero, Option.some.injEq,
          Prod.mk.injEq] at hstep
        obtain ⟨rfl, rfl⟩ := hstep
        exact ⟨_, _, .launch kernel rest queue busy finished, rfl, fun v => rfl⟩
      | barrier s =>
        simp only [Thread.issue, threadOf, code, executed, emitted, List.flatMap_cons, opCode,
          List.cons_append, List.nil_append, List.drop_zero, Option.ite_none_right_eq_some,
          Option.some.injEq, Prod.mk.injEq] at hstep
        obtain ⟨rfl, rfl, rfl⟩ := hstep
        exact ⟨_, _, .drain (.barrier s :: rest) busy finished (by simp), rfl, fun v => rfl⟩
  | drained =>
    cases rest with
    | nil => simp [Thread.issue, threadOf, code, executed, emitted] at hstep
    | cons op rest =>
      cases op with
      | launch kernel => exact absurd rfl ((hw.idle (by simp)).2 kernel rest)
      | barrier s =>
        simp only [Thread.issue, threadOf, code, executed, emitted, List.flatMap_cons, opCode,
          List.cons_append, List.nil_append, List.drop_succ_cons, List.drop_zero,
          Option.some.injEq, Prod.mk.injEq] at hstep
        obtain ⟨rfl, rfl⟩ := hstep
        refine ⟨_, _, .arrive s rest queue busy finished, rfl, fun v => ?_⟩
        simp only [Move.counted]
        split <;> rfl
  | waiting =>
    obtain ⟨s, rest', hrest⟩ := hw.next_barrier rfl
    obtain rfl : rest = .barrier s :: rest' := hrest
    simp only [Thread.issue, threadOf, code, executed, emitted, List.flatMap_cons, opCode,
      List.cons_append, List.nil_append, List.drop_succ_cons, List.drop_zero,
      Option.ite_none_right_eq_some, Option.some.injEq, Prod.mk.injEq] at hstep
    obtain ⟨hreached, rfl, rfl⟩ := hstep
    exact ⟨_, _, .pass s rest' queue busy finished hreached, rfl, fun v => rfl⟩

/-- What the device does is a move of the protocol. -/
theorem device_spec (reached : Counter → Prop)
    (hstep : (threadOf streams created w).device = some t') :
    ∃ move w', w.Step reached move w' ∧ t' = threadOf streams created w' ∧
      ∀ v, move.counted v = 0 := by
  obtain ⟨phase, rest, queue, busy, finished⟩ := w
  cases queue with
  | nil => cases hstep
  | cons kernel queue =>
    cases busy with
    | false =>
      obtain rfl := Option.some.inj hstep
      exact ⟨_, _, .start phase rest kernel queue finished, rfl, fun v => rfl⟩
    | true =>
      obtain rfl := Option.some.inj hstep
      exact ⟨_, _, .complete phase rest kernel queue finished, rfl, fun v => rfl⟩

/-- A move of the protocol is one of the thread or of the device. -/
theorem enabled_of_step {move : Move Kernel Counter} {w' : Worker Kernel Counter}
    (h : w.Step (fun v => counter v = GenMain.awaited streams v) move w') :
    (∃ r, (threadOf streams created w).issue counter = some r) ∨
      ∃ t', (threadOf streams created w).device = some t' := by
  cases h with
  | launch kernel rest queue busy finished => exact Or.inl ⟨_, rfl⟩
  | start phase rest kernel queue finished => exact Or.inr ⟨_, rfl⟩
  | complete phase rest kernel queue finished => exact Or.inr ⟨_, rfl⟩
  | drain rest busy finished hnext =>
    left
    cases rest with
    | nil => exact ⟨_, rfl⟩
    | cons op rest =>
      cases op with
      | launch kernel => exact absurd rfl (hnext kernel rest)
      | barrier s => exact ⟨_, rfl⟩
  | arrive s rest queue busy finished => exact Or.inl ⟨_, rfl⟩
  | pass s rest queue busy finished hreached =>
    left
    have hawait : (threadOf streams created ⟨.waiting, .barrier s :: rest, queue, busy, finished⟩).rest =
        .await s (GenMain.awaited streams s) :: emitted streams rest := rfl
    unfold Thread.issue
    rw [hawait]
    exact ⟨_, if_pos hreached⟩

/-- A thread has returned when its worker is done. -/
theorem done_iff (hw : w.Ok ops) : (threadOf streams created w).rest = [] ↔ w.Done := by
  obtain ⟨phase, rest, queue, busy, finished⟩ := w
  cases phase with
  | running => simp [threadOf, code, executed, emitted, Worker.Done]
  | drained =>
    cases rest with
    | nil => simp [threadOf, code, executed, emitted, Worker.Done]
    | cons op rest =>
      cases op with
      | launch kernel => exact absurd rfl ((hw.idle (by simp)).2 kernel rest)
      | barrier s => simp [threadOf, code, executed, emitted, opCode, Worker.Done]
  | waiting =>
    obtain ⟨s, rest', hrest⟩ := hw.next_barrier rfl
    obtain rfl : rest = .barrier s :: rest' := hrest
    simp [threadOf, code, executed, emitted, opCode, Worker.Done]

end Emitted

end StencilGraph.Stream

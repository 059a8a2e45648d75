import Mathlib.Algebra.BigOperators.Group.Finset.Basic
import Mathlib.Order.Bounds.Defs
import StencilGraph.Usmp.Greedy

namespace StencilGraph.Usmp
open Framework

inductive LivenessEventType where
  | start
  | stop
  deriving DecidableEq

structure LivenessEvent where
  tick : Nat
  leType : LivenessEventType
  bufferInfo : BufferRef
  deriving DecidableEq

namespace LivenessEvent

/-- The comparison of the sort: chronological, and `START` before `END` at one tick. -/
def less (lhs rhs : LivenessEvent) : Bool :=
  if lhs.tick < rhs.tick then true
  else lhs.tick == rhs.tick && lhs.leType == .start && rhs.leType == .stop

end LivenessEvent

/-- The ticks from the start to the end of an allocation within one call. -/
structure Interval where
  first : Nat
  last : Nat
  le : first ≤ last
  deriving DecidableEq

def Interval.Holds (i : Interval) (tick : Nat) : Prop := i.first ≤ tick ∧ tick ≤ i.last

instance (i : Interval) (tick : Nat) : Decidable (i.Holds tick) := by
  unfold Interval.Holds
  infer_instance

def Interval.Apart (i j : Interval) : Prop := i.last < j.first ∨ j.last < i.first

/-- What the visit of the function has recorded: the allocated buffers with their sizes, and the
intervals of each buffer in the order of the calls. -/
structure Recorded where
  buffers : List BufferRef
  sizeBytes : BufferRef → Int
  intervals : BufferRef → List Interval
  nodup : buffers.Nodup
  size_nonneg : ∀ b, 0 ≤ sizeBytes b
  apart : ∀ b, (intervals b).Pairwise Interval.Apart

namespace Recorded

/-- The events of a buffer: all starts, then all ends. -/
def eventsOf (r : Recorded) (b : BufferRef) : List LivenessEvent :=
  (r.intervals b).map (fun i => ⟨i.first, .start, b⟩) ++
    (r.intervals b).map (fun i => ⟨i.last, .stop, b⟩)

def leEventsTimeline (r : Recorded) : List LivenessEvent := r.buffers.flatMap r.eventsOf

/-- A timeline `std::sort` may leave: equal events are in any order. -/
def Sorted (r : Recorded) (timeline : List LivenessEvent) : Prop :=
  timeline.Perm r.leEventsTimeline ∧ timeline.Pairwise fun a b => b.less a = false

end Recorded

/-- The order in which a hash set is gone through. -/
structure SetOrder where
  order : List BufferRef → List BufferRef
  perm : ∀ l, (order l).Perm l

/-- The variables of the traversal, and the conflicts of each buffer so far. -/
structure Sweep where
  conflicts : BufferRef → List BufferRef
  openSet : List BufferRef
  openSetSize : Int
  maxOpenSetSize : Int

namespace Sweep

def init : Sweep := ⟨fun _ => [], [], 0, 0⟩

/-- One round of the loop over the open set at the start of `b`. -/
def addConflict (b : BufferRef) (conflicts : BufferRef → List BufferRef) (o : BufferRef) :
    BufferRef → List BufferRef :=
  let conflicts := Function.update conflicts o (conflicts o ++ [b])
  if b ≠ o then Function.update conflicts b (conflicts b ++ [o]) else conflicts

/-- One event; the sizes are kept in an `int`. -/
def handle (sizeBytes : BufferRef → Int) (iteration : SetOrder) (s : Sweep) (e : LivenessEvent) :
    Sweep :=
  let b := e.bufferInfo
  match e.leType with
  | .start =>
    let openSetSize := int32 (s.openSetSize + sizeBytes b)
    { conflicts := (iteration.order s.openSet).foldl (addConflict b) s.conflicts
      openSet := if b ∈ s.openSet then s.openSet else s.openSet ++ [b]
      openSetSize := openSetSize
      maxOpenSetSize := if openSetSize > s.maxOpenSetSize then openSetSize else s.maxOpenSetSize }
  | .stop =>
    { s with
      openSet := s.openSet.erase b
      openSetSize := int32 (s.openSetSize - sizeBytes b) }

def run (sizeBytes : BufferRef → Int) (iteration : SetOrder) (timeline : List LivenessEvent) :
    Sweep :=
  timeline.foldl (handle sizeBytes iteration) init

end Sweep

namespace Recorded

/-- Some interval of `a` and some interval of `b` share a tick. -/
def Overlap (r : Recorded) (a b : BufferRef) : Prop :=
  ∃ i ∈ r.intervals a, ∃ j ∈ r.intervals b, ∃ tick, i.Holds tick ∧ j.Holds tick

/-- The buffer is live at a tick. -/
def Live (r : Recorded) (tick : Nat) (b : BufferRef) : Prop := ∃ i ∈ r.intervals b, i.Holds tick

instance (r : Recorded) (tick : Nat) : DecidablePred (r.Live tick) := by
  intro b
  unfold Live
  infer_instance

/-- The total size of the buffers live at a tick. -/
def liveSize (r : Recorded) (tick : Nat) : Int :=
  ∑ b ∈ r.buffers.toFinset.filter (r.Live tick), r.sizeBytes b

/-- The conflicts are the overlaps, each on both sides and none with the buffer itself, and the
maximal open size is the largest live size of a tick. -/
structure Exact (r : Recorded) (s : Sweep) : Prop where
  conflicts : ∀ a ∈ r.buffers, ∀ b ∈ r.buffers, a ≠ b → (b ∈ s.conflicts a ↔ r.Overlap a b)
  symmetric : ∀ a b, b ∈ s.conflicts a → a ∈ s.conflicts b
  irreflexive : ∀ a, a ∉ s.conflicts a
  maximum : IsGreatest (Set.range r.liveSize) s.maxOpenSetSize

end Recorded

end StencilGraph.Usmp

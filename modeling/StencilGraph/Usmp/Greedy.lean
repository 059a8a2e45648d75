import StencilGraph.Framework.MachineInt
import Mathlib.Data.List.Basic
import Mathlib.Logic.Function.Basic

namespace StencilGraph.Usmp
open Framework

/-- Buffers and pools are compared as objects; a reference is the object's identity. -/
abbrev PoolRef := Nat
abbrev BufferRef := Nat

def kUnrestrictedPoolSizeHint : Int := -1

/-- The size hint is `kUnrestrictedPoolSizeHint` or a number of bytes. -/
structure PoolInfo where
  sizeHintBytes : Int
  hint_ge : -1 ≤ sizeHintBytes

/-- `Integer` fields hold 64-bit values; sizes and alignments are byte counts. -/
structure BufferInfo where
  nameHint : String
  sizeBytes : Int
  poolCandidates : List PoolRef
  alignment : Int
  conflicts : List BufferRef
  size_nonneg : 0 ≤ sizeBytes
  size_lt : sizeBytes < 2^63
  alignment_pos : 1 ≤ alignment
  alignment_lt : alignment < 2^63

structure Workspace where
  pool : PoolRef → PoolInfo
  buffer : BufferRef → BufferInfo

structure PoolAllocation where
  poolInfo : PoolRef
  byteOffset : Int
  deriving DecidableEq

abbrev PoolAllocations := BufferRef → Option PoolAllocation
abbrev PoolOffsets := PoolRef → Option Nat

/-- Division by a zero alignment traps, so the call does not return. -/
def roundUpToByteAlignment (nonAlignedByteOffset : Nat) (byteAlignment : Int) : Option Nat :=
  let a := sizeT byteAlignment
  if a = 0 then none
  else some ((nonAlignedByteOffset + a + (2^64 - 1)) % 2^64 / a * a % 2^64)

def isValidPlacement (candidatePool : PoolInfo) (nextOffset sizeBytes : Nat) : Bool :=
  if candidatePool.sizeHintBytes = kUnrestrictedPoolSizeHint then true
  else
    let poolSize := sizeT candidatePool.sizeHintBytes
    let maxAddress := (nextOffset + sizeBytes) % 2^64
    decide (maxAddress ≤ poolSize)

/-- `none` is the failed `CHECK`: the space available in the pools is exceeded. -/
def selectPlacementPool (bufInfo : BufferInfo) (poolOffsets : PoolOffsets) : Option PoolRef :=
  bufInfo.poolCandidates.find? (fun p => (poolOffsets p).isSome)

/-- Pool candidates that satisfy the size constraints. -/
def initialCandidates (ws : Workspace) (bufInfo : BufferInfo) : PoolOffsets :=
  bufInfo.poolCandidates.foldl
    (fun m p =>
      if isValidPlacement (ws.pool p) 0 (sizeT bufInfo.sizeBytes) then Function.update m p (some 0)
      else m)
    (fun _ => none)

/-- The first offset after a placed conflict, rounded up to the conflict's alignment. -/
def nextOffset (conflict : BufferInfo) (a : PoolAllocation) : Option Nat :=
  roundUpToByteAlignment (sizeT (a.byteOffset + conflict.sizeBytes)) (int32 conflict.alignment)

/-- One round of the loop over `conflicts`. Reading `pool_offset_candidates[pool]` creates a missing
entry with offset zero. -/
def visitConflict (ws : Workspace) (allocs : PoolAllocations) (bufInfo : BufferInfo)
    (m : PoolOffsets) (c : BufferRef) : Option PoolOffsets :=
  match allocs c with
  | none => some m
  | some a =>
    match nextOffset (ws.buffer c) a with
    | none => none
    | some next =>
      if isValidPlacement (ws.pool a.poolInfo) next (sizeT bufInfo.sizeBytes) then
        let entry := (m a.poolInfo).getD 0
        some (Function.update m a.poolInfo (some (if next > entry then next else entry)))
      else some (Function.update m a.poolInfo none)

/-- Placing one buffer. `Integer(...)` takes an `int`, so the chosen offset is narrowed. -/
def placeBuffer (ws : Workspace) (allocs : PoolAllocations) (b : BufferRef) :
    Option PoolAllocations := do
  let bufInfo := ws.buffer b
  let m ← bufInfo.conflicts.foldlM (visitConflict ws allocs bufInfo) (initialCandidates ws bufInfo)
  let selected ← selectPlacementPool bufInfo m
  some (Function.update allocs b (some ⟨selected, int32 ((m selected).getD 0)⟩))

def postSortAllocation (ws : Workspace) (bufferInfoVec : List BufferRef) : Option PoolAllocations :=
  bufferInfoVec.foldlM (placeBuffer ws) (fun _ => none)

def GreedySize.less (a b : BufferInfo) : Bool :=
  if a.sizeBytes = b.sizeBytes then
    if a.conflicts.length = b.conflicts.length then decide (b.nameHint < a.nameHint)
    else decide (b.conflicts.length < a.conflicts.length)
  else decide (b.sizeBytes < a.sizeBytes)

def GreedyConflicts.less (a b : BufferInfo) : Bool :=
  if a.conflicts.length = b.conflicts.length then
    if a.sizeBytes = b.sizeBytes then decide (b.nameHint < a.nameHint)
    else decide (b.sizeBytes < a.sizeBytes)
  else decide (b.conflicts.length < a.conflicts.length)

/-- A result `std::sort` may leave: ties under `less` are in any order. -/
def StdSort (ws : Workspace) (less : BufferInfo → BufferInfo → Bool) (arr vec : List BufferRef) :
    Prop :=
  vec.Perm arr ∧ vec.Pairwise (fun a b => less (ws.buffer b) (ws.buffer a) = false)

def Conflicting (ws : Workspace) (a b : BufferRef) : Prop := b ∈ (ws.buffer a).conflicts

def Symmetric (ws : Workspace) : Prop := ∀ a b, Conflicting ws a b → Conflicting ws b a

/-- The bytes of `b` end before those of `c` start. -/
def EndsBefore (ws : Workspace) (b : BufferRef) (x : PoolAllocation) (y : PoolAllocation) : Prop :=
  x.byteOffset + (ws.buffer b).sizeBytes ≤ y.byteOffset

def DisjointRanges (ws : Workspace) (b c : BufferRef) (x y : PoolAllocation) : Prop :=
  EndsBefore ws b x y ∨ EndsBefore ws c y x

def WithinHint (ws : Workspace) (b : BufferRef) (x : PoolAllocation) : Prop :=
  (ws.pool x.poolInfo).sizeHintBytes = kUnrestrictedPoolSizeHint ∨
    x.byteOffset + (ws.buffer b).sizeBytes ≤ (ws.pool x.poolInfo).sizeHintBytes

/-- Every listed buffer has a place in a candidate pool within its size hint, and two conflicting
buffers in one pool occupy disjoint ranges. -/
structure ValidPlan (ws : Workspace) (arr : List BufferRef) (allocs : PoolAllocations) : Prop where
  placed : ∀ b ∈ arr, ∃ x, allocs b = some x ∧ 0 ≤ x.byteOffset ∧
    x.poolInfo ∈ (ws.buffer b).poolCandidates ∧ WithinHint ws b x
  disjoint : ∀ b c x y, b ≠ c → Conflicting ws b c → allocs b = some x → allocs c = some y →
    x.poolInfo = y.poolInfo → DisjointRanges ws b c x y

end StencilGraph.Usmp

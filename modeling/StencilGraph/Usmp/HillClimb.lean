import Mathlib.Data.List.AList
import StencilGraph.Usmp.Greedy

namespace StencilGraph.Usmp
open Framework

/-- Why a run does not return: a failed check, undefined behaviour, or the loop that picks the second
buffer of a swap has not come to an end yet. -/
inductive Stop where
  | check
  | divideByZero
  | outOfRange
  | notFinished
  deriving DecidableEq

/-- `std::sort`: a permutation, in order when the comparison is a strict weak order; how ties are
left is not fixed. -/
structure StdSorting where
  sort : (BufferRef → BufferRef → Bool) → List BufferRef → List BufferRef
  perm : ∀ less l, (sort less l).Perm l
  sorted : ∀ less l, (∀ a b c, less a b = false → less b c = false → less a c = false) →
    (∀ a b, less a b = true → less b a = false) →
    (sort less l).Pairwise (fun a b => less b a = false)

/-- An `unordered_map`, with its entries in some order of iteration. -/
abbrev AllocMap := AList (fun _ : BufferRef => PoolAllocation)
abbrev PoolSizes := AList (fun _ : PoolRef => Nat)
abbrev PosMap := AList (fun _ : BufferRef => Nat)

namespace HillClimb

def byteOffset (allocs : AllocMap) (b : BufferRef) : Int :=
  ((allocs.lookup b).map PoolAllocation.byteOffset).getD 0

/-- The comparison of the sorting by pool offsets. -/
def offsetLess (allocs : AllocMap) (a b : BufferRef) : Bool :=
  decide (byteOffset allocs a < byteOffset allocs b)

/-- One round of the loop over `buf_conf`. -/
def visitPlaced (ws : Workspace) (allocs : AllocMap) (bufInfo : BufferInfo) (m : PoolOffsets)
    (c : BufferRef) : Except Stop PoolOffsets :=
  match allocs.lookup c with
  | none => .error .outOfRange
  | some a =>
    match nextOffset (ws.buffer c) a with
    | none => .error .divideByZero
    | some next =>
      match m a.poolInfo with
      | none => .ok m
      | some entry =>
        if isValidPlacement (ws.pool a.poolInfo) next (sizeT bufInfo.sizeBytes) then
          -- a buffer that ends before this conflict starts stays in the gap below it
          if next > entry ∧ (entry + sizeT bufInfo.sizeBytes) % 2^64 > sizeT a.byteOffset then
            .ok (Function.update m a.poolInfo (some next))
          else .ok m
        else .ok (Function.update m a.poolInfo none)

/-- The conflicts of a buffer that have a place, by increasing offset. -/
def bufConf (ws : Workspace) (sorting : StdSorting) (allocs : AllocMap) (b : BufferRef) :
    List BufferRef :=
  sorting.sort (offsetLess allocs)
    ((ws.buffer b).conflicts.filter (fun c => (allocs.lookup c).isSome))

def placeBuffer (ws : Workspace) (sorting : StdSorting) (allocs : AllocMap) (b : BufferRef) :
    Except Stop AllocMap := do
  let bufInfo := ws.buffer b
  let m ← (bufConf ws sorting allocs b).foldlM (visitPlaced ws allocs bufInfo)
    (initialCandidates ws bufInfo)
  match selectPlacementPool bufInfo m with
  | none => .error .check
  | some selected => .ok (allocs.insert b ⟨selected, int32 ((m selected).getD 0)⟩)

def greedy (ws : Workspace) (sorting : StdSorting) (bufferInfoVec : List BufferRef) :
    Except Stop AllocMap :=
  bufferInfoVec.foldlM (placeBuffer ws sorting) ∅

def highSz (ws : Workspace) (b : BufferRef) (a : PoolAllocation) : Nat :=
  sizeT (a.byteOffset + (ws.buffer b).sizeBytes)

def findHighest (ws : Workspace) (allocs : AllocMap) : PoolSizes :=
  allocs.entries.foldl (fun sizes e =>
    let size := (sizes.lookup e.2.poolInfo).getD 0
    sizes.insert e.2.poolInfo (if size ≤ highSz ws e.1 e.2 then highSz ws e.1 e.2 else size)) ∅

def totalOf (sizes : PoolSizes) : Nat := (sizes.entries.map (fun e => e.2)).sum % 2^64

/-- The local variables of `PlanMemory`; `drawn` counts the random numbers used so far. -/
structure Climb where
  bufferInfoVec : List BufferRef
  posMap : PosMap
  totalSize : Nat
  swapI1 : Int
  swapI2 : Int
  poolAllocations : AllocMap
  resultPoolAllocations : AllocMap
  drawn : Nat

def elementAt (l : List BufferRef) (i : Int) : Option BufferRef :=
  if i < 0 then none else l[i.toNat]?

def Climb.swapBuffers (s : Climb) (i1 i2 : Int) : Except Stop Climb :=
  if i1 = i2 then .ok s
  else
    match elementAt s.bufferInfoVec i1, elementAt s.bufferInfoVec i2 with
    | some b1, some b2 =>
      .ok { s with
        bufferInfoVec := (s.bufferInfoVec.set i1.toNat b2).set i2.toNat b1
        posMap := (s.posMap.insert b1 i2.toNat).insert b2 i1.toNat }
    | _, _ => .error .outOfRange

/-- `LOG(FATAL)` when the buffer is not indexed. -/
def Climb.pos (s : Climb) (b : BufferRef) : Except Stop Nat :=
  match s.posMap.lookup b with
  | none => .error .check
  | some i => .ok i

/-- The neighbors by position: those of `buf` before it and those of its neighbors before them. -/
def Climb.collectNeighborLists (ws : Workspace) (s : Climb) (buf : BufferRef) :
    Except Stop (List BufferRef × List BufferRef) := do
  let bufPos ← s.pos buf
  let visitSecond (c1Pos : Nat) (second : PosMap) (c2 : BufferRef) : Except Stop PosMap := do
    let c2Pos ← s.pos c2
    .ok (if c1Pos > c2Pos then second.insert c2Pos c2 else second)
  let visitFirst (levels : PosMap × PosMap) (c1 : BufferRef) : Except Stop (PosMap × PosMap) := do
    let c1Pos ← s.pos c1
    let first := if bufPos > c1Pos then levels.1.insert c1Pos c1 else levels.1
    let second ← (ws.buffer c1).conflicts.foldlM (visitSecond c1Pos) levels.2
    .ok (first, second)
  let levels ← (ws.buffer buf).conflicts.foldlM visitFirst (∅, ∅)
  .ok (levels.1.entries.map (fun e => e.2), levels.2.entries.map (fun e => e.2))

/-- `l[rnd_func() % l.size()]` -/
def pick (rnd : Nat → Nat) (drawn : Nat) (l : List BufferRef) : Except Stop (BufferRef × Nat) :=
  if l.length = 0 then .error .divideByZero
  else
    match l[rnd drawn % l.length]? with
    | none => .error .outOfRange
    | some b => .ok (b, drawn + 1)

/-- The loop that looks for a second buffer to swap. -/
def pickSecond (rnd : Nat → Nat) (firstLevel secondLevel : List BufferRef) (swapBuf1 : BufferRef) :
    Nat → Nat → Except Stop (BufferRef × Nat)
  | 0, _ => .error .notFinished
  | fuel + 1, drawn => do
    let (useSecond, drawn) :=
      if secondLevel.length ≠ 0 then
        if firstLevel.length = 0 then (true, drawn)
        else (decide (rnd drawn % 100 > 25), drawn + 1)
      else (false, drawn)
    let (swapBuf2, drawn) ← pick rnd drawn (if useSecond then secondLevel else firstLevel)
    if secondLevel.length < 2 ∧ firstLevel.length < 2 then .ok (swapBuf2, drawn)
    else if swapBuf2 = swapBuf1 then pickSecond rnd firstLevel secondLevel swapBuf1 fuel drawn
    else .ok (swapBuf2, drawn)

/-- The accept/reject heuristic. -/
def accepts (rnd : Nat → Nat) (attempts totalSize total drawn : Nat) : Except Stop (Bool × Nat) :=
  if totalSize = 0 then .ok (true, drawn)
  else if totalSize > total then .ok (true, drawn)
  else if total = 0 ∨ attempts = 0 then .error .divideByZero
  else
    let chance : Nat := 50 * (total - totalSize) % 2^64 / total / attempts
    .ok (decide (((rnd drawn % 100 : Nat) : Int) < int32 chance), drawn + 1)

/-- The rest of a round: two buffers are swapped for the next one. -/
def Climb.permute (ws : Workspace) (rnd : Nat → Nat) (fuel : Nat) (s : Climb)
    (poolSizes : PoolSizes) : Except Stop Climb := do
  let maxPoolBuf := (s.poolAllocations.entries.filter (fun e =>
    (poolSizes.lookup e.2.poolInfo).getD 0 = highSz ws e.1 e.2)).map (fun e => e.1)
  let (node, drawn) ← pick rnd s.drawn maxPoolBuf
  let (firstLevel, secondLevel) ← s.collectNeighborLists ws node
  if firstLevel.length = 0 then .ok { s with drawn := drawn }
  else
    let (swapBuf1, drawn) ← pick rnd drawn firstLevel
    let (swapBuf2, drawn) ← pickSecond rnd firstLevel secondLevel swapBuf1 fuel drawn
    if swapBuf1 = swapBuf2 then .ok { s with drawn := drawn }
    else
      let i1 ← s.pos swapBuf1
      let i2 ← s.pos swapBuf2
      { s with swapI1 := i1, swapI2 := i2, drawn := drawn }.swapBuffers i1 i2

/-- One round of the loop of `PlanMemory`; the flag says that the desired size was reached. -/
def Climb.round (ws : Workspace) (sorting : StdSorting) (rnd : Nat → Nat) (fuel : Nat)
    (desiredBytes attempts : Nat) (s : Climb) : Except Stop (Bool × Climb) := do
  let poolAllocations ← greedy ws sorting s.bufferInfoVec
  let poolSizes := findHighest ws poolAllocations
  let total := totalOf poolSizes
  let (accepted, drawn) ← accepts rnd attempts s.totalSize total s.drawn
  if accepted then
    let s := { s with
      poolAllocations := poolAllocations
      resultPoolAllocations := poolAllocations
      totalSize := total
      drawn := drawn }
    if total ≤ desiredBytes then .ok (true, s)
    else
      let s ← s.permute ws rnd fuel poolSizes
      .ok (false, s)
  else
    -- the allocations of the round before are still in `s`
    let s ← { s with drawn := drawn }.swapBuffers s.swapI2 s.swapI1
    let s ← s.permute ws rnd fuel (findHighest ws s.poolAllocations)
    .ok (false, s)

def maxAttempts : Nat := 500

/-- The rounds that remain. -/
def Climb.rounds (ws : Workspace) (sorting : StdSorting) (rnd : Nat → Nat) (fuel : Nat)
    (desiredBytes : Nat) : Nat → Climb → Except Stop Climb
  | 0, s => .ok s
  | remaining + 1, s => do
    let (reached, s) ← s.round ws sorting rnd fuel desiredBytes (maxAttempts - (remaining + 1))
    if reached then .ok s else s.rounds ws sorting rnd fuel desiredBytes remaining

def sortVector (ws : Workspace) (sorting : StdSorting) (bufferInfoVec : List BufferRef) :
    List BufferRef :=
  sorting.sort (fun a b => GreedySize.less (ws.buffer a) (ws.buffer b)) bufferInfoVec

def posMapOf (bufferInfoVec : List BufferRef) : PosMap :=
  bufferInfoVec.zipIdx.foldl (fun m e => m.insert e.1 e.2) ∅

def start (ws : Workspace) (sorting : StdSorting) (bufferInfoArr : List BufferRef) : Climb :=
  let vec := sortVector ws sorting bufferInfoArr
  ⟨vec, posMapOf vec, 0, -1, -1, ∅, ∅, 0⟩

def planMemory (ws : Workspace) (sorting : StdSorting) (rnd : Nat → Nat) (fuel : Nat)
    (memoryPressure : Nat) (bufferInfoArr : List BufferRef) : Except Stop AllocMap :=
  if ∃ b ∈ bufferInfoArr, (ws.buffer b).poolCandidates.length = 0 then .error .check
  else do
    let s ← (start ws sorting bufferInfoArr).rounds ws sorting rnd fuel memoryPressure maxAttempts
    .ok s.resultPoolAllocations

end HillClimb

end StencilGraph.Usmp

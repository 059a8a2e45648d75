import StencilGraph.Crt.RawMemory

namespace StencilGraph.Crt
open Framework

/-- `TVM_RUNTIME_ALLOC_ALIGNMENT_BYTES`, a power of two; 16 unless the build sets it. -/
structure Alignment where
  log2 : Nat
  log2_le : log2 ≤ 30

def Alignment.bytes (align : Alignment) : Nat := 2 ^ align.log2

def defaultAlignment : Alignment := ⟨4, by decide⟩

def stackAllocatorTag : Nat := 0xabcd1234
def stackAllocatorTagSizeBytes : Nat := 4

/-- `tvm_workspace_t`; the pointers are addresses. -/
structure Workspace where
  nextAlloc : Nat
  workspace : Nat
  workspaceSize : Nat
  deriving DecidableEq

inductive StackError where
  | noError
  | platformNoMemory
  | platformStackAllocBadFree
  deriving DecidableEq

namespace StackMemoryManager

/-- The mask of the source keeps the remainder. -/
def offsetBytes (align : Alignment) (nbytes : Nat) : Nat :=
  (((align.bytes : Int) - nbytes) % align.bytes).toNat

/-- `StackMemoryManager_Allocate_Body` for `nbytes >= 0`: the error, the workspace, the memory and
`*current_alloc`. -/
def allocateBody (align : Alignment) (ws : Workspace) (mem : RawMemory) (nbytes currentAlloc : Nat)
    (doLifoCheck : Bool) : StackError × Workspace × RawMemory × Nat :=
  let offsetBytes := offsetBytes align nbytes
  let workspaceEnd := ws.workspace + ws.workspaceSize
  if ws.nextAlloc + nbytes + offsetBytes > workspaceEnd then
    (.platformNoMemory, ws, mem, currentAlloc)
  else
    let currentAlloc := ws.nextAlloc
    let nextAlloc := ws.nextAlloc + nbytes + offsetBytes
    if doLifoCheck then
      if nextAlloc + stackAllocatorTagSizeBytes > workspaceEnd then
        (.platformNoMemory, ws, mem, currentAlloc)
      else
        let totalSize := (nbytes + offsetBytes + stackAllocatorTagSizeBytes) % 2 ^ 32
        let mem := mem.write nextAlloc (littleEndian 4 (totalSize ^^^ stackAllocatorTag))
        (.noError, { ws with nextAlloc := nextAlloc + stackAllocatorTagSizeBytes }, mem, currentAlloc)
    else (.noError, { ws with nextAlloc := nextAlloc }, mem, currentAlloc)

/-- `StackMemoryManager_Free_Body` -/
def freeBody (ws : Workspace) (mem : RawMemory) (ptr : Nat) (doLifoCheck : Bool) :
    StackError × Workspace :=
  let tag := mem.read (ws.nextAlloc - stackAllocatorTagSizeBytes) 4
  let actualSize := (((ws.nextAlloc : Int) - ptr) % 2 ^ 32).toNat
  let expectedSize := tag ^^^ stackAllocatorTag
  if doLifoCheck && decide (expectedSize ≠ actualSize) then (.platformStackAllocBadFree, ws)
  else (.noError, { ws with nextAlloc := ptr })

/-- `StackMemoryManager_Init` -/
def init (align : Alignment) (gAotMemory workspaceSize : Nat) : Workspace :=
  let memoryAligned := (gAotMemory + (align.bytes - 1)) / align.bytes * align.bytes
  let offset := memoryAligned - gAotMemory
  ⟨memoryAligned, memoryAligned, workspaceSize - offset⟩

end StackMemoryManager

/-- A live block, with `next_alloc` before its allocation. -/
structure Block where
  ptr : Nat
  nbytes : Nat
  before : Nat
  deriving DecidableEq

/-- The workspace, the memory, and the live blocks, the newest first. -/
structure StackHeap where
  ws : Workspace
  mem : RawMemory
  live : List Block

namespace StackHeap

open StackMemoryManager

/-- A call with the LIFO check on, or a write of the program. -/
inductive Op where
  | allocate (nbytes currentAlloc : Nat)
  | free (ptr : Nat)
  | write (address : Nat) (byte : UInt8)

/-- Sizes of `int32_t`, pointers of live blocks, and writes inside live blocks. -/
def Called (h : StackHeap) : Op → Prop
  | .allocate nbytes _ => nbytes < 2 ^ 31
  | .free ptr => ∃ b ∈ h.live, b.ptr = ptr
  | .write address _ => ∃ b ∈ h.live, b.ptr ≤ address ∧ address < b.ptr + b.nbytes

def step (align : Alignment) (h : StackHeap) : Op → StackHeap
  | .allocate nbytes currentAlloc =>
    match allocateBody align h.ws h.mem nbytes currentAlloc true with
    | (.noError, ws, mem, ptr) => ⟨ws, mem, ⟨ptr, nbytes, h.ws.nextAlloc⟩ :: h.live⟩
    | (_, ws, mem, _) => ⟨ws, mem, h.live⟩
  | .free ptr =>
    match freeBody h.ws h.mem ptr true with
    | (.noError, ws) => ⟨ws, h.mem, h.live.eraseP fun b => b.ptr = ptr⟩
    | (_, ws) => ⟨ws, h.mem, h.live⟩
  | .write address byte => { h with mem := h.mem.write address [byte] }

/-- Bytes from `start` on. -/
structure Region where
  start : Nat
  size : Nat

def Region.Apart (r s : Region) : Prop := r.start + r.size ≤ s.start ∨ s.start + s.size ≤ r.start

/-- A block and its size tag. -/
def regions (align : Alignment) (b : Block) : List Region :=
  [⟨b.ptr, b.nbytes⟩, ⟨b.ptr + b.nbytes + offsetBytes align b.nbytes, stackAllocatorTagSizeBytes⟩]

/-- The live blocks and their size tags are pairwise disjoint and inside the workspace. -/
structure Sound (align : Alignment) (gAotMemory workspaceSize : Nat) (h : StackHeap) : Prop where
  apart : (h.live.flatMap (regions align)).Pairwise Region.Apart
  inside : ∀ r ∈ h.live.flatMap (regions align),
    gAotMemory ≤ r.start ∧ r.start + r.size ≤ gAotMemory + workspaceSize

/-- What a call keeps to: `Free` succeeds for the newest block only and restores `next_alloc`, and an
error changes nothing. -/
def Keeps (align : Alignment) (h : StackHeap) : Op → Prop
  | .allocate nbytes currentAlloc =>
    (allocateBody align h.ws h.mem nbytes currentAlloc true).1 ≠ .noError →
      (allocateBody align h.ws h.mem nbytes currentAlloc true).2.1.nextAlloc = h.ws.nextAlloc ∧
        (allocateBody align h.ws h.mem nbytes currentAlloc true).2.2.2 = currentAlloc
  | .free ptr =>
    ((freeBody h.ws h.mem ptr true).1 = .noError ↔ h.live.head?.map Block.ptr = some ptr) ∧
      ((freeBody h.ws h.mem ptr true).1 = .noError → ∀ b ∈ h.live.head?,
        (freeBody h.ws h.mem ptr true).2.nextAlloc = b.before) ∧
      ((freeBody h.ws h.mem ptr true).1 ≠ .noError →
        (freeBody h.ws h.mem ptr true).2.nextAlloc = h.ws.nextAlloc)
  | .write _ _ => True

/-- The padded block of a request does not fit without its tag only, and a pointer that is freed is
not below the newest block by a multiple of `2 ^ 32`. -/
def Meets (align : Alignment) (h : StackHeap) : Op → Prop
  | .allocate nbytes currentAlloc =>
    ¬ (h.ws.nextAlloc + nbytes + offsetBytes align nbytes ≤ h.ws.workspace + h.ws.workspaceSize ∧
      h.ws.workspace + h.ws.workspaceSize <
        h.ws.nextAlloc + nbytes + offsetBytes align nbytes + stackAllocatorTagSizeBytes) ∨
      currentAlloc = h.ws.nextAlloc
  | .free ptr => ∀ b ∈ h.live.head?, ptr = b.ptr ∨ ¬ 2 ^ 32 ∣ b.ptr - ptr
  | .write _ _ => True

/-- The heap is sound before, between and after the calls, and every call keeps to its part. -/
def SafeAlong (align : Alignment) (gAotMemory workspaceSize : Nat) (h : StackHeap) : List Op → Prop
  | [] => Sound align gAotMemory workspaceSize h
  | op :: ops => Sound align gAotMemory workspaceSize h ∧
    (h.Called op → h.Keeps align op ∧ (h.step align op).SafeAlong align gAotMemory workspaceSize ops)

def MeetsAlong (align : Alignment) (h : StackHeap) : List Op → Prop
  | [] => True
  | op :: ops => h.Called op → h.Meets align op ∧ (h.step align op).MeetsAlong align ops

/-- A fresh workspace in a memory. -/
def create (align : Alignment) (gAotMemory workspaceSize : Nat) (mem : RawMemory) : StackHeap :=
  ⟨init align gAotMemory workspaceSize, mem, []⟩

end StackHeap

end StencilGraph.Crt

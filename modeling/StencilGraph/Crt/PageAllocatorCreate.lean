import Mathlib
import StencilGraph.Framework.TwoRuns
import StencilGraph.Crt.PageAllocatorInvariant
import StencilGraph.Crt.RawMemory

namespace StencilGraph.Crt
open Framework

namespace RawMemory

def readPage (mem : RawMemory) (address : Nat) : Page :=
  ⟨mem.read address 8, mem.read (address + 8) 8, mem.read (address + 16) 8⟩

def readIndexedEntry (mem : RawMemory) (address : Nat) : IndexedEntry :=
  ⟨int64 (mem.read address 8), mem.readPage (address + 8)⟩

end RawMemory

/-- Where the counters lie in `MemoryManager`. -/
def offsetVleakSize : Nat := 16
def offsetPtableNumPages : Nat := 56
def offsetFreeMapNumEntries : Nat := 128

namespace MemoryManager

/-- `PageMemoryManagerCreate` in a memory with old contents: it sets the sizes, the addresses and the
counter of the TLB; the other counters, and with them the entries in use, are what the memory holds.
Only the first `sizeof(memory_pool_size_bytes)` bytes are cleared. -/
def createIn (mem : RawMemory) (memoryPool memoryPoolSizeBytes pageSizeBytesLog2 : Nat) :
    Option MemoryManager :=
  let mem := mem.clear memoryPool 8
  (create memoryPool memoryPoolSizeBytes pageSizeBytesLog2).map fun mgr =>
    { mgr with
      vleakSize := int32 (mem.read (mgr.address + offsetVleakSize) 4)
      ptable := { mgr.ptable with
        pages := (List.range (mem.read (mgr.address + offsetPtableNumPages) 8)).map
          fun i => mem.readPage (mgr.ptable.page + sizeofPage * i) }
      freeMap := { mgr.freeMap with
        entries := (List.range (mem.read (mgr.address + offsetFreeMapNumEntries) 8)).map
          fun i => mem.readIndexedEntry (mgr.freeMap.address + sizeofIndexedEntry * i) } }

/-- A call with its pointer relative to the pool. -/
inductive Call where
  | allocate (numBytes : Nat)
  | free (offset : Nat)

/-- What a call returns; an address is relative to the pool. -/
inductive Outcome where
  | allocated (offset : Int)
  | noMemory
  | freed
  deriving DecidableEq

def call (mgr : MemoryManager) : Call → Option (MemoryManager × Outcome)
  | .allocate numBytes => do
    let (mgr', ptr) ← mgr.allocate numBytes
    match ptr with
    | some ptr => some (mgr', .allocated ((ptr : Int) - mgr.ptable.memoryPool))
    | none => some (mgr', .noMemory)
  | .free offset => do
    let mgr' ← mgr.free (mgr.ptable.memoryPool + offset)
    some (mgr', .freed)

/-- The outcomes of calls, one after the other, up to one that does not return. -/
def run (mgr : MemoryManager) : List Call → List Outcome × MemoryManager
  | [] => ([], mgr)
  | c :: calls =>
    match mgr.call c with
    | none => ([], mgr)
    | some (mgr', outcome) =>
      let (outcomes, mgr') := mgr'.run calls
      (outcome :: outcomes, mgr')

/-- What an outcome adds to the number of allocations minus the number of frees. -/
def Outcome.weight : Outcome → Int
  | .allocated _ => 1
  | .noMemory => 0
  | .freed => -1

/-- The number of allocations minus the number of frees. -/
def leaks (outcomes : List Outcome) : Int := (outcomes.map Outcome.weight).sum

/-- Both managers answer every sequence of calls in the same way and count their leaks. -/
def Agrees (m n : MemoryManager) : Prop :=
  ∀ calls, (m.run calls).1 = (n.run calls).1 ∧ (m.run calls).2.vleakSize = leaks (m.run calls).1 ∧
    (n.run calls).2.vleakSize = leaks (n.run calls).1

/-- Two addresses at one place relative to their pools. -/
def Same (p q a b : Nat) : Prop := ∃ offset, a = p + offset ∧ b = q + offset

structure AlikePage (p q : Nat) (a b : Page) : Prop where
  numPages : a.numPages = b.numPages
  data : Same p q a.data b.data

structure AlikeEntry (p q : Nat) (a b : PageEntry) : Prop where
  addr : Same p q a.addr b.addr
  page : AlikePage p q a.page b.page

structure AlikeIndexed (p q : Nat) (a b : IndexedEntry) : Prop where
  index : a.index = b.index
  page : AlikePage p q a.page b.page

/-- The managers differ in where they lie only. -/
structure Alike (p q : Nat) (m n : MemoryManager) : Prop where
  pool : m.ptable.memoryPool = p ∧ n.ptable.memoryPool = q
  pageSize : m.ptable.pageSizeBytes = n.ptable.pageSizeBytes
  maxPages : m.ptable.maxPages = n.ptable.maxPages
  pages : m.ptable.pages.length = n.ptable.pages.length
  pmapMax : m.pmap.maxPages = n.pmap.maxPages
  pmap : List.Forall₂ (AlikeEntry p q) m.pmap.entries n.pmap.entries
  freeMax : m.freeMap.maxEntries = n.freeMap.maxEntries
  freeMap : List.Forall₂ (AlikeIndexed p q) m.freeMap.entries n.freeMap.entries

theorem Same.eq_iff {p q a b c d : Nat} (h : Same p q a b) (h' : Same p q c d) : a = c ↔ b = d := by
  obtain ⟨i, ha, hb⟩ := h
  obtain ⟨j, hc, hd⟩ := h'
  omega

variable {p q : Nat} {m n : MemoryManager}

theorem Alike.npage (h : Alike p q m n) (numBytes : Nat) : m.npage numBytes = n.npage numBytes := by
  unfold MemoryManager.npage
  rw [h.pageSize]

/-- The two lower bounds lie at one place of the free maps. -/
theorem Alike.lowerBound (h : Alike p q m n) (k : Nat) :
    Option.Rel (fun r r' => List.Forall₂ (AlikeIndexed p q) (r.1 ++ r.2.2) (r'.1 ++ r'.2.2) ∧
      AlikeIndexed p q r.2.1 r'.2.1) (m.freeMap.lowerBound k) (n.freeMap.lowerBound k) := by
  have hspan := forall₂_span (f := fun e : IndexedEntry => decide (e.index < ((k % 2 ^ 32 : Nat) : Int)))
    (g := fun e : IndexedEntry => decide (e.index < ((k % 2 ^ 32 : Nat) : Int)))
    (fun a b hab => by rw [hab.index]) h.freeMap
  unfold MultiMap.lowerBound
  generalize m.freeMap.entries.span _ = s at hspan ⊢
  generalize n.freeMap.entries.span _ = t at hspan ⊢
  obtain ⟨front, back⟩ := s
  obtain ⟨front', back'⟩ := t
  obtain ⟨hfront, hback⟩ := hspan
  cases hback with
  | nil => exact .none
  | cons hentry hrest => exact .some ⟨List.rel_append hfront hrest, hentry⟩

theorem Alike.find (h : Alike p q m n) (offset : Nat) :
    Option.Rel (AlikeEntry p q) (m.pmap.find (p + offset)) (n.pmap.find (q + offset)) := by
  apply forall₂_find _ h.pmap
  intro a b hab
  exact decide_eq_decide.mpr (hab.addr.eq_iff ⟨offset, rfl, rfl⟩)

/-- Two TLBs in the managers. -/
def AlikeTlb (p q : Nat) (r r' : TLB) : Prop :=
  r.maxPages = r'.maxPages ∧ List.Forall₂ (AlikeEntry p q) r.entries r'.entries

theorem Alike.set (h : Alike p q m n) {addr addr' : Nat} (haddr : Same p q addr addr') {a b : Page}
    (hpage : AlikePage p q a b) :
    Option.Rel (AlikeTlb p q) (m.pmap.set addr a) (n.pmap.set addr' b) := by
  have hspan := forall₂_span (f := fun e : PageEntry => decide (e.addr ≠ addr))
    (g := fun e : PageEntry => decide (e.addr ≠ addr')) (fun a b hab =>
      decide_eq_decide.mpr (not_congr (hab.addr.eq_iff haddr))) h.pmap
  have hentry : AlikeEntry p q ⟨addr, a⟩ ⟨addr', b⟩ := ⟨haddr, hpage⟩
  unfold TLB.set
  generalize m.pmap.entries.span _ = s at hspan ⊢
  generalize n.pmap.entries.span _ = t at hspan ⊢
  obtain ⟨front, back⟩ := s
  obtain ⟨front', back'⟩ := t
  obtain ⟨hfront, hback⟩ := hspan
  cases hback with
  | nil =>
    simp only [hfront.length_eq, h.pmapMax]
    split_ifs
    · exact .some ⟨rfl, List.rel_append hfront (.cons hentry .nil)⟩
    · exact .none
  | cons _ hrest => exact .some ⟨h.pmapMax, List.rel_append hfront (.cons hentry hrest)⟩

theorem Alike.insert (h : Alike p q m n) (k : Nat) {a b : Page} (hpage : AlikePage p q a b) :
    Option.Rel (fun r r' : MultiMap => r.maxEntries = r'.maxEntries ∧
      List.Forall₂ (AlikeIndexed p q) r.entries r'.entries)
      (m.freeMap.insert k a) (n.freeMap.insert k b) := by
  unfold MultiMap.insert
  rw [h.freeMap.length_eq, h.freeMax]
  split_ifs
  · exact .some ⟨rfl, List.rel_append h.freeMap (.cons ⟨rfl, hpage⟩ .nil)⟩
  · exact .none

theorem Alike.resize (h : Alike p q m n) (newSize : Nat) (a b : Page) :
    Option.Rel (fun r r' : PageTable => r = { m.ptable with pages := r.pages } ∧
        r' = { n.ptable with pages := r'.pages } ∧ r.pages.length = r'.pages.length)
      (m.ptable.resize newSize a) (n.ptable.resize newSize b) := by
  have hiff : (m.ptable.pages.length ≤ newSize ∧ newSize ≤ m.ptable.maxPages) ↔
      n.ptable.pages.length ≤ newSize ∧ newSize ≤ n.ptable.maxPages := by
    rw [h.pages, h.maxPages]
  unfold PageTable.resize
  by_cases hfit : n.ptable.pages.length ≤ newSize ∧ newSize ≤ n.ptable.maxPages
  · rw [if_pos hfit, if_pos (hiff.mpr hfit)]
    refine .some ⟨rfl, rfl, ?_⟩
    rw [List.length_append, List.length_append, h.pages, List.length_replicate,
      List.length_replicate]
  · rw [if_neg hfit, if_neg (mt hiff.mp hfit)]
    exact .none

theorem Alike.pageCreate (h : Alike p q m n) (start k : Nat) : AlikePage p q
    (Crt.pageCreate m.ptable.memoryPool m.ptable.pageSizeBytes start k)
    (Crt.pageCreate n.ptable.memoryPool n.ptable.pageSizeBytes start k) := by
  refine ⟨rfl, start * n.ptable.pageSizeBytes, ?_, ?_⟩
  · rw [← h.pageSize, ← h.pool.1]
    rfl
  · rw [← h.pool.2]
    rfl

/-- What two allocations leave. -/
def AlikeResult (p q : Nat) (r r' : MemoryManager × Option Nat) : Prop :=
  Alike p q r.1 r'.1 ∧ Option.Rel (Same p q) r.2 r'.2

theorem Alike.allocate (h : Alike p q m n) (numBytes : Nat) :
    Option.Rel (AlikeResult p q) (m.allocate numBytes) (n.allocate numBytes) := by
  have hbound := h.lowerBound (m.npage numBytes)
  unfold MemoryManager.allocate
  rw [← h.npage]
  generalize m.freeMap.lowerBound (m.npage numBytes) = r at hbound ⊢
  generalize n.freeMap.lowerBound (m.npage numBytes) = r' at hbound ⊢
  cases hbound with
  | some hfound =>
    refine .some ⟨?_, .some hfound.2.page.data⟩
    exact ⟨h.pool, h.pageSize, h.maxPages, h.pages, h.pmapMax, h.pmap, h.freeMax, hfound.1⟩
  | none =>
    simp only [h.pages, h.maxPages]
    split_ifs
    · exact .some ⟨h, .none⟩
    · have hpage := h.pageCreate n.ptable.pages.length (m.npage numBytes)
      apply rel_bind (h.resize _ _ _)
      intro ptable ptable' hptable
      apply rel_bind (h.set hpage.data hpage)
      intro pmap pmap' hpmap
      refine .some ⟨⟨?_, ?_, ?_, hptable.2.2, hpmap.1, hpmap.2, h.freeMax, h.freeMap⟩,
        .some hpage.data⟩
      · rw [hptable.1, hptable.2.1]
        exact h.pool
      · rw [hptable.1, hptable.2.1]
        exact h.pageSize
      · rw [hptable.1, hptable.2.1]
        exact h.maxPages

theorem Alike.free (h : Alike p q m n) (offset : Nat) :
    Option.Rel (Alike p q) (m.free (p + offset)) (n.free (q + offset)) := by
  unfold MemoryManager.free
  rw [h.pmap.length_eq]
  split_ifs
  · exact .none
  · apply rel_bind (h.find offset)
    intro entry entry' hentry
    rw [hentry.page.numPages]
    apply rel_bind (h.insert _ hentry.page)
    intro freeMap freeMap' hfree
    exact .some ⟨h.pool, h.pageSize, h.maxPages, h.pages, h.pmapMax, h.pmap, hfree.1, hfree.2⟩

/-- One call is answered in the same way. -/
theorem Alike.call (h : Alike p q m n) (c : Call) :
    Option.Rel (fun r r' => Alike p q r.1 r'.1 ∧ r.2 = r'.2) (m.call c) (n.call c) := by
  cases c with
  | allocate numBytes =>
    apply rel_bind (h.allocate numBytes)
    intro r r' hr
    obtain ⟨mgr, ptr⟩ := r
    obtain ⟨mgr', ptr'⟩ := r'
    obtain ⟨halike, hptr⟩ := hr
    cases hptr with
    | none => exact .some ⟨halike, rfl⟩
    | some hsame =>
      obtain ⟨offset, ha, hb⟩ := hsame
      have hp := h.pool.1
      have hq := h.pool.2
      refine .some ⟨halike, congrArg Outcome.allocated ?_⟩
      omega
  | free offset =>
    have hfree := h.free offset
    rw [← h.pool.1, ← h.pool.2] at hfree
    apply rel_bind hfree
    intro mgr mgr' halike
    rw [h.pool.1, h.pool.2] at halike
    exact .some ⟨halike, rfl⟩

theorem Alike.run (h : Alike p q m n) (calls : List Call) : (m.run calls).1 = (n.run calls).1 := by
  induction calls generalizing m n with
  | nil => rfl
  | cons c calls ih =>
    have hcall := h.call c
    unfold MemoryManager.run
    generalize m.call c = r at hcall ⊢
    generalize n.call c = r' at hcall ⊢
    cases hcall with
    | none => rfl
    | some hnext =>
      simp only [hnext.2, ih hnext.1]

theorem allocate_vleakSize {numBytes : Nat} {r : MemoryManager × Option Nat}
    (h : m.allocate numBytes = some r) :
    r.1.vleakSize = m.vleakSize + if r.2.isSome then 1 else 0 := by
  unfold MemoryManager.allocate at h
  split at h
  · rw [← Option.some.inj h]
    rfl
  · simp only at h
    split_ifs at h
    · rw [← Option.some.inj h]
      exact (add_zero _).symm
    · obtain ⟨ptable, -, h⟩ := Option.bind_eq_some_iff.mp h
      obtain ⟨pmap, -, h⟩ := Option.bind_eq_some_iff.mp h
      rw [← Option.some.inj h]
      rfl

theorem call_vleakSize {c : Call} {r : MemoryManager × Outcome} (h : m.call c = some r) :
    r.1.vleakSize = m.vleakSize + r.2.weight := by
  cases c with
  | allocate numBytes =>
    obtain ⟨result, hallocate, h⟩ := Option.bind_eq_some_iff.mp h
    have hvleak := allocate_vleakSize hallocate
    obtain ⟨mgr, ptr⟩ := result
    cases ptr with
    | none =>
      rw [← Option.some.inj h]
      exact hvleak
    | some ptr =>
      rw [← Option.some.inj h]
      exact hvleak
  | free offset =>
    obtain ⟨mgr, hfree, h⟩ := Option.bind_eq_some_iff.mp h
    unfold MemoryManager.free at hfree
    split_ifs at hfree
    obtain ⟨entry, -, hfree⟩ := Option.bind_eq_some_iff.mp hfree
    obtain ⟨freeMap, -, hfree⟩ := Option.bind_eq_some_iff.mp hfree
    rw [← Option.some.inj h, ← Option.some.inj hfree]
    rfl

theorem run_vleakSize (m : MemoryManager) (calls : List Call) :
    (m.run calls).2.vleakSize = m.vleakSize + leaks (m.run calls).1 := by
  induction calls generalizing m with
  | nil => exact (add_zero _).symm
  | cons c calls ih =>
    unfold MemoryManager.run
    cases hcall : m.call c with
    | none => exact (add_zero _).symm
    | some r =>
      have hvleak := call_vleakSize hcall
      simp only [ih r.1, hvleak, leaks, List.map_cons, List.sum_cons]
      ring

/-- The counters that creation does not set hold zeros in the old memory. -/
def CountersZero (mem : RawMemory) (manager : Nat) : Prop :=
  mem.read (manager + offsetVleakSize) 4 = 0 ∧ mem.read (manager + offsetPtableNumPages) 8 = 0 ∧
    mem.read (manager + offsetFreeMapNumEntries) 8 = 0

instance (mem : RawMemory) (manager : Nat) : Decidable (CountersZero mem manager) := by
  unfold CountersZero
  infer_instance

/-- Where the manager lies behind the page area. -/
def managerAddress (memoryPool memoryPoolSizeBytes pageSizeBytesLog2 : Nat) : Nat :=
  memoryPool + sizeT (memoryPoolSizeBytes - sizeofMemoryManager : Int) /
    (2 ^ pageSizeBytesLog2 + (sizeofPage + sizeofPageEntry + sizeofIndexedEntry)) *
      2 ^ pageSizeBytesLog2

variable {mem mem' : RawMemory} {pool pool' size log2 : Nat}

/-- With zeros in the counters the manager is the one with empty tables. -/
theorem createIn_eq (hzero : CountersZero mem (managerAddress pool size log2)) :
    createIn mem pool size log2 = create pool size log2 := by
  have hle : pool ≤ managerAddress pool size log2 := Nat.le_add_right _ _
  obtain ⟨hvleak, hpages, hentries⟩ := hzero
  have hclear (offset width : Nat) (hoffset : 8 ≤ offset) :
      (mem.clear pool 8).read (managerAddress pool size log2 + offset) width =
        mem.read (managerAddress pool size log2 + offset) width := RawMemory.read_clear (by omega)
  rw [← hclear _ _ (by decide)] at hvleak hpages hentries
  unfold createIn create
  split_ifs
  · rfl
  · simp only [Option.map_some, managerAddress] at hvleak hpages hentries ⊢
    rw [hvleak, hpages, hentries]
    rfl

theorem create_alike {m n : MemoryManager} (hcreate : create pool size log2 = some m)
    (hcreate' : create pool' size log2 = some n) : Alike pool pool' m n ∧ m.vleakSize = 0 := by
  unfold create at hcreate hcreate'
  split_ifs at hcreate hcreate'
  rw [← Option.some.inj hcreate, ← Option.some.inj hcreate']
  exact ⟨⟨⟨rfl, rfl⟩, rfl, rfl, rfl, rfl, .nil, rfl, .nil⟩, rfl⟩

/-- A memory that holds one byte other than zero. -/
def withByte (address : Nat) (b : UInt8) : RawMemory := fun a => if a = address then b else 0

end MemoryManager

end StencilGraph.Crt

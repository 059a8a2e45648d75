import StencilGraph.Crt.PageAllocator
import Mathlib.Data.List.Count
import Mathlib.Data.List.Nodup
import Mathlib.Data.List.Pairwise
import Mathlib.Data.List.TakeDrop
import Mathlib.Data.List.TakeWhile
import Mathlib.Tactic.Linarith

namespace StencilGraph.Crt

/-- The blocks lie one behind the other from page `b` to page `e`, and none is empty. -/
def Tiles (b : Nat) : List Page → Nat → Prop
  | [], e => b = e
  | p :: ps, e => p.ptableBegin = b ∧ 1 ≤ p.numPages ∧ Tiles (b + p.numPages) ps e

section Tiles

variable {b e : Nat} {ps : List Page} {p : Page}

theorem Tiles.append_singleton (h : Tiles b ps e) (hb : p.ptableBegin = e) (hn : 1 ≤ p.numPages) :
    Tiles b (ps ++ [p]) (e + p.numPages) := by
  induction ps generalizing b with
  | nil =>
    obtain rfl : b = e := h
    exact ⟨hb, hn, rfl⟩
  | cons q ps ih => exact ⟨h.1, h.2.1, ih h.2.2⟩

theorem Tiles.bounds (h : Tiles b ps e) : b ≤ e ∧ ps.length ≤ e - b ∧
    ∀ p ∈ ps, b ≤ p.ptableBegin ∧ p.ptableBegin + p.numPages ≤ e ∧ 1 ≤ p.numPages := by
  induction ps generalizing b with
  | nil =>
    obtain rfl : b = e := h
    simp
  | cons q ps ih =>
    obtain ⟨hq, hn, hrest⟩ := h
    obtain ⟨hle, hlen, hmem⟩ := ih hrest
    refine ⟨by omega, by rw [List.length_cons]; omega, ?_⟩
    intro p hp
    rcases List.mem_cons.mp hp with rfl | hp
    · omega
    · have := hmem p hp
      omega

theorem Tiles.pairwise (h : Tiles b ps e) :
    ps.Pairwise fun p q => p.ptableBegin + p.numPages ≤ q.ptableBegin ∧
      p.ptableBegin < q.ptableBegin := by
  induction ps generalizing b with
  | nil => exact List.Pairwise.nil
  | cons q ps ih =>
    obtain ⟨hq, hn, hrest⟩ := h
    refine List.pairwise_cons.mpr ⟨fun p hp => ?_, ih hrest⟩
    have := (hrest.bounds.2.2 p hp).1
    omega

end Tiles

theorem span_eq {α : Type*} (f : α → Bool) (l : List α) :
    (l.span f).1 ++ (l.span f).2 = l ∧ (∀ a ∈ (l.span f).1, f a = true) ∧
      ∀ a ∈ (l.span f).2.head?, f a = false := by
  rw [List.span_eq_takeWhile_dropWhile]
  refine ⟨List.takeWhile_append_dropWhile, fun a ha => List.mem_takeWhile_imp ha, fun a ha => ?_⟩
  have hne : l.dropWhile f ≠ [] := by
    intro h
    rw [h] at ha
    exact nomatch ha
  have hhead := List.head_dropWhile_not f hne
  rw [List.head?_eq_some_head hne] at ha
  rw [← Option.some.inj ha]
  simpa using hhead

theorem lowerBound_cases (map : MultiMap) (n : Nat) :
    (map.lowerBound n = none ∧ ∀ f ∈ map.entries, f.index < ((n % 2 ^ 32 : Nat) : Int)) ∨
    ∃ front entry back, map.lowerBound n = some (front, entry, back) ∧
      map.entries = front ++ entry :: back ∧ ((n % 2 ^ 32 : Nat) : Int) ≤ entry.index := by
  obtain ⟨happ, hfront, hhead⟩ :=
    span_eq (fun entry : IndexedEntry => decide (entry.index < ((n % 2 ^ 32 : Nat) : Int))) map.entries
  unfold MultiMap.lowerBound
  generalize map.entries.span (fun entry => decide (entry.index < ((n % 2 ^ 32 : Nat) : Int))) =
    s at *
  obtain ⟨front, back⟩ := s
  cases back with
  | nil =>
    left
    refine ⟨rfl, fun f hf => ?_⟩
    rw [← happ, List.append_nil] at hf
    simpa using hfront f hf
  | cons entry back =>
    right
    refine ⟨front, entry, back, rfl, happ.symm, ?_⟩
    have hentry := hhead entry (by simp)
    simpa using hentry

theorem TLB.set_new {tlb : TLB} {data : Nat} {page : Page}
    (hnew : ∀ entry ∈ tlb.entries, entry.addr ≠ data) (hroom : tlb.entries.length < tlb.maxPages) :
    tlb.set data page = some { tlb with entries := tlb.entries ++ [⟨data, page⟩] } := by
  obtain ⟨happ, hfront, hhead⟩ := span_eq (fun entry : PageEntry => decide (entry.addr ≠ data))
    tlb.entries
  unfold TLB.set
  generalize tlb.entries.span (fun entry => decide (entry.addr ≠ data)) = s at *
  obtain ⟨front, back⟩ := s
  cases back with
  | nil =>
    rw [List.append_nil] at happ
    rw [← happ] at hroom ⊢
    exact if_pos hroom
  | cons entry back =>
    have hentry := hhead entry (by simp)
    have hmem : entry ∈ tlb.entries := by
      rw [← happ]
      simp
    exact absurd (hnew entry hmem) (by simpa using hentry)

/-- A page that is set is found. -/
theorem TLB.set_find {tlb tlb' : TLB} {data : Nat} {page : Page}
    (h : tlb.set data page = some tlb') : tlb'.find data = some ⟨data, page⟩ := by
  obtain ⟨happ, hfront, -⟩ := span_eq (fun entry : PageEntry => decide (entry.addr ≠ data))
    tlb.entries
  unfold TLB.set at h
  generalize tlb.entries.span (fun entry => decide (entry.addr ≠ data)) = s at *
  obtain ⟨front, back⟩ := s
  have hskip (rest : List PageEntry) : (front ++ ⟨data, page⟩ :: rest).find?
      (fun entry => decide (entry.addr = data)) = some ⟨data, page⟩ := by
    have hnone : front.find? (fun entry => decide (entry.addr = data)) = none := by
      apply List.find?_eq_none.mpr
      intro entry hentry
      simpa using hfront entry hentry
    rw [List.find?_append, hnone, Option.none_or, List.find?_cons_of_pos (by simp)]
  cases back with
  | nil =>
    simp only at h
    split_ifs at h
    rw [← Option.some.inj h]
    exact hskip []
  | cons entry back =>
    rw [← Option.some.inj h]
    exact hskip back

/-- An allocation that is not freed yet. -/
structure Alloc where
  ptr : Nat
  numBytes : Nat

/-- The manager and what its users hold. -/
structure Heap where
  mgr : MemoryManager
  live : List Alloc

namespace Heap

inductive Op where
  | allocate (numBytes : Nat)
  | free (ptr : Nat)

def step (h : Heap) : Op → Option Heap
  | .allocate numBytes => do
    let (mgr, ptr) ← h.mgr.allocate numBytes
    match ptr with
    | some ptr => some ⟨mgr, ⟨ptr, numBytes⟩ :: h.live⟩
    | none => some ⟨mgr, h.live⟩
  | .free ptr => do
    let mgr ← h.mgr.free ptr
    some ⟨mgr, h.live.eraseP fun a => a.ptr = ptr⟩

/-- Requests of one byte up to the pool size, and pointers that are live. -/
def Allowed (poolSize : Nat) (h : Heap) : Op → Prop
  | .allocate numBytes => 1 ≤ numBytes ∧ numBytes ≤ poolSize
  | .free ptr => ∃ a ∈ h.live, a.ptr = ptr

/-- The numbers of pages fit `uint32_t`, or the request is refused all the same. -/
def Meets (h : Heap) : Op → Prop
  | .allocate numBytes =>
    let sum := h.mgr.ptable.pages.length + h.mgr.npage numBytes
    sum < 2 ^ 32 ∨ (h.mgr.freeMap.lowerBound (h.mgr.npage numBytes) = none ∧
      h.mgr.ptable.maxPages < sum % 2 ^ 32)
  | .free _ => True

/-- The block `p` ends where `q` starts, or before. -/
def Before (pageSizeBytes : Nat) (p q : Page) : Prop :=
  p.data + p.numPages * pageSizeBytes ≤ q.data

/-- The page area, the manager, and its three tables follow each other inside the pool. -/
structure LaidOut (poolSize : Nat) (mgr : MemoryManager) : Prop where
  manager : mgr.ptable.memoryPool + mgr.ptable.maxPages * mgr.ptable.pageSizeBytes ≤ mgr.address
  ptable : mgr.address + sizeofMemoryManager ≤ mgr.ptable.page
  pmap : mgr.ptable.page + sizeofPage * mgr.ptable.maxPages ≤ mgr.pmap.address
  freeMap : mgr.pmap.address + sizeofPageEntry * mgr.pmap.maxPages ≤ mgr.freeMap.address
  pool : mgr.freeMap.address + sizeofIndexedEntry * mgr.freeMap.maxEntries ≤
    mgr.ptable.memoryPool + poolSize

/-- What users of the allocator rely on. -/
structure Sound (poolSize : Nat) (h : Heap) : Prop where
  laidOut : LaidOut poolSize h.mgr
  ptable : h.mgr.ptable.pages.length ≤ h.mgr.ptable.maxPages
  pmap : h.mgr.pmap.entries.length ≤ h.mgr.pmap.maxPages
  freeMap : h.mgr.freeMap.entries.length ≤ h.mgr.freeMap.maxEntries
  block : ∀ a ∈ h.live, ∃ entry, h.mgr.pmap.find a.ptr = some entry ∧ entry.page.data = a.ptr ∧
    h.mgr.ptable.memoryPool ≤ a.ptr ∧
    a.ptr + entry.page.numPages * h.mgr.ptable.pageSizeBytes ≤
      h.mgr.ptable.memoryPool + h.mgr.ptable.maxPages * h.mgr.ptable.pageSizeBytes ∧
    a.numBytes ≤ entry.page.numPages * h.mgr.ptable.pageSizeBytes
  disjoint : h.live.Pairwise fun a b => ∀ p q, h.mgr.pmap.find a.ptr = some p →
    h.mgr.pmap.find b.ptr = some q → Before h.mgr.ptable.pageSizeBytes p.page q.page ∨
      Before h.mgr.ptable.pageSizeBytes q.page p.page
  freed : ∀ entry ∈ h.mgr.pmap.entries,
    h.mgr.freeMap.entries.countP (fun f => f.page = entry.page) =
      if ∃ a ∈ h.live, a.ptr = entry.addr then 0 else 1
  refused : ∀ numBytes mgr, h.mgr.allocate numBytes = some (mgr, none) → mgr = h.mgr

/-- The sizes fixed by `PageMemoryManagerCreate`. -/
structure Static (poolSize : Nat) (mgr : MemoryManager) : Prop where
  laidOut : LaidOut poolSize mgr
  pageSize : 1 ≤ mgr.ptable.pageSizeBytes
  maxPages : mgr.ptable.maxPages < 2 ^ 32
  pmap : mgr.pmap.maxPages = mgr.ptable.maxPages
  freeMap : mgr.freeMap.maxEntries = mgr.ptable.maxPages
  pool : poolSize + mgr.ptable.pageSizeBytes < 2 ^ 64

theorem Static.withTables {poolSize : Nat} {mgr : MemoryManager} (hs : Static poolSize mgr)
    (vleakSize : Int) (pages : List Page) (entries : List PageEntry) (free : List IndexedEntry) :
    Static poolSize ⟨mgr.address, vleakSize, { mgr.ptable with pages := pages },
      { mgr.pmap with entries := entries }, { mgr.freeMap with entries := free }⟩ :=
  ⟨⟨hs.laidOut.manager, hs.laidOut.ptable, hs.laidOut.pmap, hs.laidOut.freeMap, hs.laidOut.pool⟩,
    hs.pageSize, hs.maxPages, hs.pmap, hs.freeMap, hs.pool⟩

/-- The invariant: the blocks of the address map tile the page table, and each is either live or in
the free map. -/
structure Inv (poolSize : Nat) (h : Heap) : Prop where
  static : Static poolSize h.mgr
  tiles : Tiles 0 (h.mgr.pmap.entries.map (·.page)) h.mgr.ptable.pages.length
  capacity : h.mgr.ptable.pages.length ≤ h.mgr.ptable.maxPages
  addr : ∀ e ∈ h.mgr.pmap.entries, e.addr = e.page.data ∧
    e.page.data = h.mgr.ptable.memoryPool + e.page.ptableBegin * h.mgr.ptable.pageSizeBytes
  perm : (h.live.map (·.ptr) ++ h.mgr.freeMap.entries.map (·.page.data)).Perm
    (h.mgr.pmap.entries.map (·.addr))
  free : ∀ f ∈ h.mgr.freeMap.entries, f.index = f.page.numPages ∧
    ∃ e ∈ h.mgr.pmap.entries, e.page = f.page
  sized : ∀ a ∈ h.live, ∀ e ∈ h.mgr.pmap.entries, e.addr = a.ptr →
    a.numBytes ≤ e.page.numPages * h.mgr.ptable.pageSizeBytes

variable {poolSize : Nat} {h h' : Heap}

theorem Inv.pairwise (hi : Inv poolSize h) : h.mgr.pmap.entries.Pairwise fun e f =>
    Before h.mgr.ptable.pageSizeBytes e.page f.page ∧ e.addr < f.addr := by
  have htiles := List.pairwise_map.mp hi.tiles.pairwise
  have hpos := hi.static.pageSize
  refine (List.pairwise_iff_forall_sublist.mpr fun {e f} hsub => ?_)
  have hef := List.pairwise_iff_forall_sublist.mp htiles hsub
  have he := hi.addr e (hsub.subset (by simp))
  have hf := hi.addr f (hsub.subset (by simp))
  have hle : (e.page.ptableBegin + e.page.numPages) * h.mgr.ptable.pageSizeBytes ≤
      f.page.ptableBegin * h.mgr.ptable.pageSizeBytes := Nat.mul_le_mul_right _ hef.1
  have hlt : e.page.ptableBegin * h.mgr.ptable.pageSizeBytes <
      f.page.ptableBegin * h.mgr.ptable.pageSizeBytes := Nat.mul_lt_mul_of_pos_right hef.2 hpos
  rw [Nat.add_mul] at hle
  unfold Before
  omega

theorem Inv.nodup (hi : Inv poolSize h) : (h.mgr.pmap.entries.map (·.addr)).Nodup :=
  List.pairwise_map.mpr (hi.pairwise.imp fun h => Nat.ne_of_lt h.2)

theorem Inv.length_le (hi : Inv poolSize h) :
    h.mgr.pmap.entries.length ≤ h.mgr.ptable.pages.length := by
  have hlen := hi.tiles.bounds.2.1
  rw [List.length_map] at hlen
  omega

theorem Inv.find (hi : Inv poolSize h) {e : PageEntry} (he : e ∈ h.mgr.pmap.entries) :
    h.mgr.pmap.find e.addr = some e := by
  have hnodup := hi.nodup
  unfold TLB.find
  generalize h.mgr.pmap.entries = entries at he hnodup
  induction entries with
  | nil => exact nomatch he
  | cons d entries ih =>
    rw [List.map_cons, List.nodup_cons] at hnodup
    rw [List.find?_cons]
    rcases List.mem_cons.mp he with rfl | he
    · simp
    · have hne : d.addr ≠ e.addr := fun heq => hnodup.1 (heq ▸ List.mem_map_of_mem he)
      simp only [hne, decide_false]
      exact ih he hnodup.2

theorem Inv.entry_of_live (hi : Inv poolSize h) {a : Alloc} (ha : a ∈ h.live) :
    ∃ e ∈ h.mgr.pmap.entries, e.addr = a.ptr := by
  have hmem : a.ptr ∈ h.mgr.pmap.entries.map (·.addr) :=
    hi.perm.subset (List.mem_append_left _ (List.mem_map_of_mem ha))
  obtain ⟨e, he, heq⟩ := List.mem_map.mp hmem
  exact ⟨e, he, heq⟩

theorem Inv.block (hi : Inv poolSize h) {e : PageEntry} (he : e ∈ h.mgr.pmap.entries) :
    h.mgr.ptable.memoryPool ≤ e.addr ∧
    e.addr + e.page.numPages * h.mgr.ptable.pageSizeBytes ≤
      h.mgr.ptable.memoryPool + h.mgr.ptable.maxPages * h.mgr.ptable.pageSizeBytes := by
  obtain ⟨haddr, hdata⟩ := hi.addr e he
  have hend := (hi.tiles.bounds.2.2 e.page (List.mem_map_of_mem he)).2.1
  have hle : (e.page.ptableBegin + e.page.numPages) * h.mgr.ptable.pageSizeBytes ≤
      h.mgr.ptable.maxPages * h.mgr.ptable.pageSizeBytes :=
    Nat.mul_le_mul_right _ (hend.trans hi.capacity)
  rw [Nat.add_mul] at hle
  omega

/-- The page of a free entry is known by its address. -/
theorem Inv.page_eq_iff (hi : Inv poolSize h) {f : IndexedEntry} (hf : f ∈ h.mgr.freeMap.entries)
    {e : PageEntry} (he : e ∈ h.mgr.pmap.entries) : f.page = e.page ↔ f.page.data = e.addr := by
  obtain ⟨-, e', he', hpage⟩ := hi.free f hf
  constructor
  · intro heq
    rw [heq, (hi.addr e he).1]
  · intro heq
    have haddr : e'.addr = e.addr := by rw [(hi.addr e' he').1, hpage, heq]
    have hfind := hi.find he'
    rw [haddr, hi.find he] at hfind
    rw [← hpage, ← Option.some.inj hfind]

theorem Inv.freed (hi : Inv poolSize h) {e : PageEntry} (he : e ∈ h.mgr.pmap.entries) :
    h.mgr.freeMap.entries.countP (fun f => f.page = e.page) =
      if ∃ a ∈ h.live, a.ptr = e.addr then 0 else 1 := by
  have hone : (h.mgr.pmap.entries.map (·.addr)).count e.addr = 1 :=
    List.count_eq_one_of_mem hi.nodup (List.mem_map_of_mem he)
  rw [← hi.perm.count_eq, List.count_append] at hone
  have hfree : h.mgr.freeMap.entries.countP (fun f => f.page = e.page) =
      (h.mgr.freeMap.entries.map (·.page.data)).count e.addr := by
    rw [List.count, List.countP_map]
    apply List.countP_congr
    intro f hf
    simp only [decide_eq_true_eq, Function.comp_apply, beq_iff_eq]
    exact hi.page_eq_iff hf he
  rw [hfree]
  split_ifs with hlive
  · obtain ⟨a, ha, hptr⟩ := hlive
    have hpos : 0 < (h.live.map (·.ptr)).count e.addr :=
      List.count_pos_iff.mpr (hptr ▸ List.mem_map_of_mem ha)
    omega
  · have hzero : (h.live.map (·.ptr)).count e.addr = 0 := by
      apply List.count_eq_zero.mpr
      intro hmem
      obtain ⟨a, ha, hptr⟩ := List.mem_map.mp hmem
      exact hlive ⟨a, ha, hptr⟩
    omega

theorem Inv.disjoint (hi : Inv poolSize h) {e f : PageEntry} (he : e ∈ h.mgr.pmap.entries)
    (hf : f ∈ h.mgr.pmap.entries) (hne : e.addr ≠ f.addr) :
    Before h.mgr.ptable.pageSizeBytes e.page f.page ∨
      Before h.mgr.ptable.pageSizeBytes f.page e.page := by
  have hsymm : Std.Symm fun x y : PageEntry => Before h.mgr.ptable.pageSizeBytes x.page y.page ∨
      Before h.mgr.ptable.pageSizeBytes y.page x.page := ⟨fun _ _ h => h.symm⟩
  have hpair : h.mgr.pmap.entries.Pairwise fun x y =>
      Before h.mgr.ptable.pageSizeBytes x.page y.page ∨
        Before h.mgr.ptable.pageSizeBytes y.page x.page := hi.pairwise.imp fun h => Or.inl h.1
  exact hpair.forall he hf fun heq => hne (congrArg _ heq)

theorem allocate_refused {mgr mgr' : MemoryManager} {numBytes : Nat}
    (h : mgr.allocate numBytes = some (mgr', none)) : mgr' = mgr := by
  unfold MemoryManager.allocate at h
  split at h
  · simp at h
  · simp only at h
    split_ifs at h
    · exact (Prod.mk.inj (Option.some.inj h)).1.symm
    · obtain ⟨ptable, -, h⟩ := Option.bind_eq_some_iff.mp h
      obtain ⟨pmap, -, h⟩ := Option.bind_eq_some_iff.mp h
      exact nomatch (Prod.mk.inj (Option.some.inj h)).2

theorem Inv.sound (hi : Inv poolSize h) : Sound poolSize h := by
  have hlen := hi.length_le
  have hperm := hi.perm.length_eq
  have hcap := hi.capacity
  simp only [List.length_append, List.length_map] at hperm
  refine ⟨hi.static.laidOut, hcap, ?_, ?_, ?_, ?_, fun e he => hi.freed he,
    fun _ _ => allocate_refused⟩
  · rw [hi.static.pmap]
    omega
  · rw [hi.static.freeMap]
    omega
  · intro a ha
    obtain ⟨e, he, hptr⟩ := hi.entry_of_live ha
    have hblock := hi.block he
    rw [hptr] at hblock
    exact ⟨e, hptr ▸ hi.find he, ((hi.addr e he).1.symm.trans hptr), hblock.1, hblock.2,
      hi.sized a ha e he hptr⟩
  · -- two live allocations have different addresses
    have hnodup : (h.live.map (·.ptr)).Nodup :=
      ((hi.perm.nodup_iff.mpr hi.nodup).sublist (List.sublist_append_left _ _))
    have hlive := List.pairwise_map.mp hnodup
    refine List.pairwise_iff_forall_sublist.mpr fun {a b} hsub p q hp hq => ?_
    have hne := List.pairwise_iff_forall_sublist.mp hlive hsub
    obtain ⟨e, he, heptr⟩ := hi.entry_of_live (hsub.subset (by simp : a ∈ [a, b]))
    obtain ⟨f, hf, hfptr⟩ := hi.entry_of_live (hsub.subset (by simp : b ∈ [a, b]))
    rw [← heptr, hi.find he] at hp
    rw [← hfptr, hi.find hf] at hq
    rw [← Option.some.inj hp, ← Option.some.inj hq]
    exact hi.disjoint he hf (by rw [heptr, hfptr]; exact hne)

/-- The sum for the page count does not wrap. -/
def NoWrap (h : Heap) (numBytes : Nat) : Prop :=
  numBytes + h.mgr.ptable.pageSizeBytes - 1 < 2 ^ 64

theorem Inv.noWrap (hi : Inv poolSize h) {numBytes : Nat} (hn : numBytes ≤ poolSize) :
    h.NoWrap numBytes := by
  have hpool := hi.static.pool
  unfold NoWrap
  omega

/-- The pages cover the request, and one page less would not. -/
theorem le_npage_iff (hi : Inv poolSize h) {numBytes k : Nat} (hpos : 1 ≤ numBytes)
    (hn : h.NoWrap numBytes) :
    h.mgr.npage numBytes ≤ k ↔ numBytes ≤ k * h.mgr.ptable.pageSizeBytes := by
  have hps := hi.static.pageSize
  rw [MemoryManager.npage, Nat.mod_eq_of_lt hn, ← Nat.lt_succ_iff,
    Nat.div_lt_iff_lt_mul (by omega), Nat.succ_mul]
  omega

/-- A block from the free map becomes live. -/
theorem Inv.take (hi : Inv poolSize h) {front back : List IndexedEntry} {entry : IndexedEntry}
    {numBytes : Nat} (hentries : h.mgr.freeMap.entries = front ++ entry :: back)
    (hsize : numBytes ≤ entry.page.numPages * h.mgr.ptable.pageSizeBytes) :
    Inv poolSize ⟨{ h.mgr with
      vleakSize := h.mgr.vleakSize + 1
      freeMap := { h.mgr.freeMap with entries := front ++ back } },
      ⟨entry.page.data, numBytes⟩ :: h.live⟩ := by
  have hsub : ∀ f ∈ front ++ back, f ∈ h.mgr.freeMap.entries := by
    intro f hf
    rw [hentries]
    rcases List.mem_append.mp hf with hf | hf
    · exact List.mem_append_left _ hf
    · exact List.mem_append_right _ (List.mem_cons_of_mem _ hf)
  have hentry : entry ∈ h.mgr.freeMap.entries := by
    rw [hentries]
    simp
  refine ⟨hi.static.withTables _ h.mgr.ptable.pages h.mgr.pmap.entries _, hi.tiles, hi.capacity,
    hi.addr, ?_, fun f hf => hi.free f (hsub f hf), ?_⟩
  · have hperm := hi.perm
    rw [hentries] at hperm
    refine List.Perm.trans ?_ hperm
    simp only [List.map_cons, List.map_append, List.cons_append]
    rw [← List.append_assoc, ← List.append_assoc]
    exact List.perm_middle.symm
  · intro a ha e he haddr
    rcases List.mem_cons.mp ha with rfl | ha
    · rw [← (hi.page_eq_iff hentry he).mpr haddr.symm]
      exact hsize
    · exact hi.sized a ha e he haddr

/-- A new block behind the others becomes live. -/
theorem Inv.extend (hi : Inv poolSize h) {numBytes n : Nat} (hn : 1 ≤ n)
    (hcap : h.mgr.ptable.pages.length + n ≤ h.mgr.ptable.maxPages)
    (hsize : numBytes ≤ n * h.mgr.ptable.pageSizeBytes) (filler : Page) :
    let p := pageCreate h.mgr.ptable.memoryPool h.mgr.ptable.pageSizeBytes
      h.mgr.ptable.pages.length n
    Inv poolSize ⟨{ h.mgr with
      vleakSize := h.mgr.vleakSize + 1
      ptable := { h.mgr.ptable with pages := h.mgr.ptable.pages ++ List.replicate n filler }
      pmap := { h.mgr.pmap with entries := h.mgr.pmap.entries ++ [⟨p.data, p⟩] } },
      ⟨p.data, numBytes⟩ :: h.live⟩ := by
  intro p
  have hold : ∀ e ∈ h.mgr.pmap.entries, e.addr ≠ p.data := by
    intro e he
    obtain ⟨haddr, hdata⟩ := hi.addr e he
    have hend := hi.tiles.bounds.2.2 e.page (List.mem_map_of_mem he)
    have hlt : e.page.ptableBegin * h.mgr.ptable.pageSizeBytes <
        h.mgr.ptable.pages.length * h.mgr.ptable.pageSizeBytes :=
      Nat.mul_lt_mul_of_pos_right (by omega) hi.static.pageSize
    show e.addr ≠ h.mgr.ptable.memoryPool +
      h.mgr.ptable.pages.length * h.mgr.ptable.pageSizeBytes
    omega
  refine ⟨hi.static.withTables _ _ _ h.mgr.freeMap.entries, ?_, ?_, ?_, ?_, ?_, ?_⟩
  · rw [List.map_append, List.length_append, List.length_replicate]
    exact hi.tiles.append_singleton (p := p) rfl hn
  · rw [List.length_append, List.length_replicate]
    exact hcap
  · intro e he
    rcases List.mem_append.mp he with he | he
    · exact hi.addr e he
    · rw [List.mem_singleton.mp he]
      exact ⟨rfl, rfl⟩
  · rw [List.map_cons, List.map_append]
    exact (List.Perm.cons _ hi.perm).trans (List.perm_append_singleton _ _).symm
  · intro f hf
    obtain ⟨hindex, e, he, hpage⟩ := hi.free f hf
    exact ⟨hindex, e, List.mem_append_left _ he, hpage⟩
  · intro a ha e he haddr
    rcases List.mem_cons.mp ha with rfl | ha
    · rcases List.mem_append.mp he with he | he
      · exact absurd haddr (hold e he)
      · rw [List.mem_singleton.mp he]
        exact hsize
    · rcases List.mem_append.mp he with he | he
      · exact hi.sized a ha e he haddr
      · -- a live pointer is the address of an older block
        rw [List.mem_singleton.mp he] at haddr
        obtain ⟨e', he', haddr'⟩ := hi.entry_of_live ha
        exact absurd (haddr'.trans haddr.symm) (hold e' he')

/-- A live block goes back to the free map. -/
theorem Inv.release (hi : Inv poolSize h) {a : Alloc} (ha : a ∈ h.live) {e : PageEntry}
    (he : e ∈ h.mgr.pmap.entries) (haddr : e.addr = a.ptr) :
    Inv poolSize ⟨{ h.mgr with
      vleakSize := h.mgr.vleakSize - 1
      freeMap := { h.mgr.freeMap with
        entries := h.mgr.freeMap.entries ++ [⟨e.page.numPages, e.page⟩] } },
      h.live.eraseP fun b => b.ptr = a.ptr⟩ := by
  refine ⟨hi.static.withTables _ h.mgr.ptable.pages h.mgr.pmap.entries _, hi.tiles, hi.capacity,
    hi.addr, ?_, ?_, fun b hb => hi.sized b (List.mem_of_mem_eraseP hb)⟩
  · refine List.Perm.trans ?_ hi.perm
    obtain ⟨b, front, back, hfront, hb, hlive, herase⟩ := List.exists_of_eraseP
      (p := fun b => decide (b.ptr = a.ptr)) ha (by simp)
    have hdata : e.page.data = b.ptr := by
      rw [← (hi.addr e he).1, haddr]
      exact (of_decide_eq_true hb).symm
    rw [herase, hlive]
    simp only [List.map_append, List.map_cons, List.map_nil, hdata]
    rw [List.append_assoc, List.append_assoc, List.cons_append]
    refine List.Perm.append_left _ ?_
    rw [← List.append_assoc]
    exact List.perm_append_singleton _ _
  · intro f hf
    rcases List.mem_append.mp hf with hf | hf
    · exact hi.free f hf
    · rw [List.mem_singleton.mp hf]
      exact ⟨rfl, e, he, rfl⟩

theorem step_free (hi : Inv poolSize h) {a : Alloc} (ha : a ∈ h.live) :
    ∃ h', h.step (.free a.ptr) = some h' ∧ Inv poolSize h' := by
  obtain ⟨e, he, haddr⟩ := hi.entry_of_live ha
  have hfind := hi.find he
  rw [haddr] at hfind
  have hblock := hi.tiles.bounds.2.2 e.page (List.mem_map_of_mem he)
  have hcap := hi.capacity
  have hmax := hi.static.maxPages
  have hmod : e.page.numPages % 2 ^ 32 = e.page.numPages := Nat.mod_eq_of_lt (by omega)
  have hlen : h.mgr.freeMap.entries.length + 1 ≤ h.mgr.freeMap.maxEntries := by
    have hperm := hi.perm.length_eq
    have hle := hi.length_le
    have hpos : 0 < h.live.length := List.length_pos_of_mem ha
    simp only [List.length_append, List.length_map] at hperm
    rw [hi.static.freeMap]
    omega
  have hne : h.mgr.pmap.entries.length ≠ 0 := Nat.ne_of_gt (List.length_pos_of_mem he)
  have hinsert : h.mgr.freeMap.insert e.page.numPages e.page = some { h.mgr.freeMap with
      entries := h.mgr.freeMap.entries ++ [⟨e.page.numPages, e.page⟩] } := by
    unfold MultiMap.insert
    rw [hmod, if_pos ⟨hlen, by omega⟩]
  refine ⟨_, ?_, hi.release ha he haddr⟩
  simp only [step, MemoryManager.free, if_neg hne, hfind, hinsert, Option.bind_eq_bind,
    Option.bind_some]

/-- A request that fits the page table. -/
theorem step_extend (hi : Inv poolSize h) {numBytes : Nat} (hpos : 1 ≤ numBytes)
    (hn : h.NoWrap numBytes) (hnone : h.mgr.freeMap.lowerBound (h.mgr.npage numBytes) = none)
    (hle : h.mgr.ptable.pages.length + h.mgr.npage numBytes ≤ h.mgr.ptable.maxPages) :
    ∃ h', h.step (.allocate numBytes) = some h' ∧ Inv poolSize h' := by
  have hmax := hi.static.maxPages
  have hone : 1 ≤ h.mgr.npage numBytes := by
    by_contra hlt
    have hcover := (le_npage_iff hi hpos hn (k := 0)).mp (by omega)
    omega
  have hcover := (le_npage_iff hi hpos hn).mp (Nat.le_refl (h.mgr.npage numBytes))
  have hmod : (h.mgr.ptable.pages.length + h.mgr.npage numBytes) % 2 ^ 32 =
      h.mgr.ptable.pages.length + h.mgr.npage numBytes := Nat.mod_eq_of_lt (by omega)
  refine ⟨_, ?_, hi.extend hone hle hcover (pageCreate h.mgr.ptable.memoryPool
    h.mgr.ptable.pageSizeBytes h.mgr.ptable.pages.length (h.mgr.npage numBytes))⟩
  have hresize (p : Page) : h.mgr.ptable.resize
      (h.mgr.ptable.pages.length + h.mgr.npage numBytes) p = some { h.mgr.ptable with
        pages := h.mgr.ptable.pages ++ List.replicate (h.mgr.npage numBytes) p } := by
    unfold PageTable.resize
    rw [if_pos ⟨Nat.le_add_right _ _, hle⟩, Nat.add_sub_cancel_left]
  have hset (p : Page) (hp : p.data = h.mgr.ptable.memoryPool +
      h.mgr.ptable.pages.length * h.mgr.ptable.pageSizeBytes) :
      h.mgr.pmap.set p.data p = some { h.mgr.pmap with
        entries := h.mgr.pmap.entries ++ [⟨p.data, p⟩] } := by
    apply TLB.set_new
    · intro e he
      obtain ⟨haddr, hdata⟩ := hi.addr e he
      have hend := hi.tiles.bounds.2.2 e.page (List.mem_map_of_mem he)
      have hlt : e.page.ptableBegin * h.mgr.ptable.pageSizeBytes <
          h.mgr.ptable.pages.length * h.mgr.ptable.pageSizeBytes :=
        Nat.mul_lt_mul_of_pos_right (by omega) hi.static.pageSize
      omega
    · have hlen := hi.length_le
      rw [hi.static.pmap]
      omega
  simp only [step, MemoryManager.allocate, hnone, hmod, hresize,
    hset (pageCreate _ _ _ _) rfl, if_neg (Nat.not_lt_of_le hle), Option.bind_eq_bind,
    Option.bind_some, gt_iff_lt]

theorem step_meets (hi : Inv poolSize h) {op : Op} (hallowed : h.Allowed poolSize op)
    (hmeets : h.Meets op) : ∃ h', h.step op = some h' ∧ Inv poolSize h' := by
  cases op with
  | free ptr =>
    obtain ⟨a, ha, rfl⟩ := hallowed
    exact step_free hi ha
  | allocate numBytes =>
    obtain ⟨hpos, hn⟩ := hallowed
    have hmax := hi.static.maxPages
    rcases lowerBound_cases h.mgr.freeMap (h.mgr.npage numBytes) with
      ⟨hnone, -⟩ | ⟨front, entry, back, hsome, hentries, hindex⟩
    · by_cases hfit : (h.mgr.ptable.pages.length + h.mgr.npage numBytes) % 2 ^ 32 ≤
        h.mgr.ptable.maxPages
      · have hsum : h.mgr.ptable.pages.length + h.mgr.npage numBytes < 2 ^ 32 := by
          rcases hmeets with hsum | ⟨-, hlt⟩
          · exact hsum
          · omega
        rw [Nat.mod_eq_of_lt hsum] at hfit
        exact step_extend hi hpos (hi.noWrap hn) hnone hfit
      · refine ⟨h, ?_, hi⟩
        simp only [step, MemoryManager.allocate, hnone, gt_iff_lt, Nat.lt_of_not_le hfit, if_true,
          Option.bind_eq_bind, Option.bind_some]
    · have hsum : h.mgr.ptable.pages.length + h.mgr.npage numBytes < 2 ^ 32 := by
        rcases hmeets with hsum | ⟨hnone, -⟩
        · exact hsum
        · rw [hsome] at hnone
          exact nomatch hnone
      rw [Nat.mod_eq_of_lt (by omega)] at hindex
      have hentry := hi.free entry (by rw [hentries]; simp)
      rw [hentry.1, Int.ofNat_le, le_npage_iff hi hpos (hi.noWrap hn)] at hindex
      refine ⟨_, ?_, hi.take hentries hindex⟩
      simp only [step, MemoryManager.allocate, hsome, Option.bind_eq_bind, Option.bind_some]

/-- A request whose page count is cut and slips through: the table overflows, or the block is too
small. -/
theorem step_not_meets (hi : Inv poolSize h) (hmax : h.mgr.ptable.maxPages < 2 ^ 31) {op : Op}
    (hallowed : h.Allowed poolSize op) (hmeets : ¬ h.Meets op) :
    ∀ h', h.step op = some h' → ¬ Sound poolSize h' := by
  intro h' hstep hsound
  cases op with
  | free ptr => exact hmeets trivial
  | allocate numBytes =>
    obtain ⟨hpos, hn⟩ := hallowed
    have hcap := hi.capacity
    simp only [Meets, not_or, not_and, Nat.not_lt] at hmeets
    obtain ⟨hsum, hnot⟩ := hmeets
    rcases lowerBound_cases h.mgr.freeMap (h.mgr.npage numBytes) with
      ⟨hnone, -⟩ | ⟨front, entry, back, hsome, hentries, hindex⟩
    · have hfit := hnot hnone
      simp only [step, MemoryManager.allocate, hnone, gt_iff_lt, Nat.not_lt_of_le hfit, if_false,
        PageTable.resize] at hstep
      rw [if_neg (by omega)] at hstep
      exact nomatch hstep
    · simp only [step, MemoryManager.allocate, hsome, Option.bind_eq_bind, Option.bind_some,
        Option.some.injEq] at hstep
      obtain ⟨-, e, he, hpage⟩ := hi.free entry (by rw [hentries]; simp)
      have hblock := hi.tiles.bounds.2.2 e.page (List.mem_map_of_mem he)
      obtain ⟨e', hfind, -, -, -, hsize⟩ := hsound.block ⟨entry.page.data, numBytes⟩ (by
        rw [← hstep]
        exact List.mem_cons_self)
      rw [← hstep] at hfind hsize
      have haddr : entry.page.data = e.addr := by rw [(hi.addr e he).1, hpage]
      have hee : e' = e := by
        have hfind' : h.mgr.pmap.find entry.page.data = some e' := hfind
        rw [haddr, hi.find he] at hfind'
        exact (Option.some.inj hfind').symm
      rw [hee] at hsize
      have hle := (le_npage_iff hi hpos (hi.noWrap hn)).mpr hsize
      omega

/-- Every allowed call succeeds or refuses, and the heap is sound before, between and after them. -/
def SoundAlong (poolSize : Nat) (h : Heap) : List Op → Prop
  | [] => Sound poolSize h
  | op :: ops => Sound poolSize h ∧
    (h.Allowed poolSize op → ∃ h', h.step op = some h' ∧ h'.SoundAlong poolSize ops)

def RunMeets (poolSize : Nat) (h : Heap) : List Op → Prop
  | [] => True
  | op :: ops => h.Allowed poolSize op →
    h.Meets op ∧ ∀ h', h.step op = some h' → h'.RunMeets poolSize ops

theorem soundAlong_sound {ops : List Op} (h' : h.SoundAlong poolSize ops) : Sound poolSize h := by
  cases ops with
  | nil => exact h'
  | cons op ops => exact h'.1

theorem allocate_maxPages {mgr mgr' : MemoryManager} {numBytes : Nat} {ptr : Option Nat}
    (h : mgr.allocate numBytes = some (mgr', ptr)) : mgr'.ptable.maxPages = mgr.ptable.maxPages := by
  unfold MemoryManager.allocate at h
  split at h
  · rw [← (Prod.mk.inj (Option.some.inj h)).1]
  · simp only at h
    split_ifs at h
    · rw [← (Prod.mk.inj (Option.some.inj h)).1]
    · obtain ⟨ptable, hresize, h⟩ := Option.bind_eq_some_iff.mp h
      obtain ⟨pmap, -, h⟩ := Option.bind_eq_some_iff.mp h
      rw [← (Prod.mk.inj (Option.some.inj h)).1]
      unfold PageTable.resize at hresize
      split_ifs at hresize
      rw [← Option.some.inj hresize]

theorem step_maxPages {op : Op} (hstep : h.step op = some h') :
    h'.mgr.ptable.maxPages = h.mgr.ptable.maxPages := by
  cases op with
  | allocate numBytes =>
    obtain ⟨result, hallocate, hstep⟩ := Option.bind_eq_some_iff.mp hstep
    obtain ⟨mgr, ptr⟩ := result
    have hkeep := allocate_maxPages hallocate
    cases ptr <;> (rw [← Option.some.inj hstep]; exact hkeep)
  | free ptr =>
    obtain ⟨mgr, hfree, hstep⟩ := Option.bind_eq_some_iff.mp hstep
    rw [← Option.some.inj hstep]
    unfold MemoryManager.free at hfree
    split_ifs at hfree
    obtain ⟨entry, -, hfree⟩ := Option.bind_eq_some_iff.mp hfree
    obtain ⟨freeMap, -, hfree⟩ := Option.bind_eq_some_iff.mp hfree
    rw [← Option.some.inj hfree]

theorem soundAlong_iff (hi : Inv poolSize h) (hmax : h.mgr.ptable.maxPages < 2 ^ 31)
    (ops : List Op) : h.SoundAlong poolSize ops ↔ h.RunMeets poolSize ops := by
  induction ops generalizing h with
  | nil => exact ⟨fun _ => trivial, fun _ => hi.sound⟩
  | cons op ops ih =>
    constructor
    · intro halong hallowed
      obtain ⟨h', hstep, hrest⟩ := halong.2 hallowed
      have hmeets : h.Meets op := by
        by_contra hmeets
        exact step_not_meets hi hmax hallowed hmeets h' hstep (soundAlong_sound hrest)
      obtain ⟨h'', hstep', hi'⟩ := step_meets hi hallowed hmeets
      rw [hstep] at hstep'
      obtain rfl := Option.some.inj hstep'
      refine ⟨hmeets, fun h'' hstep'' => ?_⟩
      rw [hstep] at hstep''
      obtain rfl := Option.some.inj hstep''
      have hmax' := (step_maxPages hstep).trans_lt hmax
      exact (ih hi' hmax').mp hrest
    · intro hrun
      refine ⟨hi.sound, fun hallowed => ?_⟩
      obtain ⟨hmeets, hrest⟩ := hrun hallowed
      obtain ⟨h', hstep, hi'⟩ := step_meets hi hallowed hmeets
      have hmax' := (step_maxPages hstep).trans_lt hmax
      exact ⟨h', hstep, (ih hi' hmax').mpr (hrest h' hstep)⟩

theorem create_inv {memoryPool memoryPoolSizeBytes pageSizeBytesLog2 : Nat} {mgr : MemoryManager}
    (hcreate : MemoryManager.create memoryPool memoryPoolSizeBytes pageSizeBytesLog2 = some mgr)
    (hsize : sizeofMemoryManager ≤ memoryPoolSizeBytes) (hrange : memoryPoolSizeBytes < 2 ^ 64)
    (hpages : mgr.ptable.maxPages < 2 ^ 32) : Inv memoryPoolSizeBytes ⟨mgr, []⟩ := by
  unfold MemoryManager.create at hcreate
  split_ifs at hcreate with hlog
  simp only [Option.some.injEq] at hcreate
  have hdiff : Framework.sizeT (memoryPoolSizeBytes - sizeofMemoryManager : Int) =
      memoryPoolSizeBytes - sizeofMemoryManager := by
    unfold Framework.sizeT
    omega
  have hmeta : sizeofPage + sizeofPageEntry + sizeofIndexedEntry = 88 := rfl
  have hmanager : sizeofMemoryManager = 168 := rfl
  have hps : 2 ^ pageSizeBytesLog2 ≤ 2 ^ 30 := Nat.pow_le_pow_right (by omega) (by omega)
  have hpos : 1 ≤ 2 ^ pageSizeBytesLog2 := Nat.one_le_two_pow
  rw [hdiff, hmeta] at hcreate
  generalize 2 ^ pageSizeBytesLog2 = ps at hcreate hps hpos
  have hmul := Nat.div_mul_le_self (memoryPoolSizeBytes - sizeofMemoryManager) (ps + 88)
  have hlt := Nat.lt_div_mul_add (a := memoryPoolSizeBytes - sizeofMemoryManager)
    (b := ps + 88) (by omega)
  generalize (memoryPoolSizeBytes - sizeofMemoryManager) / (ps + 88) = n at hcreate hmul hlt
  subst hcreate
  have hn : n < 2 ^ 32 := hpages
  rw [Nat.mul_add] at hmul hlt
  refine ⟨⟨⟨?_, ?_, ?_, ?_, ?_⟩, hpos, hn, rfl, rfl, ?_⟩, rfl, Nat.zero_le _, by simp, by simp, by simp,
    by simp⟩
  · exact Nat.le_refl _
  · exact Nat.le_refl _
  · exact Nat.le_refl _
  · exact Nat.le_refl _
  · show memoryPool + n * ps + sizeofMemoryManager + sizeofPage * n + sizeofPageEntry * n +
      sizeofIndexedEntry * n ≤ memoryPool + memoryPoolSizeBytes
    simp only [sizeofPage, sizeofPageEntry, sizeofIndexedEntry]
    omega
  · show memoryPoolSizeBytes + ps < 2 ^ 64
    have hprod : n * ps ≤ 2 ^ 32 * 2 ^ 30 := Nat.mul_le_mul hn.le hps
    omega

/-- From the empty manager every sequence of allowed calls keeps the heap sound exactly when no
request slips through a page count that is cut to 32 bits. -/
theorem page_allocator_sound_iff {memoryPool memoryPoolSizeBytes pageSizeBytesLog2 : Nat}
    {mgr : MemoryManager}
    (hcreate : MemoryManager.create memoryPool memoryPoolSizeBytes pageSizeBytesLog2 = some mgr)
    (hsize : sizeofMemoryManager ≤ memoryPoolSizeBytes) (hrange : memoryPoolSizeBytes < 2 ^ 64)
    (hpages : mgr.ptable.maxPages < 2 ^ 31) (ops : List Op) :
    SoundAlong memoryPoolSizeBytes ⟨mgr, []⟩ ops ↔ RunMeets memoryPoolSizeBytes ⟨mgr, []⟩ ops :=
  soundAlong_iff (create_inv hcreate hsize hrange (hpages.trans (by decide))) hpages ops

/-- The manager of a pool of 32768 bytes at address 4096 with pages of 256 bytes. -/
def smallManager : MemoryManager :=
  ⟨28160, 0, ⟨4096, 256, 28328, 94, []⟩, ⟨30584, 94, []⟩, ⟨33592, 94, []⟩⟩

theorem page_allocator_sound_small :
    SoundAlong 32768 ⟨smallManager, []⟩ [.allocate 1, .allocate 600, .free 4096, .allocate 10] ↔
      RunMeets 32768 ⟨smallManager, []⟩ [.allocate 1, .allocate 600, .free 4096, .allocate 10] := by
  have hcreate : MemoryManager.create 4096 32768 8 = some smallManager := by decide
  exact page_allocator_sound_iff hcreate (by decide) (by decide) (by decide) _

/-- The manager of a pool of 2^33 bytes at address 4096 with pages of one byte. -/
def largeManager : MemoryManager :=
  ⟨96520213, 0, ⟨4096, 1, 96520381, 96516117, []⟩, ⟨2412907189, 96516117, []⟩, ⟨5501422933, 96516117, []⟩⟩

/-- A request of 2^32 bytes passes the check as a request of no pages. -/
theorem large_request_overflows :
    MemoryManager.create 4096 (2 ^ 33) 0 = some largeManager ∧
      largeManager.ptable.maxPages < 2 ^ 31 ∧
      Allowed (2 ^ 33) ⟨largeManager, []⟩ (.allocate (2 ^ 32)) ∧
      Heap.step ⟨largeManager, []⟩ (.allocate (2 ^ 32)) = none ∧
      ¬ SoundAlong (2 ^ 33) ⟨largeManager, []⟩ [.allocate (2 ^ 32)] := by
  have hallowed : Allowed (2 ^ 33) ⟨largeManager, []⟩ (.allocate (2 ^ 32)) := by
    constructor <;> norm_num
  have hnone : Heap.step ⟨largeManager, []⟩ (.allocate (2 ^ 32)) = none := by decide
  refine ⟨by decide, by decide, hallowed, hnone, fun halong => ?_⟩
  obtain ⟨h', hstep, -⟩ := halong.2 hallowed
  rw [hnone] at hstep
  exact nomatch hstep

end Heap

end StencilGraph.Crt

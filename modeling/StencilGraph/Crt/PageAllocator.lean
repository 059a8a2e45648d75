import StencilGraph.Framework.MachineInt
import Mathlib.Algebra.Order.Ring.Int
import Mathlib.Data.List.Basic
import Mathlib.Data.List.Perm.Basic

namespace StencilGraph.Crt
open Framework

/-- The index types are 64 bits wide; `data` is an address. -/
structure Page where
  ptableBegin : Nat
  numPages : Nat
  data : Nat
  deriving DecidableEq

/-- `page` is the address of the table, `pages` the entries in use, so `num_pages` is its length. -/
structure PageTable where
  memoryPool : Nat
  pageSizeBytes : Nat
  page : Nat
  maxPages : Nat
  pages : List Page
  deriving DecidableEq

structure PageEntry where
  addr : Nat
  page : Page
  deriving DecidableEq

structure TLB where
  address : Nat
  maxPages : Nat
  entries : List PageEntry
  deriving DecidableEq

/-- `index` is a `tvm_index_t` and so has a sign. -/
structure IndexedEntry where
  index : Int
  page : Page
  deriving DecidableEq

structure MultiMap where
  address : Nat
  maxEntries : Nat
  entries : List IndexedEntry
  deriving DecidableEq

/-- An operation is `none` when a `CHECK` fails or a table is accessed beyond its capacity. -/
structure MemoryManager where
  address : Nat
  vleakSize : Int
  ptable : PageTable
  pmap : TLB
  freeMap : MultiMap
  deriving DecidableEq

/-- Sizes of the structures where pointers and `size_t` have eight bytes. -/
def sizeofPage : Nat := 24
def sizeofPageEntry : Nat := 32
def sizeofIndexedEntry : Nat := 32
def sizeofMemoryManager : Nat := 168

def pageCreate (memoryPool pageSizeBytes ptableBegin numPages : Nat) : Page :=
  ⟨ptableBegin, numPages, memoryPool + ptableBegin * pageSizeBytes⟩

/-- The loop writes every entry from `num_pages` to `newSize`. -/
def PageTable.resize (ptable : PageTable) (newSize : Nat) (page : Page) : Option PageTable :=
  if ptable.pages.length ≤ newSize ∧ newSize ≤ ptable.maxPages then
    some { ptable with
      pages := ptable.pages ++ List.replicate (newSize - ptable.pages.length) page }
  else none

def TLB.find (tlb : TLB) (data : Nat) : Option PageEntry :=
  tlb.entries.find? fun entry => entry.addr = data

/-- The first entry of the address is overwritten, or a new one is added. -/
def TLB.set (tlb : TLB) (data : Nat) (page : Page) : Option TLB :=
  match tlb.entries.span fun entry => entry.addr ≠ data with
  | (entries, []) =>
    if entries.length < tlb.maxPages then
      some { tlb with entries := entries ++ [⟨data, page⟩] }
    else none
  | (front, _ :: back) => some { tlb with entries := front ++ ⟨data, page⟩ :: back }

/-- The first entry of at least `npage` pages, with the entries before and behind it. The parameter
`npage` is a `uint32_t`. -/
def MultiMap.lowerBound (map : MultiMap) (npage : Nat) :
    Option (List IndexedEntry × IndexedEntry × List IndexedEntry) :=
  match map.entries.span fun entry => entry.index < ((npage % 2 ^ 32 : Nat) : Int) with
  | (_, []) => none
  | (front, entry :: back) => some (front, entry, back)

/-- `npage` is a `uint32_t`; the loop writes the entry `npage` times, so an entry of no pages is never
written. -/
def MultiMap.insert (map : MultiMap) (npage : Nat) (p : Page) : Option MultiMap :=
  if map.entries.length + 1 ≤ map.maxEntries ∧ npage % 2 ^ 32 ≠ 0 then
    some { map with entries := map.entries ++ [⟨((npage % 2 ^ 32 : Nat) : Int), p⟩] }
  else none

namespace MemoryManager

/-- The number of pages for `numBytes`, computed in `size_t`. -/
def npage (mgr : MemoryManager) (numBytes : Nat) : Nat :=
  (numBytes + mgr.ptable.pageSizeBytes - 1) % 2 ^ 64 / mgr.ptable.pageSizeBytes

/-- `PageMemoryManager_Allocate`: the address, or no address for `kTvmErrorPlatformNoMemory`. -/
def allocate (mgr : MemoryManager) (numBytes : Nat) : Option (MemoryManager × Option Nat) :=
  match mgr.freeMap.lowerBound (mgr.npage numBytes) with
  | some (front, entry, back) =>
    some ({ mgr with
      vleakSize := mgr.vleakSize + 1
      freeMap := { mgr.freeMap with entries := front ++ back } }, some entry.page.data)
  | none =>
    let start := mgr.ptable.pages.length
    -- the sum is cut to `unsigned`
    if (start + mgr.npage numBytes) % 2 ^ 32 > mgr.ptable.maxPages then some (mgr, none)
    else do
      let p := pageCreate mgr.ptable.memoryPool mgr.ptable.pageSizeBytes start (mgr.npage numBytes)
      let ptable ← mgr.ptable.resize (start + mgr.npage numBytes) p
      let pmap ← mgr.pmap.set p.data p
      some ({ mgr with vleakSize := mgr.vleakSize + 1, ptable := ptable, pmap := pmap }, some p.data)

/-- `PageMemoryManager_Free`. -/
def free (mgr : MemoryManager) (ptr : Nat) : Option MemoryManager :=
  if mgr.pmap.entries.length = 0 then none
  else do
    let entry ← mgr.pmap.find ptr
    let freeMap ← mgr.freeMap.insert entry.page.numPages entry.page
    some { mgr with vleakSize := mgr.vleakSize - 1, freeMap := freeMap }

/-- `PageMemoryManagerCreate` with empty tables. The shift `1 << page_size_bytes_log2` is one of
`int`. -/
def create (memoryPool memoryPoolSizeBytes pageSizeBytesLog2 : Nat) : Option MemoryManager :=
  if 31 ≤ pageSizeBytesLog2 then none
  else
    let pageSizeBytes := 2 ^ pageSizeBytesLog2
    let metadataBytesPerPage := sizeofPage + sizeofPageEntry + sizeofIndexedEntry
    let bytesNeededPerPage := pageSizeBytes + metadataBytesPerPage
    let numPages := sizeT (memoryPoolSizeBytes - sizeofMemoryManager : Int) / bytesNeededPerPage
    let manager := memoryPool + numPages * 2 ^ pageSizeBytesLog2
    let page := manager + sizeofMemoryManager
    let pmapEntries := page + sizeofPage * numPages
    let freeEntries := pmapEntries + sizeofPageEntry * numPages
    some ⟨manager, 0, ⟨memoryPool, pageSizeBytes, page, numPages, []⟩, ⟨pmapEntries, numPages, []⟩,
      ⟨freeEntries, numPages, []⟩⟩

end MemoryManager

end StencilGraph.Crt

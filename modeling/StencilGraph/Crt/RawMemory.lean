import Mathlib.Data.List.GetD
import StencilGraph.Framework.LittleEndian

namespace StencilGraph.Crt
open Framework

/-- The bytes of the memory, by address. -/
abbrev RawMemory := Nat → UInt8

namespace RawMemory

/-- `memset` with zero. -/
def clear (mem : RawMemory) (address size : Nat) : RawMemory :=
  fun a => if address ≤ a ∧ a < address + size then 0 else mem a

def read (mem : RawMemory) (address width : Nat) : Nat :=
  ofLittleEndian ((List.range width).map fun i => mem (address + i))

def write (mem : RawMemory) (address : Nat) (bytes : List UInt8) : RawMemory :=
  fun a => if address ≤ a ∧ a < address + bytes.length then bytes.getD (a - address) 0 else mem a

variable {mem : RawMemory} {address width : Nat} {bytes : List UInt8}

theorem read_clear {start size : Nat} (h : start + size ≤ address) :
    (mem.clear start size).read address width = mem.read address width := by
  unfold read
  congr 1
  apply List.map_congr_left
  intro i _
  unfold clear
  rw [if_neg]
  omega

/-- Bytes written elsewhere leave what is read. -/
theorem read_write_apart {start : Nat}
    (h : address + width ≤ start ∨ start + bytes.length ≤ address) :
    (mem.write start bytes).read address width = mem.read address width := by
  unfold read
  congr 1
  apply List.map_congr_left
  intro i hi
  rw [List.mem_range] at hi
  unfold write
  rw [if_neg]
  omega

theorem read_write_same : (mem.write address bytes).read address bytes.length = ofLittleEndian bytes := by
  unfold read
  congr 1
  apply List.ext_getElem
  · rw [List.length_map, List.length_range]
  · intro i hi hi'
    rw [List.getElem_map, List.getElem_range]
    unfold write
    rw [if_pos (by omega), Nat.add_sub_cancel_left, List.getD_eq_getElem _ _ hi']

end RawMemory

end StencilGraph.Crt

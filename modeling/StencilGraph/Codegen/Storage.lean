import StencilGraph.Framework.MachineInt
import StencilGraph.Framework.MixedRadix

namespace StencilGraph.Codegen
open Framework

/-- `Storage` of a rank from one to three: `allocatedPtr` points to `cells` elements, `alignedPtr` to
the one at `aligned`. The products and sums of `int32_t` wrap. -/
structure Storage where
  cells : Int
  aligned : Int
  offset : Int
  sizes : List Int
  strides : List Int

/-- `sizeof(ElementType)` -/
def sizeofElementType : Nat := 8

namespace Storage

def stride (st : Storage) (d : Nat) : Int := st.strides.getD d 0

/-- The loop over the ranks computes in `size_t`. -/
def getMemSize (haloWidth : Int) (st : Storage) : Nat :=
  let memSize : Nat := st.sizes.foldl (fun memSize size => sizeT (size * memSize)) 1
  sizeT (sizeT (memSize + 32 - haloWidth) * sizeofElementType)

/-- `operator()` of `Storage1D`, as an element of the allocation. -/
def at1D (st : Storage) (i : Int) : Int := st.aligned + int32 (st.offset + int32 (st.stride 0 * i))

/-- `operator()` of `Storage2D`. -/
def at2D (st : Storage) (i j : Int) : Int :=
  st.aligned + int32 (int32 (st.offset + int32 (st.stride 1 * i)) + int32 (st.stride 0 * j))

/-- `operator()` of `Storage3D`. -/
def at3D (st : Storage) (i j k : Int) : Int :=
  st.aligned + int32 (int32 (int32 (st.offset + int32 (st.stride 2 * i)) + int32 (st.stride 1 * j)) +
    int32 (st.stride 0 * k))

def element (st : Storage) : List Int → Int
  | [i] => st.at1D i
  | [i, j] => st.at2D i j
  | [i, j, k] => st.at3D i j k
  | _ => 0

end Storage

def allocateStorage1D (haloWidth size : Int) : Storage :=
  let strides0 := 1
  let allocSize := size
  { cells := int32 (int32 (allocSize + 32) - haloWidth)
    aligned := int32 (32 - haloWidth)
    offset := int32 (haloWidth * strides0)
    sizes := [size]
    strides := [strides0] }

def allocateStorage2D (haloWidth size0 size1 : Int) : Storage :=
  let strides1 := 1
  let strides0 := size0
  let allocSize := int32 (size0 * size1)
  { cells := int32 (int32 (allocSize + 32) - haloWidth)
    aligned := int32 (32 - haloWidth)
    offset := int32 (int32 (haloWidth * strides0) + int32 (haloWidth * strides1))
    sizes := [size1, size0]
    strides := [strides0, strides1] }

def allocateStorage3D (haloWidth size0 size1 size2 : Int) : Storage :=
  let strides2 := 1
  let strides1 := size0
  let strides0 := int32 (size0 * size1)
  let allocSize := int32 (int32 (size0 * size1) * size2)
  { cells := int32 (int32 (allocSize + 32) - haloWidth)
    aligned := int32 (32 - haloWidth)
    offset := int32 (int32 (int32 (haloWidth * strides0) + int32 (haloWidth * strides1)) +
      int32 (haloWidth * strides2))
    sizes := [size2, size1, size0]
    strides := [strides0, strides1, strides2] }

/-- The overloads of `allocateStorage`. -/
def allocateStorage (haloWidth : Int) : List Int → Option Storage
  | [size] => some (allocateStorage1D haloWidth size)
  | [size0, size1] => some (allocateStorage2D haloWidth size0 size1)
  | [size0, size1, size2] => some (allocateStorage3D haloWidth size0 size1 size2)
  | _ => none

/-- The sizes with the halo, as the generated program passes them. -/
def haloSizes (haloWidth : Int) (domain : List Int) : List Int :=
  domain.map fun size => int32 (size + int32 (2 * haloWidth))

/-- The number of points of a domain with its halo. -/
def haloVolume (haloWidth : Int) (domain : List Int) : Int :=
  (domain.map fun size => size + 2 * haloWidth).prod

/-- The points of a domain and of its halo. -/
def InHalo (haloWidth : Int) (domain point : List Int) : Prop :=
  List.Forall₂ (fun size i => -haloWidth ≤ i ∧ i < size + haloWidth) domain point

/-- The points are the last elements of the allocation, one for each, and the allocation has the
bytes that are copied. -/
structure Storage.Indexes (haloWidth : Int) (domain : List Int) (st : Storage) : Prop where
  bytes : (st.getMemSize haloWidth : Int) = st.cells * sizeofElementType
  room : haloVolume haloWidth domain ≤ st.cells
  injective : ∀ point point', InHalo haloWidth domain point → InHalo haloWidth domain point' →
    st.element point = st.element point' → point = point'
  image : ∀ c, (∃ point, InHalo haloWidth domain point ∧ st.element point = c) ↔
    st.cells - haloVolume haloWidth domain ≤ c ∧ c < st.cells

/-- The storage of a domain is indexed as it should be. -/
def StorageIndexed (haloWidth : Int) (domain : List Int) : Prop :=
  ∃ st, allocateStorage haloWidth (haloSizes haloWidth domain) = some st ∧
    st.Indexes haloWidth domain

end StencilGraph.Codegen

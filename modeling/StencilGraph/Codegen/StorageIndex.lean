import Mathlib
import StencilGraph.Codegen.Storage

namespace StencilGraph.Codegen
open Framework

variable {haloWidth : Int} {sizes domain point point' : List Int}

theorem allocateStorage_spec (haloWidth : Int) (hrank : sizes.length ∈ [1, 2, 3]) :
    ∃ st, allocateStorage haloWidth sizes = some st ∧ st.cells = int32 (sizes.prod + 32 - haloWidth) ∧
      st.sizes = sizes.reverse ∧ ∀ point, point.length = sizes.length → st.element point =
        int32 (32 - haloWidth) + int32 (position sizes (point.map (· + haloWidth))) := by
  match sizes with
  | [size] =>
    refine ⟨_, rfl, ?_, rfl, fun point hpoint => ?_⟩
    · simp [allocateStorage1D, int32_int32_sub]
    · obtain ⟨i, rfl⟩ := List.length_eq_one_iff.mp hpoint
      simp only [Storage.element, Storage.at1D, Storage.stride, allocateStorage1D, List.getD_cons_zero,
        int32_int32_add, int32_add_int32, position, List.map_cons, List.map_nil]
      ring_nf
  | [size0, size1] =>
    refine ⟨_, rfl, ?_, rfl, fun point hpoint => ?_⟩
    · simp [allocateStorage2D, int32_int32_add, sub_eq_add_neg]
    · obtain ⟨i, j, rfl⟩ := List.length_eq_two.mp hpoint
      simp only [Storage.element, Storage.at2D, Storage.stride, allocateStorage2D, List.getD_cons_zero,
        List.getD_cons_succ, int32_int32_add, int32_add_int32, position, List.map_cons, List.map_nil]
      ring_nf
  | [size0, size1, size2] =>
    refine ⟨_, rfl, ?_, rfl, fun point hpoint => ?_⟩
    · simp only [allocateStorage3D, int32_int32_mul, int32_int32_add, List.prod_cons, List.prod_nil,
        sub_eq_add_neg]
      ring_nf
    · obtain ⟨i, j, k, rfl⟩ := List.length_eq_three.mp hpoint
      simp only [Storage.element, Storage.at3D, Storage.stride, allocateStorage3D, List.getD_cons_zero,
        List.getD_cons_succ, int32_int32_mul, int32_mul_int32, int32_int32_add, int32_add_int32,
        position, List.map_cons, List.map_nil]
      ring_nf

/-- The size in bytes is computed modulo `2 ^ 64`. -/
theorem foldl_memSize (sizes : List Int) (acc : Nat) (hacc : acc < 2 ^ 64) :
    ((sizes.foldl (fun memSize size => sizeT (size * memSize)) acc : Nat) : Int) =
      acc * sizes.prod % 2 ^ 64 := by
  induction sizes generalizing acc with
  | nil =>
    rw [List.foldl_nil, List.prod_nil]
    omega
  | cons size sizes ih =>
    have hsize : ((sizeT (size * acc) : Nat) : Int) = size * acc % 2 ^ 64 := by
      have hmod := Int.emod_nonneg (size * acc) (by decide : (2 ^ 64 : Int) ≠ 0)
      unfold sizeT
      omega
    have hlt : sizeT (size * acc) < 2 ^ 64 := by
      have hmod := Int.emod_lt_of_pos (size * acc) (by decide : (0 : Int) < 2 ^ 64)
      omega
    rw [List.foldl_cons, ih _ hlt, hsize, List.prod_cons, Int.mul_emod, Int.emod_emod_of_dvd _ (Int.dvd_refl _),
      ← Int.mul_emod]
    congr 1
    ring

theorem getMemSize_eq {st : Storage} (h0 : 0 ≤ haloWidth) (h32 : haloWidth ≤ 32)
    (hsizes : st.sizes = sizes.reverse) (hprod : 0 ≤ sizes.prod) (hlt : sizes.prod < 2 ^ 32) :
    (st.getMemSize haloWidth : Int) = (sizes.prod + 32 - haloWidth) * sizeofElementType := by
  have hfold := foldl_memSize st.sizes 1 (by decide)
  rw [hsizes, (List.reverse_perm sizes).prod_eq, Nat.cast_one, one_mul,
    Int.emod_eq_of_lt hprod (by omega)] at hfold
  unfold Storage.getMemSize
  rw [hsizes]
  show ((sizeT (sizeT (((sizes.reverse.foldl (fun memSize size => sizeT (size * memSize)) 1 : Nat) : Int)
    + 32 - haloWidth) * sizeofElementType) : Nat) : Int) = _
  rw [hfold]
  unfold sizeT sizeofElementType
  omega

/-- The points of the halo are those of a box that starts at zero. -/
theorem inHalo_iff : InHalo haloWidth domain point ↔
    InBox (domain.map fun size => size + 2 * haloWidth) (point.map (· + haloWidth)) := by
  unfold InHalo InBox
  rw [List.forall₂_map_left_iff, List.forall₂_map_right_iff]
  constructor
  · intro h
    exact h.imp fun size i hi => ⟨by omega, by omega⟩
  · intro h
    exact h.imp fun size i hi => ⟨by omega, by omega⟩

/-- Where the volume fits into `int32_t`, no size wraps. -/
theorem haloSizes_eq (h0 : 0 ≤ haloWidth) (hdomain : ∀ size ∈ domain, 0 ≤ size ∧ size < 2 ^ 31)
    (hvolume : haloVolume haloWidth domain < 2 ^ 31) :
    haloSizes haloWidth domain = domain.map fun size => size + 2 * haloWidth := by
  apply List.map_congr_left
  intro size hsize
  obtain ⟨hnonneg, hlt⟩ := hdomain size hsize
  rw [int32_add_int32]
  apply int32_of_small _ (by omega)
  cases h0.lt_or_eq with
  | inr hzero =>
    rw [← hzero]
    omega
  | inl hpos =>
    apply Int.lt_of_le_of_lt _ hvolume
    apply Int.le_of_dvd
    · apply List.prod_pos
      intro side hside
      obtain ⟨size', hsize', rfl⟩ := List.mem_map.mp hside
      have hnonneg' := (hdomain size' hsize').1
      omega
    · exact List.dvd_prod (List.mem_map_of_mem hsize)

/-- The wrapped sizes have the volume up to a multiple of `2 ^ 32`. -/
theorem int32_haloSizes_prod (haloWidth : Int) (domain : List Int) :
    int32 (haloSizes haloWidth domain).prod = int32 (haloVolume haloWidth domain) := by
  unfold haloSizes haloVolume
  induction domain with
  | nil => rfl
  | cons size domain ih =>
    rw [List.map_cons, List.map_cons, List.prod_cons, List.prod_cons, int32_add_int32,
      int32_int32_mul, ← int32_mul_int32, ih, int32_mul_int32]

theorem indexes_of_fits (h0 : 0 ≤ haloWidth) (h32 : haloWidth ≤ 32) (hrank : domain.length ∈ [1, 2, 3])
    (hdomain : ∀ size ∈ domain, 0 ≤ size ∧ size < 2 ^ 31)
    (hfits : haloVolume haloWidth domain + 32 - haloWidth < 2 ^ 31) :
    StorageIndexed haloWidth domain := by
  have hsizes := haloSizes_eq h0 hdomain (by omega)
  have hsides : ∀ side ∈ domain.map fun size => size + 2 * haloWidth, 0 ≤ side := by
    intro side hside
    obtain ⟨size, hsize, rfl⟩ := List.mem_map.mp hside
    have hnonneg := (hdomain size hsize).1
    omega
  have hvolume : 0 ≤ haloVolume haloWidth domain := List.prod_nonneg hsides
  obtain ⟨st, hst, hcells, hstSizes, helement⟩ :=
    @allocateStorage_spec (haloSizes haloWidth domain) haloWidth
      (by rw [haloSizes, List.length_map]; exact hrank)
  rw [hsizes] at hcells hstSizes helement
  have hcellsEq : st.cells = haloVolume haloWidth domain + 32 - haloWidth := by
    rw [hcells]
    exact int32_of_small _ (by unfold haloVolume at hvolume; omega) hfits
  have hat (point : List Int) (hpoint : InHalo haloWidth domain point) : st.element point =
      32 - haloWidth + position (domain.map fun size => size + 2 * haloWidth)
        (point.map (· + haloWidth)) := by
    have hrange := (inHalo_iff.mp hpoint).position_range
    have hlength := hpoint.length_eq
    rw [helement point (by rw [List.length_map]; exact hlength.symm),
      int32_of_small _ (by omega) (by omega), int32_of_small _ hrange.1 ?_]
    unfold haloVolume at hfits
    omega
  refine ⟨st, hst, ?_, ?_, ?_, ?_⟩
  · rw [getMemSize_eq h0 h32 hstSizes hvolume (by unfold haloVolume at hfits; omega), hcellsEq]
    rfl
  · omega
  · intro point point' hpoint hpoint' heq
    rw [hat point hpoint, hat point' hpoint'] at heq
    have hsame := position_injective (inHalo_iff.mp hpoint) (inHalo_iff.mp hpoint') (by omega)
    exact List.map_injective_iff.mpr (add_left_injective haloWidth) hsame
  · intro c
    rw [hcellsEq]
    constructor
    · intro hc
      obtain ⟨point, hpoint, rfl⟩ := hc
      have hrange := (inHalo_iff.mp hpoint).position_range
      rw [hat point hpoint]
      unfold haloVolume
      omega
    · intro hc
      obtain ⟨box, hbox, hpos⟩ := exists_position (p := c - (32 - haloWidth)) hsides (by omega)
        (by unfold haloVolume at hc; omega)
      have hback : (box.map (· - haloWidth)).map (· + haloWidth) = box := by
        simp [List.map_map, Function.comp_def]
      have hpoint : InHalo haloWidth domain (box.map (· - haloWidth)) := by
        rw [inHalo_iff, hback]
        exact hbox
      refine ⟨_, hpoint, ?_⟩
      rw [hat _ hpoint, hback, hpos]
      omega

theorem fits_of_indexed (h0 : 0 ≤ haloWidth) (hrank : domain.length ∈ [1, 2, 3])
    (hindexed : StorageIndexed haloWidth domain) :
    haloVolume haloWidth domain + 32 - haloWidth < 2 ^ 31 := by
  obtain ⟨st, hst, hright⟩ := hindexed
  obtain ⟨st', hst', hcells, -, -⟩ :=
    @allocateStorage_spec (haloSizes haloWidth domain) haloWidth
      (by rw [haloSizes, List.length_map]; exact hrank)
  have hsame : st = st' := Option.some.inj (hst.symm.trans hst')
  have hroom := hright.room
  rw [hsame, hcells, add_sub_assoc, ← int32_int32_add, int32_haloSizes_prod, int32_int32_add,
    ← add_sub_assoc] at hroom
  have hrange := (int32_range (haloVolume haloWidth domain + 32 - haloWidth)).2
  -- the number of elements wraps below zero
  by_contra hlarge
  have hwrapped := int32_of_wrapped (haloVolume haloWidth domain + 32 - haloWidth) (by omega)
    (by omega)
  omega

/-- A storage is indexed as it should be when its elements can be counted in `int32_t`. -/
theorem storage_indexed_iff (haloWidth : Int) (domain : List Int) (h0 : 0 ≤ haloWidth)
    (h32 : haloWidth ≤ 32) (hrank : domain.length ∈ [1, 2, 3])
    (hdomain : ∀ size ∈ domain, 0 ≤ size ∧ size < 2 ^ 31) :
    StorageIndexed haloWidth domain ↔ haloVolume haloWidth domain + 32 - haloWidth < 2 ^ 31 :=
  ⟨fits_of_indexed h0 hrank, indexes_of_fits h0 h32 hrank hdomain⟩

theorem storage_indexed_small :
    StorageIndexed 1 [2, 3, 4] ↔ haloVolume 1 [2, 3, 4] + 32 - 1 < 2 ^ 31 :=
  storage_indexed_iff 1 [2, 3, 4] (by decide) (by decide) (by decide) (by decide)

/-- With 1300 points in every direction the number of elements wraps. -/
theorem storage_too_large : ¬ StorageIndexed 8 [1300, 1300, 1300] := by
  intro hindexed
  have hfits := fits_of_indexed (by decide) (by decide) hindexed
  revert hfits
  decide

end StencilGraph.Codegen

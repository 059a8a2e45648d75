import StencilGraph.Crt.PageAllocatorInvariant

namespace StencilGraph.Crt

namespace Heap

variable {poolSize : Nat} {h h' : Heap}

/-- Requests of any `size_t`, and pointers that are live. -/
def Called (h : Heap) : Op → Prop
  | .allocate numBytes => numBytes < 2 ^ 64
  | .free ptr => ∃ a ∈ h.live, a.ptr = ptr

/-- The block at `ptr` lies inside the page area, has `numBytes` bytes at least, and no live block has
its address. -/
def Suits (h h' : Heap) (numBytes ptr : Nat) : Prop :=
  (∃ entry, h'.mgr.pmap.find ptr = some entry ∧ h'.mgr.ptable.memoryPool ≤ ptr ∧
    ptr + entry.page.numPages * h'.mgr.ptable.pageSizeBytes ≤
      h'.mgr.ptable.memoryPool + h'.mgr.ptable.maxPages * h'.mgr.ptable.pageSizeBytes ∧
    numBytes ≤ entry.page.numPages * h'.mgr.ptable.pageSizeBytes) ∧
  ∀ a ∈ h.live, a.ptr ≠ ptr

/-- The address an allocation returns suits it. -/
def Gives (h h' : Heap) : Op → Prop
  | .allocate numBytes => ∀ mgr ptr, h.mgr.allocate numBytes = some (mgr, some ptr) →
    h.Suits h' numBytes ptr
  | .free _ => True

/-- No block without pages is cut off the page table. -/
def Filled (h : Heap) : Op → Prop
  | .allocate numBytes => 1 ≤ numBytes ∨ h.mgr.freeMap.lowerBound (h.mgr.npage numBytes) ≠ none
  | .free _ => True

/-- The sum for the page count does not wrap and the page numbers fit `uint32_t`, or the request is
refused all the same. -/
def Whole (h : Heap) : Op → Prop
  | .allocate numBytes =>
    match h.mgr.freeMap.lowerBound (h.mgr.npage numBytes) with
    | some _ => h.NoWrap numBytes ∧ h.mgr.npage numBytes < 2 ^ 32
    | none => h.NoWrap numBytes ∧ h.mgr.ptable.pages.length + h.mgr.npage numBytes < 2 ^ 32 ∨
      h.mgr.ptable.maxPages < (h.mgr.ptable.pages.length + h.mgr.npage numBytes) % 2 ^ 32
  | .free _ => True

/-- A condition on every call of a run. -/
def Along (P : Heap → Op → Prop) (h : Heap) : List Op → Prop
  | [] => True
  | op :: ops => h.Called op → P h op ∧ ∀ h', h.step op = some h' → Along P h' ops

/-- Every call returns, and every address returned suits its request. -/
def SafeAlong (h : Heap) : List Op → Prop
  | [] => True
  | op :: ops => h.Called op → ∃ h', h.step op = some h' ∧ h.Gives h' op ∧ h'.SafeAlong ops

theorem Inv.suits (hi : Inv poolSize h') {numBytes ptr : Nat}
    (hlive : h'.live = ⟨ptr, numBytes⟩ :: h.live) : h.Suits h' numBytes ptr := by
  have hmem : (⟨ptr, numBytes⟩ : Alloc) ∈ h'.live := by
    rw [hlive]
    exact List.mem_cons_self
  obtain ⟨e, he, haddr⟩ := hi.entry_of_live hmem
  have hblock := hi.block he
  rw [haddr] at hblock
  have hfind := hi.find he
  rw [haddr] at hfind
  refine ⟨⟨e, hfind, hblock.1, hblock.2, hi.sized _ hmem e he haddr⟩, ?_⟩
  have hnodup : (h'.live.map (·.ptr)).Nodup :=
    (hi.perm.nodup_iff.mpr hi.nodup).sublist (List.sublist_append_left _ _)
  rw [hlive, List.map_cons, List.nodup_cons] at hnodup
  intro a ha heq
  exact hnodup.1 (List.mem_map.mpr ⟨a, ha, heq⟩)

theorem Inv.gives (hi : Inv poolSize h') {op : Op} (hstep : h.step op = some h') :
    h.Gives h' op := by
  cases op with
  | free ptr => trivial
  | allocate numBytes =>
    intro mgr ptr hallocate
    apply hi.suits
    rw [step, hallocate] at hstep
    have heq := Option.some.inj hstep
    rw [← heq]

/-- The pages in use and the request fit the page area, or the request is refused. -/
theorem step_fits (hi : Inv poolSize h) {op : Op} (hcalled : h.Called op) (hfilled : h.Filled op)
    (hwhole : h.Whole op) : ∃ h', h.step op = some h' ∧ Inv poolSize h' := by
  cases op with
  | free ptr =>
    obtain ⟨a, ha, heq⟩ := hcalled
    rw [← heq]
    exact step_free hi ha
  | allocate numBytes =>
    have hmax := hi.static.maxPages
    unfold Whole at hwhole
    cases lowerBound_cases h.mgr.freeMap (h.mgr.npage numBytes) with
    | inl hnone =>
      simp only [hnone.1] at hwhole
      have hpos : 1 ≤ numBytes := hfilled.resolve_right fun hne => hne hnone.1
      by_cases hfit : (h.mgr.ptable.pages.length + h.mgr.npage numBytes) % 2 ^ 32 ≤
        h.mgr.ptable.maxPages
      · have hsum := hwhole.resolve_right (Nat.not_lt_of_le hfit)
        rw [Nat.mod_eq_of_lt hsum.2] at hfit
        exact step_extend hi hpos hsum.1 hnone.1 hfit
      · refine ⟨h, ?_, hi⟩
        simp only [step, MemoryManager.allocate, hnone.1, gt_iff_lt, Nat.lt_of_not_le hfit, if_true,
          Option.bind_eq_bind, Option.bind_some]
    | inr hsome =>
      obtain ⟨front, entry, back, hsome, hentries, hindex⟩ := hsome
      simp only [hsome] at hwhole
      rw [Nat.mod_eq_of_lt hwhole.2] at hindex
      have hentry := hi.free entry (by rw [hentries]; simp)
      rw [hentry.1, Int.ofNat_le] at hindex
      have hsize : numBytes ≤ entry.page.numPages * h.mgr.ptable.pageSizeBytes := by
        by_cases hzero : numBytes = 0
        · rw [hzero]
          exact Nat.zero_le _
        · exact (le_npage_iff hi (by omega) hwhole.1).mp hindex
      refine ⟨_, ?_, hi.take hentries hsize⟩
      simp only [step, MemoryManager.allocate, hsome, Option.bind_eq_bind, Option.bind_some]

theorem npage_wrapped (hi : Inv poolSize h) {numBytes : Nat} (hn : numBytes < 2 ^ 64)
    (hwrap : ¬ h.NoWrap numBytes) : h.mgr.npage numBytes = 0 := by
  have hpool := hi.static.pool
  have hpageSize := hi.static.pageSize
  unfold NoWrap at hwrap
  unfold MemoryManager.npage
  apply Nat.div_eq_of_lt
  omega

theorem npage_zero (hi : Inv poolSize h) : h.mgr.npage 0 = 0 := by
  have hpool := hi.static.pool
  have hpageSize := hi.static.pageSize
  unfold MemoryManager.npage
  apply Nat.div_eq_of_lt
  omega

/-- A free block that is handed out and suits the request is asked for by its number of pages. -/
theorem whole_of_suits (hi : Inv poolSize h) {numBytes : Nat} {e : PageEntry}
    (hsize : numBytes ≤ e.page.numPages * h.mgr.ptable.pageSizeBytes)
    (hend : e.page.data + e.page.numPages * h.mgr.ptable.pageSizeBytes ≤ h.mgr.ptable.memoryPool +
      h.mgr.ptable.maxPages * h.mgr.ptable.pageSizeBytes)
    (hbegin : h.mgr.ptable.memoryPool ≤ e.page.data) :
    h.NoWrap numBytes ∧ h.mgr.npage numBytes < 2 ^ 32 := by
  have hmax := hi.static.maxPages
  have hlaid := hi.static.laidOut
  have h₁ := hlaid.manager
  have h₂ := hlaid.ptable
  have h₃ := hlaid.pmap
  have h₄ := hlaid.freeMap
  have h₅ := hlaid.pool
  have hnoWrap : h.NoWrap numBytes := hi.noWrap (by omega)
  refine ⟨hnoWrap, ?_⟩
  by_cases hzero : numBytes = 0
  · rw [hzero, npage_zero hi]
    exact Nat.two_pow_pos 32
  · have hle := (le_npage_iff hi (by omega) hnoWrap).mpr hsize
    have hpages : e.page.numPages ≤ h.mgr.ptable.maxPages := by
      apply Nat.le_of_mul_le_mul_right _ hi.static.pageSize
      omega
    omega

/-- A request whose page count is cut and slips through gets a block that is too small, or the call
writes past the page table. -/
theorem step_not_whole (hi : Inv poolSize h) {op : Op} (hcalled : h.Called op)
    (hfilled : h.Filled op) (hwhole : ¬ h.Whole op) (hstep : h.step op = some h') :
    ¬ h.Gives h' op := by
  intro hgives
  cases op with
  | free ptr => exact hwhole trivial
  | allocate numBytes =>
    have hmax := hi.static.maxPages
    obtain ⟨result, hallocate, hresult⟩ := Option.bind_eq_some_iff.mp hstep
    obtain ⟨mgr, ptr⟩ := result
    unfold Whole at hwhole
    cases lowerBound_cases h.mgr.freeMap (h.mgr.npage numBytes) with
    | inl hnone =>
      simp only [hnone.1, not_or, not_and, Nat.not_lt] at hwhole
      have hpos : 1 ≤ numBytes := hfilled.resolve_right fun hne => hne hnone.1
      have hrun := hallocate
      unfold MemoryManager.allocate at hrun
      simp only [hnone.1, gt_iff_lt, if_neg (Nat.not_lt_of_le hwhole.2)] at hrun
      obtain ⟨ptable, hresize, hrun⟩ := Option.bind_eq_some_iff.mp hrun
      obtain ⟨pmap, hset, hrun⟩ := Option.bind_eq_some_iff.mp hrun
      obtain ⟨hmgr, hptr⟩ := Prod.mk.inj (Option.some.inj hrun)
      unfold PageTable.resize at hresize
      split_ifs at hresize with hfit
      have hwrap : ¬ h.NoWrap numBytes := by
        intro hnoWrap
        have hsum := hwhole.1 hnoWrap
        omega
      have hempty := npage_wrapped hi hcalled hwrap
      rw [← hptr] at hallocate hresult
      have hh' : h'.mgr = mgr := by rw [← Option.some.inj hresult]
      obtain ⟨entry, hfind, -, -, hsize⟩ := (hgives _ _ hallocate).1
      rw [hh', ← hmgr] at hfind
      rw [TLB.set_find hset] at hfind
      rw [← Option.some.inj hfind] at hsize
      have hzero : numBytes ≤ h.mgr.npage numBytes * h'.mgr.ptable.pageSizeBytes := hsize
      rw [hempty, Nat.zero_mul] at hzero
      omega
    | inr hsome =>
      obtain ⟨front, entry, back, hsome, hentries, hindex⟩ := hsome
      simp only [hsome] at hwhole
      have hrun := hallocate
      unfold MemoryManager.allocate at hrun
      simp only [hsome] at hrun
      obtain ⟨hmgr, hptr⟩ := Prod.mk.inj (Option.some.inj hrun)
      rw [← hptr] at hallocate hresult
      have hh' : h'.mgr = mgr := by rw [← Option.some.inj hresult]
      obtain ⟨-, e, he, hpage⟩ := hi.free entry (by rw [hentries]; simp)
      obtain ⟨e', hfind, hbegin, hend, hsize⟩ := (hgives _ _ hallocate).1
      rw [hh', ← hmgr] at hfind hbegin hend hsize
      have haddr : entry.page.data = e.addr := by rw [(hi.addr e he).1, hpage]
      have hee : e = e' := by
        have hfind' : h.mgr.pmap.find entry.page.data = some e' := hfind
        rw [haddr, hi.find he] at hfind'
        exact Option.some.inj hfind'
      rw [← hee] at hend hsize
      rw [← hpage] at hbegin hend
      exact hwhole (whole_of_suits hi hsize hend hbegin)

theorem safeAlong_of_fits (hi : Inv poolSize h) (ops : List Op)
    (hfits : h.Along (fun h op => h.Filled op ∧ h.Whole op) ops) : h.SafeAlong ops := by
  induction ops generalizing h with
  | nil => trivial
  | cons op ops ih =>
    intro hcalled
    obtain ⟨⟨hfilled, hwhole⟩, hrest⟩ := hfits hcalled
    obtain ⟨h', hstep, hi'⟩ := step_fits hi hcalled hfilled hwhole
    exact ⟨h', hstep, hi'.gives hstep, ih hi' (hrest h' hstep)⟩

theorem whole_of_safeAlong (hi : Inv poolSize h) (ops : List Op) (hfilled : h.Along Filled ops)
    (hsafe : h.SafeAlong ops) : h.Along (fun h op => h.Filled op ∧ h.Whole op) ops := by
  induction ops generalizing h with
  | nil => trivial
  | cons op ops ih =>
    intro hcalled
    obtain ⟨hfilledOp, hfilledRest⟩ := hfilled hcalled
    obtain ⟨h', hstep, hgives, hsafeRest⟩ := hsafe hcalled
    have hwhole : h.Whole op := by
      by_contra hwhole
      exact step_not_whole hi hcalled hfilledOp hwhole hstep hgives
    obtain ⟨h'', hstep', hi'⟩ := step_fits hi hcalled hfilledOp hwhole
    rw [hstep] at hstep'
    have heq := Option.some.inj hstep'
    refine ⟨⟨hfilledOp, hwhole⟩, fun h₁ hstep₁ => ?_⟩
    rw [hstep] at hstep₁
    rw [← Option.some.inj hstep₁]
    exact ih (heq ▸ hi') (hfilledRest h' hstep) hsafeRest

/-- In a run whose requests all fit every address returned suits its request; as long as no block
without pages is cut off, the address suits only then. -/
theorem page_allocator_sizes {memoryPool memoryPoolSizeBytes pageSizeBytesLog2 : Nat}
    {mgr : MemoryManager}
    (hcreate : MemoryManager.create memoryPool memoryPoolSizeBytes pageSizeBytesLog2 = some mgr)
    (hsize : sizeofMemoryManager ≤ memoryPoolSizeBytes) (hrange : memoryPoolSizeBytes < 2 ^ 64)
    (hpages : mgr.ptable.maxPages < 2 ^ 32) (ops : List Op) :
    (Along (fun h op => h.Filled op ∧ h.Whole op) ⟨mgr, []⟩ ops → SafeAlong ⟨mgr, []⟩ ops) ∧
      (Along Filled ⟨mgr, []⟩ ops → SafeAlong ⟨mgr, []⟩ ops →
        Along (fun h op => h.Filled op ∧ h.Whole op) ⟨mgr, []⟩ ops) :=
  have hi := create_inv hcreate hsize hrange hpages
  ⟨safeAlong_of_fits hi ops, whole_of_safeAlong hi ops⟩

theorem page_allocator_sizes_small :
    (Along (fun h op => h.Filled op ∧ h.Whole op) ⟨smallManager, []⟩ [.allocate 600, .free 4096] →
      SafeAlong ⟨smallManager, []⟩ [.allocate 600, .free 4096]) ∧
      (Along Filled ⟨smallManager, []⟩ [.allocate 600, .free 4096] →
        SafeAlong ⟨smallManager, []⟩ [.allocate 600, .free 4096] →
        Along (fun h op => h.Filled op ∧ h.Whole op) ⟨smallManager, []⟩
          [.allocate 600, .free 4096]) := by
  have hcreate : MemoryManager.create 4096 32768 8 = some smallManager := by decide
  exact page_allocator_sizes hcreate (by decide) (by decide) (by decide) _

/-- A request of `SIZE_MAX` bytes succeeds with a block of no pages. -/
theorem wrapped_request_succeeds :
    MemoryManager.create 4096 32768 8 = some smallManager ∧
      ((smallManager.allocate (2 ^ 64 - 1)).map Prod.snd) = some (some 4096) ∧
      ¬ SafeAlong ⟨smallManager, []⟩ [.allocate (2 ^ 64 - 1)] := by
  refine ⟨by decide, by decide, ?_⟩
  intro hsafe
  obtain ⟨h', hstep, hgives, -⟩ := hsafe (show 2 ^ 64 - 1 < 2 ^ 64 by decide)
  have hcreate : MemoryManager.create 4096 32768 8 = some smallManager := by decide
  have hi := create_inv hcreate (by decide) (by decide) (by decide)
  refine step_not_whole hi ?_ ?_ ?_ hstep hgives
  · show 2 ^ 64 - 1 < 2 ^ 64
    decide
  · exact Or.inl (by decide)
  · show ¬ ((2 ^ 64 - 1 + 256 - 1 < 2 ^ 64 ∧ _) ∨ _)
    decide

end Heap

end StencilGraph.Crt

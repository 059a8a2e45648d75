import Mathlib
import StencilGraph.Framework.Ensures
import StencilGraph.Usmp.HillClimbPlan

namespace StencilGraph.Usmp
open Framework

/-- Every placed buffer starts at a multiple of its own alignment. -/
def OffsetsAligned (ws : Workspace) (allocs : PoolAllocations) : Prop :=
  ∀ b x, allocs b = some x → (ws.buffer b).alignment ∣ x.byteOffset

/-- The end of each placed conflict in a candidate pool of `b`, rounded up to the alignment of the
conflict, is a multiple of the alignment of `b` as well. -/
def StepAligned (ws : Workspace) (allocs : PoolAllocations) (b : BufferRef) : Prop :=
  ∀ c ∈ (ws.buffer b).conflicts, ∀ x, allocs c = some x →
    x.poolInfo ∈ (ws.buffer b).poolCandidates → ∀ next, nextOffset (ws.buffer c) x = some next →
      (ws.buffer b).alignment ∣ int32 next

/-- Every placement of `PostSortAllocation` meets `StepAligned` in the state before it. -/
def RunAligned (ws : Workspace) : List BufferRef → PoolAllocations → Prop
  | [], _ => True
  | b :: bs, allocs => StepAligned ws allocs b ∧
      ∀ allocs', placeBuffer ws allocs b = some allocs' → RunAligned ws bs allocs'

/-- So does every placement of the hill climb's `greedy`. -/
def GreedyAligned (ws : Workspace) (sorting : StdSorting) : List BufferRef → AllocMap → Prop
  | [], _ => True
  | b :: bs, allocs => StepAligned ws (fun c => allocs.lookup c) b ∧
      ∀ allocs', HillClimb.placeBuffer ws sorting allocs b = .ok allocs' →
        GreedyAligned ws sorting bs allocs'

instance (ws : Workspace) (allocs : PoolAllocations) (b : BufferRef) :
    Decidable (StepAligned ws allocs b) :=
  inferInstanceAs (Decidable (∀ c ∈ (ws.buffer b).conflicts, ∀ x ∈ allocs c,
    x.poolInfo ∈ (ws.buffer b).poolCandidates → ∀ next ∈ nextOffset (ws.buffer c) x,
      (ws.buffer b).alignment ∣ int32 next))

instance decidableForallSome {α : Type} (x : Option α) (P : α → Prop) [∀ a, Decidable (P a)] :
    Decidable (∀ a, x = some a → P a) :=
  inferInstanceAs (Decidable (∀ a ∈ x, P a))

def decideRunAligned (ws : Workspace) :
    (vec : List BufferRef) → (allocs : PoolAllocations) → Decidable (RunAligned ws vec allocs)
  | [], _ => isTrue trivial
  | b :: bs, allocs =>
    have := decideRunAligned ws bs
    inferInstanceAs (Decidable (StepAligned ws allocs b ∧ ∀ allocs',
      placeBuffer ws allocs b = some allocs' → RunAligned ws bs allocs'))

instance (ws : Workspace) (vec : List BufferRef) (allocs : PoolAllocations) :
    Decidable (RunAligned ws vec allocs) := decideRunAligned ws vec allocs

def decideGreedyAligned (ws : Workspace) (sorting : StdSorting) :
    (vec : List BufferRef) → (allocs : AllocMap) → Decidable (GreedyAligned ws sorting vec allocs)
  | [], _ => isTrue trivial
  | b :: bs, allocs =>
    have := decideGreedyAligned ws sorting bs
    inferInstanceAs (Decidable (StepAligned ws (fun c => allocs.lookup c) b ∧ ∀ allocs',
      HillClimb.placeBuffer ws sorting allocs b = .ok allocs' → GreedyAligned ws sorting bs allocs'))

instance (ws : Workspace) (sorting : StdSorting) (vec : List BufferRef) (allocs : AllocMap) :
    Decidable (GreedyAligned ws sorting vec allocs) := decideGreedyAligned ws sorting vec allocs

variable {ws : Workspace} {sorting : StdSorting} {allocs : PoolAllocations} {b c : BufferRef}
  {m : PoolOffsets}

/-- The offset kept for each candidate pool suits the buffer. -/
def EntriesAligned (ws : Workspace) (b : BufferRef) (m : PoolOffsets) : Prop :=
  ∀ p ∈ (ws.buffer b).poolCandidates, ∀ o, m p = some o → (ws.buffer b).alignment ∣ int32 o

theorem initialCandidates_aligned (ws : Workspace) (b : BufferRef) :
    EntriesAligned ws b (initialCandidates ws (ws.buffer b)) := by
  have hzero (l : List PoolRef) (m : PoolOffsets) (hm : ∀ p o, m p = some o → o = 0) :
      ∀ p o, l.foldl (fun m p =>
        if isValidPlacement (ws.pool p) 0 (sizeT (ws.buffer b).sizeBytes) then
          Function.update m p (some 0)
        else m) m p = some o → o = 0 := by
    induction l generalizing m with
    | nil => exact hm
    | cons q l ih =>
      apply ih
      intro p o ho
      dsimp only at ho
      split_ifs at ho
      · by_cases hpq : p = q
        · rw [hpq, Function.update_self] at ho
          exact (Option.some.inj ho).symm
        · rw [Function.update_of_ne hpq] at ho
          exact hm p o ho
      · exact hm p o ho
  intro p _ o ho
  have : o = 0 := hzero (ws.buffer b).poolCandidates (fun _ => none) (by simp) p o ho
  subst this
  exact Int.dvd_zero _

/-- An entry is replaced by an aligned one or removed. -/
theorem EntriesAligned.update (hm : EntriesAligned ws b m) {q : PoolRef} {entry : Option Nat}
    (hentry : q ∈ (ws.buffer b).poolCandidates → ∀ o, entry = some o →
      (ws.buffer b).alignment ∣ int32 o) : EntriesAligned ws b (Function.update m q entry) := by
  intro p hp o ho
  by_cases hpq : p = q
  · subst hpq
    rw [Function.update_self] at ho
    exact hentry hp o ho
  · rw [Function.update_of_ne hpq] at ho
    exact hm p hp o ho

theorem visitConflict_aligned {m' : PoolOffsets} (hstep : StepAligned ws allocs b)
    (hc : c ∈ (ws.buffer b).conflicts) (hm : EntriesAligned ws b m)
    (h : visitConflict ws allocs (ws.buffer b) m c = some m') : EntriesAligned ws b m' := by
  unfold visitConflict at h
  cases ha : allocs c with
  | none =>
    rw [ha] at h
    exact Option.some.inj h ▸ hm
  | some a =>
    cases hnext : nextOffset (ws.buffer c) a with
    | none =>
      simp only [ha, hnext] at h
      cases h
    | some next =>
      simp only [ha, hnext] at h
      split_ifs at h
      · rw [← Option.some.inj h]
        apply hm.update
        intro hq o ho
        rw [← Option.some.inj ho]
        exact hstep c hc a ha hq next hnext
      · rw [← Option.some.inj h]
        apply hm.update
        intro hq o ho
        rw [← Option.some.inj ho]
        cases hentry : m a.poolInfo with
        | none => exact Int.dvd_zero _
        | some entry => exact hm a.poolInfo hq entry hentry
      · rw [← Option.some.inj h]
        apply hm.update
        intro _ o ho
        cases ho

theorem visitConflicts_aligned {m' : PoolOffsets} (hstep : StepAligned ws allocs b)
    (l : List BufferRef) (hl : ∀ c ∈ l, c ∈ (ws.buffer b).conflicts) (hm : EntriesAligned ws b m)
    (h : l.foldlM (visitConflict ws allocs (ws.buffer b)) m = some m') : EntriesAligned ws b m' := by
  induction l generalizing m with
  | nil =>
    have : m = m' := by simpa using h
    exact this ▸ hm
  | cons c l ih =>
    rw [List.foldlM_cons, Option.bind_eq_bind, Option.bind_eq_some_iff] at h
    obtain ⟨m₁, hvisit, hrest⟩ := h
    apply ih (fun d hd => hl d (List.mem_cons_of_mem _ hd)) _ hrest
    exact visitConflict_aligned hstep (hl c List.mem_cons_self) hm hvisit

/-- The buffer is put at the offset kept for a candidate pool. -/
theorem OffsetsAligned.place (ha : OffsetsAligned ws allocs) (hm : EntriesAligned ws b m) {q : PoolRef}
    (hq : selectPlacementPool (ws.buffer b) m = some q) :
    OffsetsAligned ws (Function.update allocs b (some ⟨q, int32 ((m q).getD 0)⟩)) := by
  unfold selectPlacementPool at hq
  have hcand : q ∈ (ws.buffer b).poolCandidates := List.mem_of_find?_eq_some hq
  have hsome : (m q).isSome = true := by simpa using List.find?_some hq
  obtain ⟨o, ho⟩ := Option.isSome_iff_exists.mp hsome
  intro c x hx
  by_cases hcb : c = b
  · subst hcb
    rw [Function.update_self] at hx
    have hoffset : x.byteOffset = int32 ((m q).getD 0 : Nat) := by
      rw [← Option.some.inj hx]
    rw [hoffset, ho, Option.getD_some]
    exact hm q hcand o ho
  · rw [Function.update_of_ne hcb] at hx
    exact ha c x hx

theorem postSort_aligned {allocs' : PoolAllocations} (vec : List BufferRef)
    (ha : OffsetsAligned ws allocs) (hrun : RunAligned ws vec allocs)
    (h : vec.foldlM (placeBuffer ws) allocs = some allocs') : OffsetsAligned ws allocs' := by
  induction vec generalizing allocs with
  | nil =>
    have : allocs = allocs' := by simpa using h
    exact this ▸ ha
  | cons b vec ih =>
    rw [List.foldlM_cons, Option.bind_eq_bind, Option.bind_eq_some_iff] at h
    obtain ⟨allocs₁, hplace, hrest⟩ := h
    have hnext := hrun.2 allocs₁ hplace
    simp only [placeBuffer, Option.bind_eq_bind, Option.bind_eq_some_iff, Option.some.injEq] at hplace
    obtain ⟨m, hvisit, q, hq, rfl⟩ := hplace
    have hm := visitConflicts_aligned hrun.1 _ (fun c hc => hc) (initialCandidates_aligned ws b) hvisit
    exact ih (ha.place hm hq) hnext hrest

theorem visitPlaced_aligned {placed : AllocMap}
    (hstep : StepAligned ws (fun c => placed.lookup c) b) (hc : c ∈ (ws.buffer b).conflicts)
    (hm : EntriesAligned ws b m) :
    Ensures (fun _ => True) (HillClimb.visitPlaced ws placed (ws.buffer b) m c)
      (EntriesAligned ws b) := by
  unfold HillClimb.visitPlaced
  cases ha : placed.lookup c with
  | none => trivial
  | some a =>
    cases hnext : nextOffset (ws.buffer c) a with
    | none =>
      simp only [hnext]
      trivial
    | some next =>
      cases hentry : m a.poolInfo with
      | none =>
        simp only [hnext, hentry]
        exact hm
      | some entry =>
        simp only [hnext, hentry]
        split_ifs
        · apply hm.update
          intro hq o ho
          rw [← Option.some.inj ho]
          exact hstep c hc a ha hq next hnext
        · exact hm
        · apply hm.update
          intro _ o ho
          cases ho

theorem greedy_aligned (vec : List BufferRef) (placed : AllocMap)
    (ha : OffsetsAligned ws (fun c => placed.lookup c)) (hrun : GreedyAligned ws sorting vec placed) :
    Ensures (fun _ => True) (vec.foldlM (HillClimb.placeBuffer ws sorting) placed)
      (fun placed' => OffsetsAligned ws (fun c => placed'.lookup c)) := by
  induction vec generalizing placed with
  | nil => exact ha
  | cons b vec ih =>
    rw [List.foldlM_cons]
    have hplace : Ensures (fun _ => True) (HillClimb.placeBuffer ws sorting placed b)
        (fun placed' => OffsetsAligned ws (fun c => placed'.lookup c)) := by
      have hvisit : Ensures (fun _ => True) ((HillClimb.bufConf ws sorting placed b).foldlM
          (HillClimb.visitPlaced ws placed (ws.buffer b)) (initialCandidates ws (ws.buffer b)))
          (EntriesAligned ws b) := by
        apply Ensures.foldlM (fun _ => EntriesAligned ws b) (initialCandidates_aligned ws b)
        intro seen c rest m hl hm
        have hc : c ∈ HillClimb.bufConf ws sorting placed b := by simp [hl]
        exact visitPlaced_aligned hrun.1 (HillClimb.mem_bufConf.mp hc).1 hm
      apply hvisit.bind
      intro m _ hm
      cases hq : selectPlacementPool (ws.buffer b) m with
      | none => trivial
      | some q =>
        show OffsetsAligned ws _
        rw [HillClimb.lookup_insert_eq]
        exact ha.place hm hq
    apply hplace.bind
    intro placed' heq ha'
    exact ih placed' ha' (hrun.2 placed' heq)

/-- In every run of either algorithm whose placements all meet the condition, every offset is a
multiple of the alignment of the buffer placed there. -/
theorem usmp_offsets_aligned (ws : Workspace) (sorting : StdSorting) (vec : List BufferRef) :
    (∀ allocs, RunAligned ws vec (fun _ => none) → postSortAllocation ws vec = some allocs →
      OffsetsAligned ws allocs) ∧
    (∀ allocs, GreedyAligned ws sorting vec ∅ → HillClimb.greedy ws sorting vec = .ok allocs →
      OffsetsAligned ws (fun b => allocs.lookup b)) := by
  constructor
  · intro allocs hrun h
    have hempty : OffsetsAligned ws (fun _ => none) := by
      intro b x hx
      cases hx
    exact postSort_aligned vec hempty hrun h
  · intro allocs hrun h
    have hempty : OffsetsAligned ws (fun c => (∅ : AllocMap).lookup c) := by
      intro b x hx
      cases hx
    have hgreedy := greedy_aligned vec ∅ hempty hrun
    unfold HillClimb.greedy at h
    rw [h] at hgreedy
    exact hgreedy

theorem nothing_nonneg : (0 : Int) ≤ 0 := by decide

theorem nothing_lt : (0 : Int) < 2^63 := by decide

theorem ten_nonneg : (0 : Int) ≤ 10 := by decide

theorem ten_lt : (10 : Int) < 2^63 := by decide

theorem two_pos : (1 : Int) ≤ 2 := by decide

theorem two_lt : (2 : Int) < 2^63 := by decide

theorem no_hint : (-1 : Int) ≤ -1 := by decide

/-- Two buffers in conflict, of ten bytes each, and a pool without bound. -/
def twoAligned (alignment : Int) (hpos : 1 ≤ alignment) (hlt : alignment < 2^63) : Workspace where
  pool _ := ⟨-1, no_hint⟩
  buffer
    | 0 => ⟨"a", 10, [0], 2, [1], ten_nonneg, ten_lt, two_pos, two_lt⟩
    | 1 => ⟨"b", 10, [0], alignment, [0], ten_nonneg, ten_lt, hpos, hlt⟩
    | _ => ⟨"", 0, [], 2, [], nothing_nonneg, nothing_lt, two_pos, two_lt⟩

theorem four_pos : (1 : Int) ≤ 4 := by decide

theorem four_lt : (4 : Int) < 2^63 := by decide

def fourAligned : Workspace := twoAligned 4 four_pos four_lt

def twoAlignedBoth : Workspace := twoAligned 2 two_pos two_lt

theorem twoAligned_symmetric (alignment : Int) (hpos : 1 ≤ alignment) (hlt : alignment < 2^63) :
    Symmetric (twoAligned alignment hpos hlt) := by
  intro a b hab
  match a with
  | 0 => simp_all [Conflicting, twoAligned]
  | 1 => simp_all [Conflicting, twoAligned]
  | n + 2 => simp [Conflicting, twoAligned] at hab

/-- A buffer of alignment 4 is put right behind the ten bytes of a buffer of alignment 2. -/
theorem offset_misaligned :
    ¬ ∀ (ws : Workspace) (sorting : StdSorting) (vec : List BufferRef), Symmetric ws →
      (∀ allocs, postSortAllocation ws vec = some allocs → OffsetsAligned ws allocs) ∧
      (∀ allocs, HillClimb.greedy ws sorting vec = .ok allocs →
        OffsetsAligned ws (fun b => allocs.lookup b)) := by
  intro hall
  have hpost := (hall fourAligned insertionSorting [0, 1] (twoAligned_symmetric 4 _ _)).1
  obtain ⟨allocs, hrun⟩ : ∃ allocs, postSortAllocation fourAligned [0, 1] = some allocs :=
    Option.isSome_iff_exists.mp (by decide)
  have hval : (postSortAllocation fourAligned [0, 1]).map (fun f => f 1) =
      some (some ⟨0, 10⟩) := by decide
  rw [hrun, Option.map_some, Option.some.injEq] at hval
  exact absurd (hpost allocs hrun 1 _ hval) (by decide)

/-- With alignment 2 for both buffers the second starts at a multiple of 2. -/
theorem usmp_offsets_aligned_two :
    (∃ allocs, postSortAllocation twoAlignedBoth [0, 1] = some allocs ∧
      OffsetsAligned twoAlignedBoth allocs) ∧
    (∃ allocs, HillClimb.greedy twoAlignedBoth insertionSorting [0, 1] = .ok allocs ∧
      OffsetsAligned twoAlignedBoth (fun b => allocs.lookup b)) := by
  have haligned := usmp_offsets_aligned twoAlignedBoth insertionSorting [0, 1]
  constructor
  · obtain ⟨allocs, hrun⟩ : ∃ allocs, postSortAllocation twoAlignedBoth [0, 1] = some allocs :=
      Option.isSome_iff_exists.mp (by decide)
    exact ⟨allocs, hrun, haligned.1 allocs (by decide) hrun⟩
  · have hok : (HillClimb.greedy twoAlignedBoth insertionSorting [0, 1]).toOption.isSome = true := by
      decide
    cases hrun : HillClimb.greedy twoAlignedBoth insertionSorting [0, 1] with
    | error stop =>
      rw [hrun] at hok
      cases hok
    | ok allocs => exact ⟨allocs, rfl, haligned.2 allocs (by decide) hrun⟩

end StencilGraph.Usmp

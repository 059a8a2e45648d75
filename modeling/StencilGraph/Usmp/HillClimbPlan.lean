import Mathlib.Data.List.Sort
import StencilGraph.Framework.Ensures
import StencilGraph.Usmp.GreedyPlan
import StencilGraph.Usmp.HillClimb

namespace StencilGraph.Usmp
open Framework

/-- A run may end in a failed check or go on looking for a swap; it does not divide by zero or index
outside a list. -/
def Stop.Harmless (stop : Stop) : Prop := stop = .check ∨ stop = .notFinished

/-- The conflict lists of the listed buffers are symmetric. -/
def SymmetricAmong (ws : Workspace) (arr : List BufferRef) : Prop :=
  ∀ a ∈ arr, ∀ b ∈ arr, Conflicting ws a b → Conflicting ws b a

namespace HillClimb

/-- What placing `b` needs of the placements before it: the offsets after its conflicts, rounded up
to their alignments, fit an `int`. -/
def EndsFitInt (ws : Workspace) (allocs : AllocMap) (b : BufferRef) : Prop :=
  ∀ c ∈ (ws.buffer b).conflicts, ∀ x, allocs.lookup c = some x → (ws.buffer c).alignment < 2^31 ∧
    roundUp (x.byteOffset + (ws.buffer c).sizeBytes) (ws.buffer c).alignment < 2^31

/-- Every placement of a `greedy` call meets `EndsFitInt` in the state before it. -/
def GreedyMeets (ws : Workspace) (sorting : StdSorting) : List BufferRef → AllocMap → Prop
  | [], _ => True
  | b :: bs, allocs => EndsFitInt ws allocs b ∧
      ∀ allocs', placeBuffer ws sorting allocs b = .ok allocs' → GreedyMeets ws sorting bs allocs'

/-- So do the placements of every round. -/
def Climb.Meets (ws : Workspace) (sorting : StdSorting) (rnd : Nat → Nat) (fuel : Nat)
    (desiredBytes : Nat) : Nat → Climb → Prop
  | 0, _ => True
  | remaining + 1, s => GreedyMeets ws sorting s.bufferInfoVec ∅ ∧
      ∀ s', s.round ws sorting rnd fuel desiredBytes (maxAttempts - (remaining + 1)) =
        .ok (false, s') → s'.Meets ws sorting rnd fuel desiredBytes remaining

variable {ws : Workspace} {sorting : StdSorting} {allocs : AllocMap} {b c : BufferRef}
  {seen : List BufferRef} {m : PoolOffsets} {p : PoolRef} {o : Nat}

/-- `b` may be put at offset `o` of pool `p`: it fits the pool, and it lies after or before each
conflict seen so far. -/
def EntryFits (ws : Workspace) (allocs : AllocMap) (b : BufferRef) (seen : List BufferRef)
    (p : PoolRef) (o : Nat) : Prop :=
  o < 2^31 ∧ isValidPlacement (ws.pool p) o (sizeT (ws.buffer b).sizeBytes) = true ∧
    ∀ c ∈ seen, ∀ x, allocs.lookup c = some x → x.poolInfo = p →
      x.byteOffset + (ws.buffer c).sizeBytes ≤ o ∨ o + (ws.buffer b).sizeBytes ≤ x.byteOffset

def OffsetsFit (ws : Workspace) (allocs : AllocMap) (b : BufferRef) (seen : List BufferRef)
    (m : PoolOffsets) : Prop := ∀ p o, m p = some o → EntryFits ws allocs b seen p o

theorem initialCandidates_fit (ws : Workspace) (allocs : AllocMap) (b : BufferRef) :
    OffsetsFit ws allocs b [] (initialCandidates ws (ws.buffer b)) := by
  intro p o ho
  have h := initialCandidates_after ws (fun c => allocs.lookup c) b p
  rw [ho] at h
  exact ⟨h.1, h.2.1, fun c hc => absurd hc List.not_mem_nil⟩

theorem EntryFits.snoc (h : EntryFits ws allocs b seen p o)
    (hc : ∀ x, allocs.lookup c = some x → x.poolInfo = p →
      x.byteOffset + (ws.buffer c).sizeBytes ≤ o ∨ o + (ws.buffer b).sizeBytes ≤ x.byteOffset) :
    EntryFits ws allocs b (seen ++ [c]) p o := by
  refine ⟨h.1, h.2.1, ?_⟩
  intro d hd
  cases List.mem_append.mp hd with
  | inl hd => exact h.2.2 d hd
  | inr hd =>
    rw [List.mem_singleton.mp hd]
    exact hc

/-- A conflict is visited. Were the buffer to stay in a gap below an earlier conflict, it would also
end before this one, which starts no earlier; so the entry is raised only past all of them. -/
theorem visitPlaced_fits {a : PoolAllocation} (ha : allocs.lookup c = some a)
    (h0 : 0 ≤ a.byteOffset) (halign : (ws.buffer c).alignment < 2^31)
    (hend : roundUp (a.byteOffset + (ws.buffer c).sizeBytes) (ws.buffer c).alignment < 2^31)
    (hsorted : ∀ d ∈ seen, ∀ x, allocs.lookup d = some x → x.byteOffset ≤ a.byteOffset)
    (hm : OffsetsFit ws allocs b seen m) :
    Ensures Stop.Harmless (visitPlaced ws allocs (ws.buffer b) m c)
      (OffsetsFit ws allocs b (seen ++ [c])) := by
  have hle := le_roundUp (a.byteOffset + (ws.buffer c).sizeBytes) (ws.buffer c).alignment
    (by have := (ws.buffer c).alignment_pos; omega)
  have hsize := (ws.buffer b).size_nonneg
  have hsizeLt := (ws.buffer b).size_lt
  have hsizeC := (ws.buffer c).size_nonneg
  have hsizeT := sizeT_of_nonneg (ws.buffer b).sizeBytes hsize (by omega)
  have hoffT := sizeT_of_nonneg a.byteOffset h0 (by omega)
  have hother (p : PoolRef) (o : Nat) (hp : p ≠ a.poolInfo) (ho : m p = some o) :
      EntryFits ws allocs b (seen ++ [c]) p o := by
    apply (hm p o ho).snoc
    intro x hx hxp
    rw [ha, Option.some.injEq] at hx
    rw [hx] at hp
    exact absurd hxp.symm hp
  unfold visitPlaced
  simp only [ha, nextOffset_eq (ws.buffer c) a h0 halign hend]
  generalize hnext : (roundUp (a.byteOffset + (ws.buffer c).sizeBytes)
    (ws.buffer c).alignment).toNat = next
  cases hentry : m a.poolInfo with
  | none =>
    intro p o ho
    apply hother p o _ ho
    intro hp
    rw [hp, hentry] at ho
    exact absurd ho.symm (Option.some_ne_none o)
  | some entry =>
    have hfits := hm a.poolInfo entry hentry
    have hsum : (entry + sizeT (ws.buffer b).sizeBytes) % 2^64 =
        entry + sizeT (ws.buffer b).sizeBytes := by
      have := hfits.1
      omega
    simp only [hsum]
    split_ifs with hvalid hraise
    · intro p o ho
      by_cases hp : p = a.poolInfo
      · subst hp
        rw [Function.update_self, Option.some.injEq] at ho
        subst ho
        refine ⟨by omega, hvalid, ?_⟩
        intro d hd x hx hxp
        left
        cases List.mem_append.mp hd with
        | inl hd =>
          have hbefore := hsorted d hd x hx
          have hcases := hfits.2.2 d hd x hx hxp
          omega
        | inr hd =>
          rw [List.mem_singleton.mp hd, ha, Option.some.injEq] at hx
          rw [List.mem_singleton.mp hd, ← hx]
          omega
      · rw [Function.update_of_ne hp] at ho
        exact hother p o hp ho
    · intro p o ho
      by_cases hp : p = a.poolInfo
      · subst hp
        rw [hentry, Option.some.injEq] at ho
        subst ho
        apply hfits.snoc
        intro x hx _
        rw [ha, Option.some.injEq] at hx
        rw [← hx]
        by_cases hgap : next ≤ entry
        · left
          omega
        · right
          omega
      · exact hother p o hp ho
    · intro p o ho
      by_cases hp : p = a.poolInfo
      · subst hp
        rw [Function.update_self] at ho
        exact absurd ho.symm (Option.some_ne_none o)
      · rw [Function.update_of_ne hp] at ho
        exact hother p o hp ho

theorem mem_bufConf : c ∈ bufConf ws sorting allocs b ↔
    c ∈ (ws.buffer b).conflicts ∧ (allocs.lookup c).isSome := by
  rw [bufConf, (sorting.perm _ _).mem_iff, List.mem_filter]

theorem bufConf_sorted (ws : Workspace) (sorting : StdSorting) (allocs : AllocMap) (b : BufferRef) :
    (bufConf ws sorting allocs b).Pairwise
      (fun c d => byteOffset allocs c ≤ byteOffset allocs d) := by
  have h := sorting.sorted (offsetLess allocs)
    ((ws.buffer b).conflicts.filter (fun c => (allocs.lookup c).isSome))
    (by
      intro a b c hab hbc
      simp only [offsetLess, decide_eq_false_iff_not] at hab hbc ⊢
      omega)
    (by
      intro a b hab
      simp only [offsetLess, decide_eq_true_iff, decide_eq_false_iff_not] at hab ⊢
      omega)
  apply h.imp
  intro c d hcd
  simp only [offsetLess, decide_eq_false_iff_not] at hcd
  omega

theorem byteOffset_eq {x : PoolAllocation} (h : allocs.lookup c = some x) :
    byteOffset allocs c = x.byteOffset := by
  rw [byteOffset, h]
  rfl

/-- After all the conflicts, each entry left is apart from each of them. -/
theorem visitAll_fits (hplaced : Placed ws (fun c => allocs.lookup c))
    (hmeets : EndsFitInt ws allocs b) :
    Ensures Stop.Harmless
      ((bufConf ws sorting allocs b).foldlM (visitPlaced ws allocs (ws.buffer b))
        (initialCandidates ws (ws.buffer b)))
      (OffsetsFit ws allocs b (bufConf ws sorting allocs b)) := by
  apply Ensures.foldlM (OffsetsFit ws allocs b) (initialCandidates_fit ws allocs b)
  intro seen c rest m hsplit hm
  have hc : c ∈ bufConf ws sorting allocs b := by
    rw [hsplit]
    exact List.mem_append_right _ List.mem_cons_self
  obtain ⟨hconf, hsome⟩ := mem_bufConf.mp hc
  obtain ⟨a, ha⟩ := Option.isSome_iff_exists.mp hsome
  obtain ⟨halign, hend⟩ := hmeets c hconf a ha
  apply visitPlaced_fits ha (hplaced.within c a ha).1 halign hend _ hm
  intro d hd x hx
  have hpair := bufConf_sorted ws sorting allocs b
  rw [hsplit, List.pairwise_append] at hpair
  have hle := hpair.2.2 d hd c List.mem_cons_self
  rw [byteOffset_eq hx, byteOffset_eq ha] at hle
  exact hle

theorem lookup_insert_eq (allocs : AllocMap) (b : BufferRef) (x : PoolAllocation) :
    (fun c => (allocs.insert b x).lookup c) =
      Function.update (fun c => allocs.lookup c) b (some x) := by
  funext c
  by_cases hc : c = b
  · subst hc
    rw [AList.lookup_insert, Function.update_self]
  · rw [AList.lookup_insert_ne hc, Function.update_of_ne hc]

theorem placeBuffer_ensures {arr : List BufferRef} (hsym : SymmetricAmong ws arr)
    (hplaced : Placed ws (fun c => allocs.lookup c)) (harr : ∀ c ∈ allocs, c ∈ arr) (hb : b ∈ arr)
    (hmeets : EndsFitInt ws allocs b) :
    Ensures Stop.Harmless (placeBuffer ws sorting allocs b) (fun allocs' =>
      Placed ws (fun c => allocs'.lookup c) ∧ ∀ c, c ∈ allocs' ↔ c = b ∨ c ∈ allocs) := by
  apply (visitAll_fits hplaced hmeets).bind
  intro m _ hm
  cases hselect : selectPlacementPool (ws.buffer b) m with
  | none => exact .inl rfl
  | some q =>
    unfold selectPlacementPool at hselect
    have hsel : (m q).isSome = true := by simpa using List.find?_some hselect
    have hcand : q ∈ (ws.buffer b).poolCandidates := List.mem_of_find?_eq_some hselect
    obtain ⟨o, ho⟩ := Option.isSome_iff_exists.mp hsel
    obtain ⟨hlt, hvalid, hapart⟩ := hm q o ho
    have hoff : int32 ((m q).getD 0 : Nat) = (o : Int) := by
      rw [ho, Option.getD_some]
      exact int32_of_small _ (by omega) (by omega)
    simp only [hoff]
    refine ⟨?_, fun c => AList.mem_insert allocs⟩
    rw [lookup_insert_eq]
    apply hplaced.update (by omega) hcand (isValidPlacement_within ws b q o hlt hvalid)
    intro c x _ hconf hx hxq
    have hsome : (allocs.lookup c).isSome = true := by
      rw [hx]
      rfl
    have hca : c ∈ arr := harr c (AList.lookup_isSome.mp hsome)
    have hbc : Conflicting ws b c := hconf.elim id (hsym c hca b hb)
    exact hapart c (mem_bufConf.mpr ⟨hbc, hsome⟩) x hx hxq

theorem greedy_ensures {arr : List BufferRef} (hsym : SymmetricAmong ws arr) (vec : List BufferRef)
    (hvec : ∀ b ∈ vec, b ∈ arr) (hplaced : Placed ws (fun c => allocs.lookup c))
    (harr : ∀ c ∈ allocs, c ∈ arr) (hmeets : GreedyMeets ws sorting vec allocs) :
    Ensures Stop.Harmless (vec.foldlM (placeBuffer ws sorting) allocs) (fun allocs' =>
      Placed ws (fun c => allocs'.lookup c) ∧ ∀ c, c ∈ vec ∨ c ∈ allocs → c ∈ allocs') := by
  induction vec generalizing allocs with
  | nil => exact ⟨hplaced, fun c hc => hc.resolve_left List.not_mem_nil⟩
  | cons b vec ih =>
    rw [List.foldlM_cons]
    apply (placeBuffer_ensures hsym hplaced harr (hvec b List.mem_cons_self) hmeets.1).bind
    intro allocs' heq hpost
    have harr' : ∀ c ∈ allocs', c ∈ arr := by
      intro c hc
      cases (hpost.2 c).mp hc with
      | inl hcb =>
        rw [hcb]
        exact hvec b List.mem_cons_self
      | inr hc => exact harr c hc
    apply (ih (fun c hc => hvec c (List.mem_cons_of_mem _ hc)) hpost.1 harr'
      (hmeets.2 allocs' heq)).mono
    intro r hr
    refine ⟨hr.1, ?_⟩
    intro c hc
    apply hr.2 c
    cases hc with
    | inl hc =>
      cases List.mem_cons.mp hc with
      | inl hcb => exact .inr ((hpost.2 c).mpr (.inl hcb))
      | inr hc => exact .inl hc
    | inr hc => exact .inr ((hpost.2 c).mpr (.inr hc))

/-- A round of `greedy` gives a valid plan. -/
theorem greedy_valid {arr vec : List BufferRef} (hsym : SymmetricAmong ws arr)
    (hperm : vec.Perm arr) (hmeets : GreedyMeets ws sorting vec ∅) :
    Ensures Stop.Harmless (greedy ws sorting vec) (fun allocs =>
      ValidPlan ws arr (fun b => allocs.lookup b)) := by
  have hempty : Placed ws (fun c => (∅ : AllocMap).lookup c) :=
    ⟨fun _ x h => absurd h.symm (Option.some_ne_none x),
      fun _ _ x _ _ _ h => absurd h.symm (Option.some_ne_none x)⟩
  apply (greedy_ensures hsym vec (fun b hb => hperm.mem_iff.mp hb) hempty
    (fun c hc => absurd hc (AList.notMem_empty c)) hmeets).mono
  intro allocs hpost
  refine ⟨?_, hpost.1.disjoint⟩
  intro b hb
  have hmem := hpost.2 b (.inl (hperm.mem_iff.mpr hb))
  obtain ⟨x, hx⟩ := Option.isSome_iff_exists.mp (AList.lookup_isSome.mpr hmem)
  exact ⟨x, hx, hpost.1.within b x hx⟩

variable {rnd : Nat → Nat} {fuel desiredBytes drawn : Nat} {s s' : Climb} {arr : List BufferRef}

/-- Each pool size found is reached by one of the buffers, and every pool in use has one. -/
theorem findHighest_spec (ws : Workspace) (entries : List (Sigma (fun _ : BufferRef => PoolAllocation)))
    (sizes : PoolSizes) (seen : List (Sigma (fun _ : BufferRef => PoolAllocation)))
    (hreached : ∀ p v, sizes.lookup p = some v →
      ∃ e ∈ seen, e.2.poolInfo = p ∧ highSz ws e.1 e.2 = v)
    (hused : ∀ e ∈ seen, e.2.poolInfo ∈ sizes) :
    let found := entries.foldl (fun sizes e =>
      let size := (sizes.lookup e.2.poolInfo).getD 0
      sizes.insert e.2.poolInfo (if size ≤ highSz ws e.1 e.2 then highSz ws e.1 e.2 else size)) sizes
    (∀ p v, found.lookup p = some v →
      ∃ e ∈ seen ++ entries, e.2.poolInfo = p ∧ highSz ws e.1 e.2 = v) ∧
    ∀ e ∈ seen ++ entries, e.2.poolInfo ∈ found := by
  induction entries generalizing sizes seen with
  | nil =>
    rw [List.append_nil]
    exact ⟨hreached, hused⟩
  | cons e entries ih =>
    have hassoc : seen ++ e :: entries = (seen ++ [e]) ++ entries := by
      rw [List.append_assoc]
      rfl
    rw [hassoc]
    apply ih
    · intro p v hv
      by_cases hp : p = e.2.poolInfo
      · subst hp
        rw [AList.lookup_insert, Option.some.injEq] at hv
        by_cases hle : (sizes.lookup e.2.poolInfo).getD 0 ≤ highSz ws e.1 e.2
        · rw [if_pos hle] at hv
          exact ⟨e, List.mem_append_right _ List.mem_cons_self, rfl, hv⟩
        · rw [if_neg hle] at hv
          cases hold : sizes.lookup e.2.poolInfo with
          | none =>
            rw [hold, Option.getD_none] at hle
            exact absurd (Nat.zero_le _) hle
          | some size =>
            rw [hold, Option.getD_some] at hv
            subst hv
            obtain ⟨e', he', hpool, hhigh⟩ := hreached _ _ hold
            exact ⟨e', List.mem_append_left _ he', hpool, hhigh⟩
      · rw [AList.lookup_insert_ne hp] at hv
        obtain ⟨e', he', hpool, hhigh⟩ := hreached p v hv
        exact ⟨e', List.mem_append_left _ he', hpool, hhigh⟩
    · intro e' he'
      rw [AList.mem_insert]
      cases List.mem_append.mp he' with
      | inl he' => exact .inr (hused e' he')
      | inr he' =>
        rw [List.mem_singleton.mp he']
        exact .inl rfl

/-- Where something is placed, some buffer reaches the highest address of its pool. -/
theorem maxPoolBuf_ne_nil (ws : Workspace) (allocs : AllocMap) (h : allocs.entries ≠ []) :
    (allocs.entries.filter (fun e =>
      ((findHighest ws allocs).lookup e.2.poolInfo).getD 0 = highSz ws e.1 e.2)).map
        (fun e => e.1) ≠ [] := by
  obtain ⟨hreached, hused⟩ := findHighest_spec ws allocs.entries ∅ []
    (fun _ v hv => absurd hv.symm (Option.some_ne_none v)) (fun _ he => absurd he List.not_mem_nil)
  obtain ⟨e, he⟩ := List.exists_mem_of_ne_nil _ h
  obtain ⟨v, hv⟩ := Option.isSome_iff_exists.mp (AList.lookup_isSome.mpr (hused e he))
  obtain ⟨e', he', hpool, hhigh⟩ := hreached _ v hv
  rw [List.nil_append] at he'
  intro hnil
  have hmem : e' ∈ allocs.entries.filter (fun e =>
      ((findHighest ws allocs).lookup e.2.poolInfo).getD 0 = highSz ws e.1 e.2) := by
    apply List.mem_filter.mpr
    refine ⟨he', decide_eq_true ?_⟩
    rw [hhigh, hpool]
    exact congrArg (Option.getD · 0) hv
  rw [List.map_eq_nil_iff.mp hnil] at hmem
  exact absurd hmem List.not_mem_nil

theorem pick_ensures (rnd : Nat → Nat) (drawn : Nat) (l : List BufferRef) (h : l.length ≠ 0) :
    Ensures Stop.Harmless (pick rnd drawn l) (fun _ => True) := by
  unfold pick
  rw [if_neg h, List.getElem?_eq_getElem (Nat.mod_lt _ (Nat.pos_of_ne_zero h))]
  trivial

theorem pickSecond_ensures (rnd : Nat → Nat) (firstLevel secondLevel : List BufferRef)
    (swapBuf1 : BufferRef) (fuel drawn : Nat) (h : firstLevel.length ≠ 0) :
    Ensures Stop.Harmless (pickSecond rnd firstLevel secondLevel swapBuf1 fuel drawn)
      (fun _ => True) := by
  induction fuel generalizing drawn with
  | zero => exact .inr rfl
  | succ fuel ih =>
    rw [pickSecond]
    by_cases hsecond : secondLevel.length ≠ 0
    · rw [if_pos hsecond, if_neg h]
      have hpick : Ensures Stop.Harmless (pick rnd (drawn + 1)
          (if decide (rnd drawn % 100 > 25) then secondLevel else firstLevel)) (fun _ => True) := by
        split_ifs
        · exact pick_ensures rnd _ secondLevel hsecond
        · exact pick_ensures rnd _ firstLevel h
      apply hpick.bind
      intro picked _ _
      simp only
      split_ifs
      · trivial
      · exact ih picked.2
      · trivial
    · rw [if_neg hsecond]
      apply (pick_ensures rnd drawn firstLevel h).bind
      intro picked _ _
      simp only
      split_ifs
      · trivial
      · exact ih picked.2
      · trivial

theorem pos_ensures (s : Climb) (b : BufferRef)
    (hindexed : ∀ b i, s.posMap.lookup b = some i → i < s.bufferInfoVec.length) :
    Ensures Stop.Harmless (s.pos b) (fun i => i < s.bufferInfoVec.length) := by
  unfold Climb.pos
  cases h : s.posMap.lookup b with
  | none => exact .inl rfl
  | some i => exact hindexed b i h

theorem collectNeighborLists_ensures (ws : Workspace) (s : Climb) (b : BufferRef)
    (hindexed : ∀ b i, s.posMap.lookup b = some i → i < s.bufferInfoVec.length) :
    Ensures Stop.Harmless (s.collectNeighborLists ws b) (fun _ => True) := by
  unfold Climb.collectNeighborLists
  apply (pos_ensures s b hindexed).bind
  intro bufPos _ _
  refine Ensures.bind (Ensures.foldlM (fun _ _ => True) trivial ?_) (fun _ _ _ => trivial)
  intro _ c1 _ levels _ _
  apply (pos_ensures s c1 hindexed).bind
  intro c1Pos _ _
  refine Ensures.bind (Ensures.foldlM (fun _ _ => True) trivial ?_) (fun _ _ _ => trivial)
  intro _ c2 _ second _ _
  exact (pos_ensures s c2 hindexed).bind (fun _ _ _ => trivial)

/-- Only the order of the buffers and their index may differ. -/
structure Climb.Reordered (s s' : Climb) : Prop where
  perm : s'.bufferInfoVec.Perm s.bufferInfoVec
  indexed : ∀ b i, s'.posMap.lookup b = some i → i < s'.bufferInfoVec.length
  totalSize : s'.totalSize = s.totalSize
  poolAllocations : s'.poolAllocations = s.poolAllocations
  resultPoolAllocations : s'.resultPoolAllocations = s.resultPoolAllocations

/-- The indices of a swap that can be made, or that was never made. -/
def Climb.Swappable (s : Climb) (i1 i2 : Int) : Prop :=
  i1 = i2 ∨ (0 ≤ i1 ∧ i1 < s.bufferInfoVec.length) ∧ 0 ≤ i2 ∧ i2 < s.bufferInfoVec.length

theorem elementAt_eq {l : List BufferRef} {i : Int} (h0 : 0 ≤ i) (h : i < l.length) :
    elementAt l i = some (l[i.toNat]) := by
  unfold elementAt
  rw [if_neg h0.not_gt, List.getElem?_eq_getElem]

theorem swapBuffers_ensures (s : Climb) (i1 i2 : Int) (hswap : s.Swappable i1 i2)
    (hindexed : ∀ b i, s.posMap.lookup b = some i → i < s.bufferInfoVec.length) :
    Ensures Stop.Harmless (s.swapBuffers i1 i2) (fun s' => s.Reordered s' ∧
      s'.swapI1 = s.swapI1 ∧ s'.swapI2 = s.swapI2) := by
  unfold Climb.swapBuffers
  by_cases heq : i1 = i2
  · rw [if_pos heq]
    exact ⟨⟨.refl _, hindexed, rfl, rfl, rfl⟩, rfl, rfl⟩
  · obtain ⟨⟨h10, h1⟩, h20, h2⟩ := hswap.resolve_left heq
    rw [if_neg heq, elementAt_eq h10 h1, elementAt_eq h20 h2]
    refine ⟨⟨List.set_set_perm (by omega) (by omega), ?_, rfl, rfl, rfl⟩, rfl, rfl⟩
    intro b i hi
    simp only [List.length_set]
    by_cases hb2 : b = s.bufferInfoVec[i2.toNat]
    · rw [hb2, AList.lookup_insert, Option.some.injEq] at hi
      omega
    · rw [AList.lookup_insert_ne hb2] at hi
      by_cases hb1 : b = s.bufferInfoVec[i1.toNat]
      · rw [hb1, AList.lookup_insert, Option.some.injEq] at hi
        omega
      · rw [AList.lookup_insert_ne hb1] at hi
        exact hindexed b i hi

theorem permute_ensures (s : Climb) (hentries : s.poolAllocations.entries ≠ [])
    (hindexed : ∀ b i, s.posMap.lookup b = some i → i < s.bufferInfoVec.length)
    (hswap : s.Swappable s.swapI1 s.swapI2) :
    Ensures Stop.Harmless (s.permute ws rnd fuel (findHighest ws s.poolAllocations))
      (fun s' => s.Reordered s' ∧ s'.Swappable s'.swapI1 s'.swapI2) := by
  have hsame (drawn : Nat) : s.Reordered { s with drawn := drawn } :=
    ⟨.refl _, hindexed, rfl, rfl, rfl⟩
  unfold Climb.permute
  apply (pick_ensures rnd s.drawn _ (mt List.length_eq_zero_iff.mp
    (maxPoolBuf_ne_nil ws s.poolAllocations hentries))).bind
  intro node _ _
  apply (collectNeighborLists_ensures ws s node.1 hindexed).bind
  intro levels _ _
  simp only
  split_ifs with hfirst
  · exact ⟨hsame node.2, hswap⟩
  · apply (pick_ensures rnd node.2 levels.1 hfirst).bind
    intro buf1 _ _
    apply (pickSecond_ensures rnd levels.1 levels.2 buf1.1 fuel buf1.2 hfirst).bind
    intro buf2 _ _
    split_ifs with hequal
    · exact ⟨hsame buf2.2, hswap⟩
    · apply (pos_ensures s buf1.1 hindexed).bind
      intro i1 _ hi1
      apply (pos_ensures s buf2.1 hindexed).bind
      intro i2 _ hi2
      have hrange : Climb.Swappable { s with swapI1 := i1, swapI2 := i2, drawn := buf2.2 } i1 i2 :=
        .inr ⟨⟨by omega, by exact_mod_cast hi1⟩, by omega, by exact_mod_cast hi2⟩
      apply (swapBuffers_ensures _ i1 i2 hrange hindexed).mono
      intro s' h
      refine ⟨⟨h.1.perm, h.1.indexed, h.1.totalSize, h.1.poolAllocations,
        h.1.resultPoolAllocations⟩, ?_⟩
      rw [h.2.1, h.2.2]
      unfold Climb.Swappable
      rw [h.1.perm.length_eq]
      exact hrange

/-- Holds at the head of the loop. Once a size is known, there has been a round, and its plan is
kept. -/
structure Climb.Inv (ws : Workspace) (arr : List BufferRef) (attempts : Nat) (s : Climb) : Prop where
  perm : s.bufferInfoVec.Perm arr
  indexed : ∀ b i, s.posMap.lookup b = some i → i < s.bufferInfoVec.length
  swappable : s.Swappable s.swapI1 s.swapI2
  started : s.totalSize ≠ 0 → 0 < attempts ∧ s.poolAllocations.entries ≠ [] ∧
    ValidPlan ws arr (fun b => s.resultPoolAllocations.lookup b)

theorem accepts_ensures (rnd : Nat → Nat) (attempts totalSize total drawn : Nat)
    (h : totalSize ≠ 0 → 0 < attempts) :
    Ensures Stop.Harmless (accepts rnd attempts totalSize total drawn)
      (fun r => r.1 = false → totalSize ≠ 0) := by
  unfold accepts
  split_ifs with hfirst hbetter hzero
  · exact fun h => Bool.noConfusion h
  · exact fun h => Bool.noConfusion h
  · have := h hfirst
    omega
  · exact fun _ => hfirst

theorem totalOf_eq_zero (ws : Workspace) (allocs : AllocMap) (h : allocs.entries = []) :
    totalOf (findHighest ws allocs) = 0 := by
  rw [findHighest, h]
  rfl

/-- The end of a round that goes on, from a state with a valid plan. -/
theorem goOn_ensures (attempts : Nat) (s : Climb) (hperm : s.bufferInfoVec.Perm arr)
    (hindexed : ∀ b i, s.posMap.lookup b = some i → i < s.bufferInfoVec.length)
    (hswap : s.Swappable s.swapI1 s.swapI2) (hentries : s.poolAllocations.entries ≠ [])
    (hvalid : ValidPlan ws arr (fun b => s.resultPoolAllocations.lookup b)) :
    Ensures Stop.Harmless
      (s.permute ws rnd fuel (findHighest ws s.poolAllocations) >>= fun s => .ok (false, s))
      (fun r : Bool × Climb => ValidPlan ws arr (fun b => r.2.resultPoolAllocations.lookup b) ∧
        (r.1 = false → r.2.Inv ws arr (attempts + 1))) := by
  apply (permute_ensures s hentries hindexed hswap).bind
  intro s' _ h
  have hresult : ValidPlan ws arr (fun b => s'.resultPoolAllocations.lookup b) := by
    rw [h.1.resultPoolAllocations]
    exact hvalid
  refine ⟨hresult, fun _ => ⟨h.1.perm.trans hperm, h.1.indexed, h.2, fun _ => ?_⟩⟩
  refine ⟨Nat.succ_pos _, ?_, hresult⟩
  rw [h.1.poolAllocations]
  exact hentries

theorem round_ensures (hsym : SymmetricAmong ws arr) (attempts : Nat) (s : Climb)
    (hinv : s.Inv ws arr attempts) (hmeets : GreedyMeets ws sorting s.bufferInfoVec ∅) :
    Ensures Stop.Harmless (s.round ws sorting rnd fuel desiredBytes attempts) (fun r =>
      ValidPlan ws arr (fun b => r.2.resultPoolAllocations.lookup b) ∧
        (r.1 = false → r.2.Inv ws arr (attempts + 1))) := by
  unfold Climb.round
  apply (greedy_valid hsym hinv.perm hmeets).bind
  intro allocs _ hvalid
  simp only
  apply (accepts_ensures rnd attempts s.totalSize _ s.drawn
    (fun h => (hinv.started h).1)).bind
  intro accepted _ hrejected
  split_ifs with haccepted hreached
  · exact ⟨hvalid, fun h => Bool.noConfusion h⟩
  · have hentries : allocs.entries ≠ [] := by
      intro hnil
      rw [totalOf_eq_zero ws allocs hnil] at hreached
      omega
    exact goOn_ensures attempts
      { s with
        poolAllocations := allocs
        resultPoolAllocations := allocs
        totalSize := totalOf (findHighest ws allocs)
        drawn := accepted.2 }
      hinv.perm hinv.indexed hinv.swappable hentries hvalid
  · obtain ⟨_, hentries, hkept⟩ := hinv.started (hrejected (Bool.eq_false_of_not_eq_true haccepted))
    have hback : Climb.Swappable { s with drawn := accepted.2 } s.swapI2 s.swapI1 :=
      hinv.swappable.imp Eq.symm And.symm
    apply (swapBuffers_ensures { s with drawn := accepted.2 } s.swapI2 s.swapI1 hback
      hinv.indexed).bind
    intro s₁ _ h₁
    have hswap₁ : s₁.Swappable s₁.swapI1 s₁.swapI2 := by
      rw [h₁.2.1, h₁.2.2]
      unfold Climb.Swappable
      rw [h₁.1.perm.length_eq]
      exact hinv.swappable
    apply goOn_ensures attempts s₁ (h₁.1.perm.trans hinv.perm) h₁.1.indexed hswap₁
    · rw [h₁.1.poolAllocations]
      exact hentries
    · rw [h₁.1.resultPoolAllocations]
      exact hkept

/-- The rounds that remain, from a state with a valid plan or before the first round. -/
theorem rounds_ensures (hsym : SymmetricAmong ws arr) (remaining : Nat) (s : Climb)
    (hremaining : remaining ≤ maxAttempts) (hinv : s.Inv ws arr (maxAttempts - remaining))
    (hvalid : remaining = 0 → ValidPlan ws arr (fun b => s.resultPoolAllocations.lookup b))
    (hmeets : s.Meets ws sorting rnd fuel desiredBytes remaining) :
    Ensures Stop.Harmless (s.rounds ws sorting rnd fuel desiredBytes remaining) (fun s' =>
      ValidPlan ws arr (fun b => s'.resultPoolAllocations.lookup b)) := by
  induction remaining generalizing s with
  | zero => exact hvalid rfl
  | succ remaining ih =>
    rw [Climb.rounds]
    apply (round_ensures hsym _ s hinv hmeets.1).bind
    intro r heq h
    simp only
    split_ifs with hreached
    · exact h.1
    · have hfalse : r.1 = false := Bool.eq_false_of_not_eq_true hreached
      have hnext : maxAttempts - (remaining + 1) + 1 = maxAttempts - remaining := by omega
      have hinv' := h.2 hfalse
      rw [hnext] at hinv'
      apply ih r.2 (by omega) hinv' (fun _ => h.1)
      apply hmeets.2 r.2
      rw [heq, ← hfalse]

theorem posMapOf_indexed (vec : List BufferRef) (b : BufferRef) (i : Nat)
    (h : (posMapOf vec).lookup b = some i) : i < vec.length := by
  have hfold (entries : List (BufferRef × Nat)) (m : PosMap)
      (hm : ∀ b i, m.lookup b = some i → i < vec.length) (he : ∀ e ∈ entries, e.2 < vec.length) :
      ∀ b i, (entries.foldl (fun m e => m.insert e.1 e.2) m).lookup b = some i →
        i < vec.length := by
    induction entries generalizing m with
    | nil => exact hm
    | cons e entries ih =>
      apply ih
      · intro b i hi
        by_cases hb : b = e.1
        · rw [hb, AList.lookup_insert, Option.some.injEq] at hi
          rw [← hi]
          exact he e List.mem_cons_self
        · rw [AList.lookup_insert_ne hb] at hi
          exact hm b i hi
      · exact fun e' he' => he e' (List.mem_cons_of_mem _ he')
  apply hfold vec.zipIdx ∅ (fun _ i hi => absurd hi.symm (Option.some_ne_none i)) _ b i h
  intro e he
  exact List.snd_lt_of_mem_zipIdx he

end HillClimb

open HillClimb in
/-- In every run whose placements all meet the condition, the plan is valid, and nothing is divided
by zero or indexed out of range. -/
theorem hill_climb_plan_valid (ws : Workspace) (sorting : StdSorting) (arr : List BufferRef)
    (hsym : SymmetricAmong ws arr) (memoryPressure : Nat) (rnd : Nat → Nat) (fuel : Nat)
    (hmeets : (start ws sorting arr).Meets ws sorting rnd fuel memoryPressure maxAttempts) :
    planMemory ws sorting rnd fuel memoryPressure arr ≠ .error .divideByZero ∧
      planMemory ws sorting rnd fuel memoryPressure arr ≠ .error .outOfRange ∧
      ∀ result, planMemory ws sorting rnd fuel memoryPressure arr = .ok result →
        ValidPlan ws arr (fun b => result.lookup b) := by
  have hinv : (start ws sorting arr).Inv ws arr (maxAttempts - maxAttempts) :=
    ⟨sorting.perm _ _, posMapOf_indexed _, .inl rfl, fun h => absurd rfl h⟩
  have hplan : Ensures Stop.Harmless (planMemory ws sorting rnd fuel memoryPressure arr)
      (fun result => ValidPlan ws arr (fun b => result.lookup b)) := by
    unfold planMemory
    split_ifs
    · exact .inl rfl
    · exact (rounds_ensures hsym maxAttempts _ (Nat.le_refl _) hinv (fun h => absurd h (by decide))
        hmeets).bind (fun _ _ h => h)
  refine ⟨?_, ?_, ?_⟩
  · intro heq
    rw [heq] at hplan
    exact hplan.elim (fun h => Stop.noConfusion h) (fun h => Stop.noConfusion h)
  · intro heq
    rw [heq] at hplan
    exact hplan.elim (fun h => Stop.noConfusion h) (fun h => Stop.noConfusion h)
  · intro result heq
    rw [heq] at hplan
    exact hplan

/-- Insertion sort meets what is asked of `std::sort`. -/
def insertionSorting : StdSorting where
  sort less l := l.insertionSort (fun a b => less b a = false)
  perm less l := List.perm_insertionSort _ l
  sorted less l htrans hasymm := by
    have : Std.Total (fun a b => less b a = false) := ⟨by
      intro a b
      cases h : less b a with
      | false => exact .inl rfl
      | true => exact .inr (hasymm b a h)⟩
    have : IsTrans BufferRef (fun a b => less b a = false) :=
      ⟨fun a b c hab hbc => htrans c b a hbc hab⟩
    exact List.pairwise_insertionSort _ l

namespace HillClimb

instance (ws : Workspace) (allocs : AllocMap) (b : BufferRef) :
    Decidable (EndsFitInt ws allocs b) :=
  inferInstanceAs (Decidable (∀ c ∈ (ws.buffer b).conflicts, ∀ x ∈ allocs.lookup c,
    (ws.buffer c).alignment < 2^31 ∧
      roundUp (x.byteOffset + (ws.buffer c).sizeBytes) (ws.buffer c).alignment < 2^31))

instance decidableForallOk {ε α : Type} (x : Except ε α) (P : α → Prop) [∀ a, Decidable (P a)] :
    Decidable (∀ a, x = .ok a → P a) :=
  match x with
  | .ok a => decidable_of_iff (P a) ⟨fun h _ heq => Except.ok.inj heq ▸ h, fun h => h a rfl⟩
  | .error _ => isTrue (fun _ h => by cases h)

def decideGreedyMeets (ws : Workspace) (sorting : StdSorting) :
    (vec : List BufferRef) → (allocs : AllocMap) → Decidable (GreedyMeets ws sorting vec allocs)
  | [], _ => isTrue trivial
  | b :: bs, allocs =>
    have := decideGreedyMeets ws sorting bs
    inferInstanceAs (Decidable (EndsFitInt ws allocs b ∧ ∀ allocs',
      placeBuffer ws sorting allocs b = .ok allocs' → GreedyMeets ws sorting bs allocs'))

instance (ws : Workspace) (sorting : StdSorting) (vec : List BufferRef) (allocs : AllocMap) :
    Decidable (GreedyMeets ws sorting vec allocs) := decideGreedyMeets ws sorting vec allocs

end HillClimb

/-- Three buffers of almost 2^31 bytes, each in conflict with the others, and a pool without
bound. -/
def threeLarge : Workspace where
  pool _ := ⟨-1, by decide⟩
  buffer
    | 0 => { (threeBuffers 0 0 0 0).buffer 0 with
        sizeBytes := 2147483647, conflicts := [1, 2], size_nonneg := by decide, size_lt := by decide }
    | 1 => { (threeBuffers 0 0 0 0).buffer 1 with
        sizeBytes := 2147483646, conflicts := [0, 2], size_nonneg := by decide, size_lt := by decide }
    | 2 => { (threeBuffers 0 0 0 0).buffer 2 with
        sizeBytes := 2147483645, conflicts := [0, 1], size_nonneg := by decide, size_lt := by decide }
    | b => (threeBuffers 0 0 0 0).buffer b

open HillClimb in
/-- The third buffer would start at 2^32 - 3, which `Integer(...)` turns into -3, and covers the
start of the first. -/
theorem hill_climb_overlaps :
    ¬ ∀ (ws : Workspace) (sorting : StdSorting) (arr : List BufferRef) (memoryPressure : Nat)
      (rnd : Nat → Nat) (fuel : Nat) (result : AllocMap),
      (∀ b ∈ arr, (ws.buffer b).poolCandidates ≠ []) →
      (∀ b ∈ arr, ∀ c ∈ (ws.buffer b).conflicts, c ∈ arr) → SymmetricAmong ws arr →
      planMemory ws sorting rnd fuel memoryPressure arr = .ok result →
      ValidPlan ws arr (fun b => result.lookup b) := by
  intro hall
  have hplan : (planMemory threeLarge insertionSorting (fun _ => 0) 1 (2^40) [0, 1, 2]).toOption.map
      (fun r => (r.lookup 0, r.lookup 2)) = some (some ⟨0, 0⟩, some ⟨0, -3⟩) := by decide
  have hsym : SymmetricAmong threeLarge [0, 1, 2] := by
    unfold SymmetricAmong Conflicting
    decide
  cases heq : planMemory threeLarge insertionSorting (fun _ => 0) 1 (2^40) [0, 1, 2] with
  | error stop =>
    rw [heq] at hplan
    exact absurd hplan.symm (Option.some_ne_none _)
  | ok result =>
    have hvalid := hall threeLarge insertionSorting [0, 1, 2] (2^40) (fun _ => 0) 1 result
      (by decide) (by decide) hsym heq
    simp only [heq, Except.toOption, Option.map_some, Option.some.injEq, Prod.mk.injEq] at hplan
    have hdisjoint := hvalid.disjoint 0 2 _ _ (by decide) (by unfold Conflicting; decide) hplan.1
      hplan.2 rfl
    unfold DisjointRanges EndsBefore at hdisjoint
    exact absurd hdisjoint (by decide)

open HillClimb in
theorem hill_climb_plan_valid_three : ∃ result,
    planMemory (threeBuffers 200 90 20 15) insertionSorting (fun _ => 0) 1 1000 [0, 1, 2] =
        .ok result ∧
      ValidPlan (threeBuffers 200 90 20 15) [0, 1, 2] (fun b => result.lookup b) := by
  have hsym : SymmetricAmong (threeBuffers 200 90 20 15) [0, 1, 2] :=
    fun a _ b _ h => threeBuffers_symmetric 200 90 20 15 a b h
  have hround : ∀ r, (start (threeBuffers 200 90 20 15) insertionSorting [0, 1, 2]).round
      (threeBuffers 200 90 20 15) insertionSorting (fun _ => 0) 1 1000 0 = .ok r → r.1 = true := by
    decide
  have hmeets : (start (threeBuffers 200 90 20 15) insertionSorting [0, 1, 2]).Meets
      (threeBuffers 200 90 20 15) insertionSorting (fun _ => 0) 1 1000 maxAttempts :=
    ⟨by decide, fun s' h => absurd (hround _ h) (fun h => Bool.noConfusion h)⟩
  have hplan : (planMemory (threeBuffers 200 90 20 15) insertionSorting (fun _ => 0) 1 1000
      [0, 1, 2]).toOption.isSome = true := by decide
  cases heq : planMemory (threeBuffers 200 90 20 15) insertionSorting (fun _ => 0) 1 1000
      [0, 1, 2] with
  | error stop =>
    rw [heq] at hplan
    exact Bool.noConfusion hplan
  | ok result =>
    exact ⟨result, rfl, (hill_climb_plan_valid (threeBuffers 200 90 20 15) insertionSorting
      [0, 1, 2] hsym 1000 (fun _ => 0) 1 hmeets).2.2 result heq⟩

end StencilGraph.Usmp

import StencilGraph.Framework.RefCount
import StencilGraph.Plan.StorageAllocator

namespace StencilGraph.Plan
open Framework.RefCount

/-- What the tensors of a function need of the blocks. -/
structure Demand (δ : Type) where
  -- the reads of a tensor, and one more when its block is never given back
  refs : Leaf → Nat
  pinned : Leaf → Nat
  -- the reads by some calls
  usedAt : List Nat → Leaf → Nat
  -- the tensors that may be in a block together
  related : Leaf → Leaf → Prop
  size : Leaf → Nat
  -- the tokens of the first pass, and which of them are whose
  initial : Nat → Storage δ
  own : Leaf → Nat → Prop
  equivalence : Equivalence related
  own_unique : ∀ leaf leaf' tok, own leaf tok → own leaf' tok → leaf = leaf'
  counter : ∀ leaf tok, own leaf tok → (initial tok).refCounter + pinned leaf = refs leaf
  ttype : ∀ leaf tok, own leaf tok → getMemorySize (initial tok).ttype = some (size leaf)
  unallocated : ∀ tok, (initial tok).storageId = none

variable {δ : Type}

/-- The blocks hold the placed tensors, and only free blocks are in the free list. -/
structure Pooled (d : Demand δ) (placed : List (Entry Leaf Nat (List Nat))) (used : Leaf → Nat)
    (pool : Pool δ) : Prop where
  accounted : Accounted d.refs d.usedAt d.related placed used fun tok => (pool.arena tok).refCounter
  stored : ∀ x ∈ placed, x.block ∈ pool.data
  ids : ∀ tok k, (pool.arena tok).storageId = some k ↔ pool.data[k]? = some tok
  untouched : ∀ tok, tok ∉ pool.data → pool.arena tok = d.initial tok
  ttype : ∀ tok, (pool.arena tok).ttype = (d.initial tok).ttype
  own : ∀ leaf tok, d.own leaf tok → tok ∈ pool.data → leaf ∈ placed.map Entry.value
  -- a block belongs to the tensor it was allocated for, and is as large as the largest one in it
  first : ∀ tok ∈ pool.data, ∃ x ∈ placed, x.block = tok ∧ d.own x.value tok
  largest : ∀ tok ∈ pool.data, ∃ x ∈ placed, x.block = tok ∧ d.size x.value = (pool.arena tok).maxBytes
  roomy : ∀ x ∈ placed, d.size x.value ≤ (pool.arena x.block).maxBytes
  nodup : (pool.free.map Prod.snd).Nodup
  free : ∀ entry ∈ pool.free, entry.2 ∈ pool.data ∧ (pool.arena entry.2).refCounter = 0

variable {d : Demand δ} {placed : List (Entry Leaf Nat (List Nat))} {used : Leaf → Nat}
  {pool pool' : Pool δ} {leaf : Leaf} {t : List Nat} {tok prototype : Nat}

@[simp] theorem Pool.modify_self (f : Storage δ → Storage δ) :
    (pool.modify tok f).arena tok = f (pool.arena tok) := Function.update_self _ _ _

theorem Pool.modify_of_ne (f : Storage δ → Storage δ) {tok' : Nat} (h : tok' ≠ tok) :
    (pool.modify tok f).arena tok' = pool.arena tok' := Function.update_of_ne h _ _

@[simp] theorem Pool.modify_free (f : Storage δ → Storage δ) : (pool.modify tok f).free = pool.free := rfl

@[simp] theorem Pool.modify_data (f : Storage δ → Storage δ) : (pool.modify tok f).data = pool.data := rfl

/-- What it means that a tensor was given a block. -/
structure Taken (d : Demand δ) (placed : List (Entry Leaf Nat (List Nat))) (used : Leaf → Nat)
    (t : List Nat) (pool : Pool δ) (leaf : Leaf) (tok : Nat) (pool' : Pool δ) : Prop where
  pooled : Pooled d (⟨leaf, tok, t⟩ :: placed) used pool'
  data : ∀ tok' ∈ pool.data, tok' ∈ pool'.data
  free : ∀ tok' ∈ pool'.free.map Prod.snd, tok' ∈ pool.free.map Prod.snd
  busy : tok ∉ pool'.free.map Prod.snd
  fresh : tok ∈ pool.data → tok ∈ pool.free.map Prod.snd

namespace Pooled

/-- A tensor gets its own token as a new block. -/
theorem alloc (h : Pooled d placed used pool) (hown : d.own leaf tok) (hleaf : leaf ∉ placed.map Entry.value)
    (hused : used leaf = 0) (htime : d.usedAt t = used) (device : δ) {f : Storage δ → Storage δ}
    (hf : ∀ s, (f s).storageId = s.storageId ∧ (f s).maxBytes = s.maxBytes ∧ (f s).ttype = s.ttype)
    (hcount : (f (pool.arena tok)).refCounter = d.refs leaf)
    (hfs : ∀ s s' : Storage δ, s.refCounter = s'.refCounter → (f s).refCounter = (f s').refCounter) :
    Taken d placed used t pool leaf tok ((pool.alloc tok (d.size leaf) device).modify tok f) := by
  have hnot : tok ∉ pool.data := fun hmem => hleaf (h.own leaf tok hown hmem)
  have hnew : ∀ x ∈ placed, x.block ≠ tok := fun x hx heq => hnot (heq ▸ h.stored x hx)
  have hother : ∀ tok', tok' ≠ tok →
      ((pool.alloc tok (d.size leaf) device).modify tok f).arena tok' = pool.arena tok' := by
    intro tok' hne
    rw [Pool.modify_of_ne f hne]
    exact Function.update_of_ne hne _ _
  have hself : ((pool.alloc tok (d.size leaf) device).modify tok f).arena tok =
      f { pool.arena tok with
        maxBytes := d.size leaf, virtualDevice := device, storageId := some pool.data.length } := by
    rw [Pool.modify_self]
    congr 1
    exact Function.update_self _ _ _
  have hdata : ((pool.alloc tok (d.size leaf) device).modify tok f).data = pool.data ++ [tok] := rfl
  have hfree : ((pool.alloc tok (d.size leaf) device).modify tok f).free = pool.free := rfl
  have hfree_ne : ∀ entry ∈ pool.free, entry.2 ≠ tok := fun entry hentry heq =>
    hnot (heq ▸ (h.free entry hentry).1)
  have hbusy : tok ∉ pool.free.map Prod.snd := by
    intro hmem
    obtain ⟨entry, hentry, heq⟩ := List.mem_map.mp hmem
    exact hfree_ne entry hentry heq
  generalize ((pool.alloc tok (d.size leaf) device).modify tok f) = pool' at hother hself hdata hfree ⊢
  refine ⟨⟨?_, ?_, ?_, ?_, ?_, ?_, ?_, ?_, ?_, ?_, ?_⟩, ?_, ?_, ?_, fun hmem => absurd hmem hnot⟩
  · apply h.accounted.take hleaf hused htime (Or.inr hnew)
    · rw [hself, ← hcount]
      exact hfs _ _ rfl
    · intro x hx hne
      rw [hother x.block hne]
  · intro x hx
    rw [hdata]
    cases List.mem_cons.mp hx with
    | inl heq => simp [heq]
    | inr hx => exact List.mem_append_left _ (h.stored x hx)
  · intro tok' k
    by_cases hne : tok' = tok
    · rw [hne, hself, (hf _).1, hdata]
      simp only [Option.some.injEq]
      constructor
      · intro heq
        rw [← heq]
        simp
      · intro hk
        by_contra hlen
        rcases Nat.lt_or_gt_of_ne hlen with hlt | hgt
        · rw [List.getElem?_eq_none (by simp; omega)] at hk
          cases hk
        · rw [List.getElem?_append_left hgt] at hk
          exact hnot (List.mem_of_getElem? hk)
    · rw [hother tok' hne, h.ids, hdata]
      by_cases hk : k < pool.data.length
      · rw [List.getElem?_append_left hk]
      · rw [List.getElem?_eq_none (by omega), List.getElem?_append_right (by omega)]
        have : [tok][k - pool.data.length]? ≠ some tok' := by
          intro heq
          exact hne (List.mem_singleton.mp (List.mem_of_getElem? heq))
        simp [this]
  · intro tok' hnot'
    rw [hdata, List.mem_append, List.mem_singleton, not_or] at hnot'
    rw [hother tok' hnot'.2]
    exact h.untouched tok' hnot'.1
  · intro tok'
    by_cases hne : tok' = tok
    · rw [hne, hself, (hf _).2.2]
      exact h.ttype tok
    · rw [hother tok' hne]
      exact h.ttype tok'
  · intro leaf' tok' hown' hmem
    rw [hdata, List.mem_append, List.mem_singleton] at hmem
    cases hmem with
    | inl hmem => exact List.mem_cons_of_mem _ (h.own leaf' tok' hown' hmem)
    | inr heq =>
      rw [heq] at hown'
      rw [d.own_unique leaf' leaf tok hown' hown]
      exact List.mem_cons_self
  · intro tok' hmem
    rw [hdata, List.mem_append, List.mem_singleton] at hmem
    cases hmem with
    | inl hmem =>
      obtain ⟨x, hx, hblock, hown'⟩ := h.first tok' hmem
      exact ⟨x, List.mem_cons_of_mem _ hx, hblock, hown'⟩
    | inr heq =>
      rw [heq]
      exact ⟨⟨leaf, tok, t⟩, List.mem_cons_self, rfl, hown⟩
  · intro tok' hmem
    rw [hdata, List.mem_append, List.mem_singleton] at hmem
    by_cases hne : tok' = tok
    · rw [hne, hself, (hf _).2.1]
      exact ⟨⟨leaf, tok, t⟩, List.mem_cons_self, rfl, rfl⟩
    · obtain ⟨x, hx, hblock, hsize⟩ := h.largest tok' (hmem.resolve_right hne)
      rw [hother tok' hne]
      exact ⟨x, List.mem_cons_of_mem _ hx, hblock, hsize⟩
  · intro x hx
    cases List.mem_cons.mp hx with
    | inl heq =>
      rw [heq, hself, (hf _).2.1]
    | inr hx =>
      rw [hother x.block (hnew x hx)]
      exact h.roomy x hx
  · rw [hfree]
    exact h.nodup
  · intro entry hentry
    rw [hfree] at hentry
    rw [hdata, hother entry.2 (hfree_ne entry hentry)]
    exact ⟨List.mem_append_left _ (h.free entry hentry).1, (h.free entry hentry).2⟩
  · intro tok' hmem
    rw [hdata]
    exact List.mem_append_left _ hmem
  · rw [hfree]
    exact fun _ h => h
  · rwa [hfree]

/-- A tensor gets a free block. -/
theorem reuse (h : Pooled d placed used pool) (hown : d.own leaf prototype)
    (hleaf : leaf ∉ placed.map Entry.value) (hused : used leaf = 0) (htime : d.usedAt t = used)
    (hpinned : d.pinned leaf = 0) {entry : Nat × Nat} {free : List (Nat × Nat)}
    (hperm : pool.free.Perm (entry :: free)) :
    ∃ pool', pool.reuse prototype (d.size leaf) entry.2 free = some (entry.2, pool') ∧
      Taken d placed used t pool leaf entry.2 pool' := by
  obtain ⟨hdata, hzero⟩ := h.free entry (hperm.mem_iff.mpr List.mem_cons_self)
  have hnot : prototype ∉ pool.data := fun hmem => hleaf (h.own leaf prototype hown hmem)
  have hcounter : (pool.arena prototype).refCounter = d.refs leaf := by
    rw [h.untouched prototype hnot, ← d.counter leaf prototype hown, hpinned]
    simp
  have hnodup := h.nodup
  rw [(hperm.map Prod.snd).nodup_iff, List.map_cons, List.nodup_cons] at hnodup
  unfold Pool.reuse
  rw [if_pos hzero]
  simp only
  refine ⟨_, rfl, ?_⟩
  set tok := entry.2
  set f : Storage δ → Storage δ := fun s =>
    { s with maxBytes := max (d.size leaf) s.maxBytes, refCounter := (pool.arena prototype).refCounter }
  have hother : ∀ tok', tok' ≠ tok → (Pool.modify { pool with free := free } tok f).arena tok' =
      pool.arena tok' := fun tok' hne => Pool.modify_of_ne f hne
  have hself : (Pool.modify { pool with free := free } tok f).arena tok = f (pool.arena tok) :=
    Pool.modify_self f
  have hdata' : (Pool.modify { pool with free := free } tok f).data = pool.data := rfl
  have hfree : (Pool.modify { pool with free := free } tok f).free = free := rfl
  generalize Pool.modify { pool with free := free } tok f = pool' at hother hself hdata' hfree ⊢
  refine ⟨⟨?_, ?_, ?_, ?_, ?_, ?_, ?_, ?_, ?_, ?_, ?_⟩, ?_, ?_, ?_, ?_⟩
  · apply h.accounted.take hleaf hused htime (Or.inl hzero)
    · rw [hself]
      exact hcounter
    · intro x hx hne
      rw [hother x.block hne]
  · intro x hx
    rw [hdata']
    cases List.mem_cons.mp hx with
    | inl heq =>
      rw [heq]
      exact hdata
    | inr hx => exact h.stored x hx
  · intro tok' k
    rw [hdata', ← h.ids]
    by_cases hne : tok' = tok
    · rw [hne, hself]
    · rw [hother tok' hne]
  · intro tok' hnot'
    rw [hdata'] at hnot'
    rw [hother tok' fun heq => hnot' (heq ▸ hdata)]
    exact h.untouched tok' hnot'
  · intro tok'
    by_cases hne : tok' = tok
    · rw [hne, hself]
      exact h.ttype tok
    · rw [hother tok' hne]
      exact h.ttype tok'
  · intro leaf' tok' hown' hmem
    rw [hdata'] at hmem
    exact List.mem_cons_of_mem _ (h.own leaf' tok' hown' hmem)
  · intro tok' hmem
    rw [hdata'] at hmem
    obtain ⟨x, hx, hblock, hown'⟩ := h.first tok' hmem
    exact ⟨x, List.mem_cons_of_mem _ hx, hblock, hown'⟩
  · intro tok' hmem
    rw [hdata'] at hmem
    obtain ⟨x, hx, hblock, hsize⟩ := h.largest tok' hmem
    by_cases hne : tok' = tok
    · rw [hne, hself]
      rw [hne] at hblock hsize
      rcases Nat.le_total (d.size leaf) (pool.arena tok).maxBytes with hle | hle
      · exact ⟨x, List.mem_cons_of_mem _ hx, hblock, hsize.trans (Nat.max_eq_right hle).symm⟩
      · exact ⟨⟨leaf, tok, t⟩, List.mem_cons_self, rfl, (Nat.max_eq_left hle).symm⟩
    · rw [hother tok' hne]
      exact ⟨x, List.mem_cons_of_mem _ hx, hblock, hsize⟩
  · intro x hx
    cases List.mem_cons.mp hx with
    | inl heq =>
      rw [heq, hself]
      exact Nat.le_max_left _ _
    | inr hx =>
      have hroomy := h.roomy x hx
      by_cases hne : x.block = tok
      · rw [hne] at hroomy ⊢
        rw [hself]
        exact hroomy.trans (Nat.le_max_right _ _)
      · rwa [hother x.block hne]
  · rw [hfree]
    exact hnodup.2
  · intro entry' hentry'
    rw [hfree] at hentry'
    have hne : entry'.2 ≠ tok := fun heq => hnodup.1 (heq ▸ List.mem_map_of_mem hentry')
    rw [hdata', hother entry'.2 hne]
    exact h.free entry' (hperm.mem_iff.mpr (List.mem_cons_of_mem _ hentry'))
  · intro tok' hmem
    rwa [hdata']
  · intro tok' hmem
    rw [hfree] at hmem
    rw [(hperm.map Prod.snd).mem_iff]
    exact List.mem_cons_of_mem _ hmem
  · rw [hfree]
    exact hnodup.1
  · intro _
    rw [(hperm.map Prod.snd).mem_iff]
    exact List.mem_cons_self

theorem perm_of_find {α : Type} {p : α → Bool} {l : List α} {x : α} (h : l.find? p = some x) :
    l.Perm (x :: l.eraseP p) := by
  induction l with
  | nil => cases h
  | cons y l ih =>
    by_cases hy : p y = true
    · rw [List.find?_cons_of_pos hy] at h
      rw [List.eraseP_cons_of_pos hy, Option.some.inj h]
    · rw [List.find?_cons_of_neg hy] at h
      rw [List.eraseP_cons_of_neg hy]
      exact ((ih h).cons y).trans (.swap x y _)

theorem getMemorySize_of_own (h : Pooled d placed used pool) (hown : d.own leaf prototype) :
    getMemorySize (pool.arena prototype).ttype = some (d.size leaf) := by
  rw [h.ttype]
  exact d.ttype leaf prototype hown

/-- `Request` never fails. -/
theorem request [DecidableEq δ] (h : Pooled d placed used pool) (hown : d.own leaf prototype)
    (hleaf : leaf ∉ placed.map Entry.value) (hused : used leaf = 0) (htime : d.usedAt t = used)
    (hpinned : d.pinned leaf = 0) (device : δ) :
    ∃ tok pool', pool.request prototype device = some (tok, pool') ∧
      Taken d placed used t pool leaf tok pool' := by
  unfold Pool.request
  rw [h.getMemorySize_of_own hown]
  simp only [Option.bind_eq_bind, Option.bind_some]
  split
  · rename_i entry hfind
    obtain ⟨pool', hrun, htaken⟩ := h.reuse hown hleaf hused htime hpinned (perm_of_find hfind)
    exact ⟨entry.2, pool', hrun, htaken⟩
  · split
    · rename_i entry hfind
      have hperm := (List.reverse_perm _).symm.trans
        ((perm_of_find hfind).trans ((List.reverse_perm _).symm.cons entry))
      obtain ⟨pool', hrun, htaken⟩ := h.reuse hown hleaf hused htime hpinned hperm
      exact ⟨entry.2, pool', hrun, htaken⟩
    · have hnot : prototype ∉ pool.data := fun hmem => hleaf (h.own leaf prototype hown hmem)
      have hcounter : (pool.arena prototype).refCounter = d.refs leaf := by
        rw [h.untouched prototype hnot, ← d.counter leaf prototype hown, hpinned]
        simp
      refine ⟨prototype, _, rfl, ?_⟩
      have htaken := h.alloc hown hleaf hused htime device (f := id) (fun _ => ⟨rfl, rfl, rfl⟩) hcounter
        (fun _ _ heq => heq)
      have hid : (pool.alloc prototype (d.size leaf) device).modify prototype id =
          pool.alloc prototype (d.size leaf) device := by
        unfold Pool.modify
        simp
      rwa [hid] at htaken

/-- A tensor gets a block that is never given back. -/
theorem pin (h : Pooled d placed used pool) (hown : d.own leaf prototype)
    (hleaf : leaf ∉ placed.map Entry.value) (hused : used leaf = 0) (htime : d.usedAt t = used)
    (hpinned : d.pinned leaf = 1) (device : δ) :
    ∃ tok pool', pool.pin prototype device = some (tok, pool') ∧
      Taken d placed used t pool leaf tok pool' := by
  have hnot : prototype ∉ pool.data := fun hmem => hleaf (h.own leaf prototype hown hmem)
  unfold Pool.pin
  rw [h.getMemorySize_of_own hown]
  refine ⟨prototype, _, rfl, h.alloc hown hleaf hused htime device (fun _ => ⟨rfl, rfl, rfl⟩) ?_ ?_⟩
  · show (pool.arena prototype).refCounter + 1 = _
    rw [h.untouched prototype hnot, ← d.counter leaf prototype hown, hpinned]
    rfl
  · intro s s' heq
    show s.refCounter + 1 = s'.refCounter + 1
    rw [heq]

/-- The tokens of an expression: they are different, and none of them was busy. -/
theorem takeTokens (take : Nat → Pool δ → Option (Nat × Pool δ)) {leaves prototypes : List Nat}
    {e : Nat} (htake : ∀ k placed pool prototype, Pooled d placed used pool → d.own (e, k) prototype →
      (e, k) ∉ placed.map Entry.value → ∃ tok pool', take prototype pool = some (tok, pool') ∧
        Taken d placed used t pool (e, k) tok pool')
    (hown : List.Forall₂ (fun k tok => d.own (e, k) tok) leaves prototypes)
    (hleaves : ∀ k ∈ leaves, (e, k) ∉ placed.map Entry.value) (hdistinct : leaves.Nodup)
    (h : Pooled d placed used pool) (acc : List Nat) :
    ∃ tokens entries pool', Lowered.takeTokens take prototypes (acc, pool) = some (acc ++ tokens, pool') ∧
      Pooled d (entries ++ placed) used pool' ∧
      (∀ x ∈ entries, x.value.1 = e ∧ x.value.2 ∈ leaves ∧ x.time = t) ∧
      List.Forall₂ (fun k tok => ⟨(e, k), tok, t⟩ ∈ entries) leaves tokens ∧ tokens.Nodup ∧
      (∀ tok ∈ tokens, tok ∉ pool'.free.map Prod.snd ∧ (tok ∈ pool.data → tok ∈ pool.free.map Prod.snd)) ∧
      ∀ tok ∈ pool'.free.map Prod.snd, tok ∈ pool.free.map Prod.snd := by
  unfold Lowered.takeTokens
  induction hown generalizing placed pool acc with
  | nil => exact ⟨[], [], pool, by simp, h, by simp, .nil, .nil, by simp, fun _ h => h⟩
  | @cons k prototype leaves prototypes hk _ ih =>
    obtain ⟨hnotk, hdistinct⟩ := List.nodup_cons.mp hdistinct
    obtain ⟨tok, pool₁, hrun₁, h₁⟩ := htake k placed pool prototype h hk (hleaves k List.mem_cons_self)
    obtain ⟨tokens, entries, pool₂, hrun₂, h₂, hentries, hall, hnodup, hbusy, hfree⟩ := ih
      (fun k' hk' hmem => by
        rw [List.map_cons, List.mem_cons] at hmem
        cases hmem with
        | inl heq => exact hnotk ((Prod.mk.inj heq).2 ▸ hk')
        | inr hmem => exact hleaves k' (List.mem_cons_of_mem _ hk') hmem) hdistinct h₁.pooled (acc ++ [tok])
    have hnot : tok ∉ tokens := by
      intro hmem
      exact h₁.busy ((hbusy tok hmem).2 (h₁.pooled.stored _ List.mem_cons_self))
    refine ⟨tok :: tokens, entries ++ [⟨(e, k), tok, t⟩], pool₂, ?_, ?_, fun x hx => ?_, .cons ?_ ?_,
      List.nodup_cons.mpr ⟨hnot, hnodup⟩, fun tok' hmem => ?_, fun tok' hmem => h₁.free tok' (hfree tok' hmem)⟩
    · rw [List.foldlM_cons]
      simp only [hrun₁, Option.bind_eq_bind, Option.bind_some]
      rw [List.append_cons acc tok tokens]
      exact hrun₂
    · rwa [List.append_assoc]
    · cases List.mem_append.mp hx with
      | inl hx =>
        obtain ⟨hvalue, hmem, htime⟩ := hentries x hx
        exact ⟨hvalue, List.mem_cons_of_mem _ hmem, htime⟩
      | inr hx =>
        rw [List.mem_singleton.mp hx]
        exact ⟨rfl, List.mem_cons_self, rfl⟩
    · exact List.mem_append_right _ (List.mem_singleton_self _)
    · exact hall.imp fun k' tok' hmem => List.mem_append_left _ hmem
    · cases List.mem_cons.mp hmem with
      | inl heq =>
        rw [heq]
        exact ⟨fun hmem => h₁.busy (hfree tok hmem), h₁.fresh⟩
      | inr hmem =>
        obtain ⟨hnotfree, hold⟩ := hbusy tok' hmem
        exact ⟨hnotfree, fun hdata => h₁.free tok' (hold (h₁.data tok' hdata))⟩

/-- The checks of `CheckForRelease` never fail. -/
theorem checkForRelease (h : Pooled d placed used pool) (hmem : tok ∈ pool.data)
    (hbusy : tok ∉ pool.free.map Prod.snd) : ∃ pool', pool.checkForRelease tok = some pool' ∧
      Pooled d placed used pool' ∧ pool'.data = pool.data ∧
      ∀ tok' ∈ pool'.free.map Prod.snd, tok' ∈ pool.free.map Prod.snd ∨ tok' = tok := by
  obtain ⟨x, hx, hblock, -⟩ := h.first tok hmem
  have hcount := h.accounted.count_nonneg hx
  rw [hblock] at hcount
  obtain ⟨k, hk⟩ := List.mem_iff_getElem?.mp hmem
  have hid := (h.ids tok k).mpr hk
  unfold Pool.checkForRelease
  rw [if_neg (by simp [hid]; exact hcount)]
  split
  · rename_i hzero
    have hperm := List.perm_orderedInsert (fun entry entry' : Nat × Nat => entry.1 < entry'.1)
      ((pool.arena tok).maxBytes, tok) pool.free
    refine ⟨_, rfl, ⟨h.accounted, h.stored, h.ids, h.untouched, h.ttype, h.own, h.first, h.largest, h.roomy,
      ?_, fun entry hentry => ?_⟩, rfl, fun tok' htok' => ?_⟩
    · show ((List.orderedInsert _ _ pool.free).map Prod.snd).Nodup
      rw [(hperm.map Prod.snd).nodup_iff, List.map_cons, List.nodup_cons]
      exact ⟨hbusy, h.nodup⟩
    · cases List.mem_cons.mp (hperm.mem_iff.mp hentry) with
      | inl heq =>
        rw [heq]
        exact ⟨hmem, hzero⟩
      | inr hentry => exact h.free entry hentry
    · cases List.mem_cons.mp ((hperm.map Prod.snd).mem_iff.mp htok') with
      | inl heq => exact Or.inr heq
      | inr htok' => exact Or.inl htok'
  · exact ⟨pool, rfl, h, rfl, fun _ h => Or.inl h⟩

theorem releaseOutputs (h : Pooled d placed used pool) (tokens : List Nat) (hnodup : tokens.Nodup)
    (hmem : ∀ tok ∈ tokens, tok ∈ pool.data) (hbusy : ∀ tok ∈ tokens, tok ∉ pool.free.map Prod.snd) :
    ∃ pool', tokens.foldlM Pool.checkForRelease pool = some pool' ∧ Pooled d placed used pool' := by
  induction tokens generalizing pool with
  | nil => exact ⟨pool, rfl, h⟩
  | cons tok tokens ih =>
    obtain ⟨hnot, hnodup⟩ := List.nodup_cons.mp hnodup
    obtain ⟨pool₁, hrun₁, h₁, hdata, hfree⟩ :=
      h.checkForRelease (hmem tok List.mem_cons_self) (hbusy tok List.mem_cons_self)
    obtain ⟨pool₂, hrun₂, h₂⟩ := ih h₁ hnodup
      (fun tok' htok' => by
        rw [hdata]
        exact hmem tok' (List.mem_cons_of_mem _ htok'))
      (fun tok' htok' hmem' => by
        cases hfree tok' hmem' with
        | inl hmem' => exact hbusy tok' (List.mem_cons_of_mem _ htok') hmem'
        | inr heq => exact hnot (heq ▸ htok'))
    refine ⟨pool₂, ?_, h₂⟩
    rw [List.foldlM_cons, hrun₁]
    exact hrun₂

/-- Only the counter of a block that is not free is changed. -/
theorem recount {placed' : List (Entry Leaf Nat (List Nat))} {used' : Leaf → Nat} {f : Storage δ → Storage δ}
    (h : Pooled d placed used pool) (hmem : tok ∈ pool.data) (hbusy : tok ∉ pool.free.map Prod.snd)
    (hf : ∀ s, (f s).storageId = s.storageId ∧ (f s).maxBytes = s.maxBytes ∧ (f s).ttype = s.ttype)
    (hold : ∀ x ∈ placed, x ∈ placed')
    (hnew : ∀ x ∈ placed', x ∈ placed ∨ (x.block = tok ∧ d.size x.value ≤ (pool.arena tok).maxBytes))
    (haccounted : Accounted d.refs d.usedAt d.related placed' used' fun tok' =>
      ((pool.modify tok f).arena tok').refCounter) : Pooled d placed' used' (pool.modify tok f) := by
  have hsame : ∀ tok', ((pool.modify tok f).arena tok').storageId = (pool.arena tok').storageId ∧
      ((pool.modify tok f).arena tok').maxBytes = (pool.arena tok').maxBytes ∧
      ((pool.modify tok f).arena tok').ttype = (pool.arena tok').ttype := by
    intro tok'
    by_cases hne : tok' = tok
    · rw [hne, Pool.modify_self]
      exact hf _
    · rw [Pool.modify_of_ne f hne]
      exact ⟨rfl, rfl, rfl⟩
  refine ⟨haccounted, fun x hx => ?_, fun tok' k => ?_, fun tok' hnot => ?_, fun tok' => ?_,
    fun leaf tok' hown hmem' => ?_, fun tok' hmem' => ?_, fun tok' hmem' => ?_, fun x hx => ?_, h.nodup,
    fun entry hentry => ?_⟩
  · cases hnew x hx with
    | inl hx => exact h.stored x hx
    | inr hx =>
      rw [hx.1]
      exact hmem
  · rw [(hsame tok').1]
    exact h.ids tok' k
  · rw [Pool.modify_of_ne f (ne_of_mem_of_not_mem hmem hnot).symm]
    exact h.untouched tok' hnot
  · rw [(hsame tok').2.2]
    exact h.ttype tok'
  · obtain ⟨x, hx, heq⟩ := List.mem_map.mp (h.own leaf tok' hown hmem')
    rw [← heq]
    exact List.mem_map_of_mem (hold x hx)
  · obtain ⟨x, hx, hrest⟩ := h.first tok' hmem'
    exact ⟨x, hold x hx, hrest⟩
  · obtain ⟨x, hx, hrest⟩ := h.largest tok' hmem'
    rw [(hsame tok').2.1]
    exact ⟨x, hold x hx, hrest⟩
  · rw [(hsame x.block).2.1]
    cases hnew x hx with
    | inl hx => exact h.roomy x hx
    | inr hx =>
      rw [hx.1]
      exact hx.2
  · have hne : entry.2 ≠ tok := fun heq => hbusy (heq ▸ List.mem_map_of_mem hentry)
    rw [Pool.modify_of_ne f hne]
    exact h.free entry hentry

/-- A block with a tensor that is still to be read is not free. -/
theorem busy (h : Pooled d placed used pool) {x : Entry Leaf Nat (List Nat)} (hx : x ∈ placed)
    (hlt : used x.value < d.refs x.value) : x.block ∉ pool.free.map Prod.snd := by
  intro hmem
  obtain ⟨entry, hentry, heq⟩ := List.mem_map.mp hmem
  have hpos := h.accounted.count_pos hx hlt
  have hzero := (h.free entry hentry).2
  rw [heq] at hzero
  omega

/-- A read of a tensor that is still to be read. -/
theorem release (h : Pooled d placed used pool) {x : Entry Leaf Nat (List Nat)} (hx : x ∈ placed)
    (hlt : used x.value < d.refs x.value) : ∃ pool', pool.release x.block = some pool' ∧
      Pooled d placed (Function.update used x.value (used x.value + 1)) pool' := by
  have hbusy := h.busy hx hlt
  have hmem := h.stored x hx
  unfold Pool.release
  have h₁ := h.recount (f := fun tok => { tok with refCounter := tok.refCounter - 1 }) hmem hbusy
    (fun _ => ⟨rfl, rfl, rfl⟩) (fun _ h => h) (fun _ h => Or.inl h)
    (h.accounted.use hx hlt (by simp) fun y _ hne => by rw [Pool.modify_of_ne _ hne])
  obtain ⟨pool', hrun, h', -⟩ := h₁.checkForRelease hmem hbusy
  exact ⟨pool', hrun, h'⟩

/-- The result of a reshape joins the block of its argument. -/
theorem share (h : Pooled d placed used pool) (hown : d.own leaf prototype)
    (hleaf : leaf ∉ placed.map Entry.value) (hused : used leaf = 0) (htime : d.usedAt t = used)
    (hpinned : d.pinned leaf = 0) {x : Entry Leaf Nat (List Nat)} (hx : x ∈ placed)
    (hlt : used x.value < d.refs x.value) (hrelated : d.related leaf x.value)
    (hsize : d.size leaf ≤ d.size x.value) :
    Pooled d (⟨leaf, x.block, t⟩ :: placed) used (pool.modify x.block fun tok =>
      { tok with refCounter := tok.refCounter + (pool.arena prototype).refCounter }) := by
  have hnot : prototype ∉ pool.data := fun hmem => hleaf (h.own leaf prototype hown hmem)
  have hcounter : (pool.arena prototype).refCounter = d.refs leaf := by
    rw [h.untouched prototype hnot, ← d.counter leaf prototype hown, hpinned]
    simp
  refine h.recount (h.stored x hx) (h.busy hx hlt) (fun _ => ⟨rfl, rfl, rfl⟩)
    (fun _ h => List.mem_cons_of_mem _ h) ?_ ?_
  · intro y hy
    cases List.mem_cons.mp hy with
    | inl heq =>
      rw [heq]
      exact Or.inr ⟨rfl, hsize.trans (h.roomy x hx)⟩
    | inr hy => exact Or.inl hy
  · apply h.accounted.share d.equivalence hleaf hused htime hx hlt hrelated
    · simp [hcounter]
    · intro y _ hne
      rw [Pool.modify_of_ne _ hne]

end Pooled

end StencilGraph.Plan

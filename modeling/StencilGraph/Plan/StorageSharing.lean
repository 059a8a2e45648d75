import StencilGraph.Plan.RefCounts
import StencilGraph.Plan.StoragePool

namespace StencilGraph.Plan
open Framework.RefCount

/-- A function with static shapes, whose reshapes keep the size of their argument. -/
structure LoweredProgram (δ : Type) extends Program TensorType where
  virtualDevice : Nat → δ
  reshapeOnly : Nat → Bool
  sized : ∀ e, ∀ ttype ∈ flattenTupleType (checkedType e), ∃ size, getMemorySize ttype = some size
  reshape : ∀ e, reshapeOnly e = true → ∃ t x ttype ttype', node e = .call [t] ∧ node t = .tuple [x] ∧
    checkedType e = .tensor ttype ∧ checkedType x = .tensor ttype' ∧
    getMemorySize ttype = getMemorySize ttype'

namespace LoweredProgram

variable {δ : Type} (p : LoweredProgram δ)

def sizeOf (leaf : Leaf) : Nat :=
  ((flattenTupleType (p.checkedType leaf.1))[leaf.2]?.bind getMemorySize).getD 0

/-- The first tensor is the result of a reshape of the second one. -/
def Reshape (leaf leaf' : Leaf) : Prop :=
  p.reshapeOnly leaf.1 = true ∧ leaf.2 = 0 ∧ ((callArgs p.toFunc leaf.1).flatMap p.leaves)[0]? = some leaf'

/-- Both tensors come from one by chains of reshapes. -/
def SameOrigin : Leaf → Leaf → Prop := Relation.Join (Relation.ReflTransGen p.Reshape)

theorem sameOrigin_equivalence : Equivalence p.SameOrigin := by
  apply Relation.equivalence_join_reflTransGen
  intro a b c hab hac
  obtain rfl := Option.some.inj (hab.2.2.symm.trans hac.2.2)
  exact ⟨b, .refl, .refl⟩

/-- The storage of parameters and constants is never given back. -/
def pinned (leaf : Leaf) : Nat :=
  if p.node leaf.1 = .var ∨ p.node leaf.1 = .constant then 1 else 0

def refs (visited : List Nat) (leaf : Leaf) : Nat :=
  p.usesOf visited leaf + (p.leaves p.body).count leaf + p.pinned leaf

theorem initialArena_counter {arena : List (StorageToken TensorType)} {tok : Nat}
    {token : StorageToken TensorType} (h : arena[tok]? = some token) :
    (initialArena arena tok : Storage δ) = ⟨token.ttype, token.refCounter, 0, none, none⟩ := by
  unfold initialArena
  rw [h]

/-- What the first pass found out. -/
def demand {st : State TensorType}
    (h : Tallied p.toProgram (fun leaf => (p.leaves p.body).count leaf) st) : Demand δ where
  refs := p.refs st.visited
  pinned := p.pinned
  usedAt := p.usesOf
  related := p.SameOrigin
  size := p.sizeOf
  initial := initialArena st.arena
  own leaf tok := Source p.toProgram leaf.1 ∧ Holds st leaf tok
  equivalence := p.sameOrigin_equivalence
  own_unique leaf leaf' tok ho ho' := h.injective leaf leaf' tok ho.1 ho'.1 ho.2 ho'.2
  counter leaf tok ho := by
    obtain ⟨token, htoken, -, hcount⟩ := h.token leaf tok ho.1 ho.2
    rw [initialArena_counter htoken]
    show (token.refCounter : Int) + p.pinned leaf = _
    rw [hcount]
    rfl
  ttype leaf tok ho := by
    obtain ⟨token, htoken, htype, -⟩ := h.token leaf tok ho.1 ho.2
    obtain ⟨size, hsize⟩ := p.sized leaf.1 token.ttype (List.mem_of_getElem? htype)
    rw [initialArena_counter htoken]
    simp [sizeOf, htype, hsize]
  unallocated tok := by
    unfold initialArena
    split <;> rfl

end LoweredProgram

section Uses

variable {τ : Type} {xs ys : List Nat}

theorem flattenFields_eq (types : List (Ty τ)) : flattenFields types = types.flatMap flattenTupleType := by
  induction types with
  | nil => rfl
  | cons type types ih => rw [flattenFields, ih, List.flatMap_cons]

/-- The tensors of a field are those of its type. -/
theorem fieldOf_flattenFields (types : List (Ty τ)) (i : Nat) (type : Ty τ) (hi : types[i]? = some type) :
    fieldOf types i (flattenFields types) = flattenTupleType type := by
  obtain ⟨hlt, rfl⟩ := List.getElem?_eq_some_iff.mp hi
  have hsplit : types = types.take i ++ types[i] :: types.drop (i + 1) := by
    rw [List.getElem_cons_drop, List.take_append_drop]
  have hoffset : offset types i = (flattenFields (types.take i)).length := by
    rw [flattenFields_eq, List.length_flatMap]
    rfl
  have hflat : flattenFields types = flattenFields (types.take i) ++
      (flattenTupleType types[i] ++ flattenFields (types.drop (i + 1))) := by
    conv_lhs => rw [hsplit]
    simp only [flattenFields_eq, List.flatMap_append, List.flatMap_cons]
  unfold fieldOf
  rw [hi]
  simp only [hoffset, width]
  rw [hflat, List.drop_left, List.take_left]

/-- The tensors of an expression have the types of the expression. -/
theorem Program.leaves_types (p : Program τ) (e : Nat) :
    List.Forall₂ (fun leaf ttype => (flattenTupleType (p.checkedType leaf.1))[leaf.2]? = some ttype)
      (p.leaves e) (flattenTupleType (p.checkedType e)) := by
  induction e using Nat.strong_induction_on with
  | h e ih =>
    have hown : List.Forall₂
        (fun leaf ttype => (flattenTupleType (p.checkedType leaf.1))[leaf.2]? = some ttype)
        (p.own e) (flattenTupleType (p.checkedType e)) := by
      rw [List.forall₂_iff_get]
      exact ⟨p.length_own e, fun k hk hk' => by simp [Program.own]⟩
    have hchild (c : Nat) (hc : c ∈ (p.node e).children) := ih c (p.forward e c hc)
    rw [leaves_eq]
    cases hnode : p.node e with
    | var =>
      cases hbound : p.binding e with
      | none => exact hown
      | some value =>
        obtain ⟨hlt, -, htype⟩ := p.bound e value hbound
        rw [htype]
        exact ih value hlt
    | constant => exact hown
    | call args => exact hown
    | tuple fields =>
      rw [p.tuple e fields hnode]
      show List.Forall₂ _ (fields.flatMap p.leaves) (flattenFields (fields.map p.checkedType))
      rw [hnode] at hchild
      have hall : ∀ field ∈ fields, _ := hchild
      clear hchild hnode hown ih
      induction fields with
      | nil => exact .nil
      | cons field fields ihf =>
        exact List.rel_append (hall field List.mem_cons_self)
          (ihf fun c hc => hall c (List.mem_cons_of_mem _ hc))
    | tupleGetItem t i =>
      obtain ⟨types, htypes, htype⟩ := p.tupleGetItem e t i hnode
      have ht := hchild t (by rw [hnode]; exact List.mem_singleton_self t)
      rw [htypes] at ht
      simp only [htypes]
      rw [← fieldOf_flattenFields types i _ htype]
      exact forall₂_fieldOf types i ht
    | letIn v x b =>
      rw [(p.letIn e v x b hnode).2]
      exact hchild b (by rw [hnode]; exact List.mem_cons_of_mem _ (List.mem_singleton_self b))
    | onDevice b isFixed =>
      rw [(p.onDevice e b isFixed hnode).1]
      exact hchild b (by rw [hnode]; exact List.mem_singleton_self b)

theorem Program.usesOf_append (p : Program τ) (xs ys : List Nat) (leaf : Leaf) :
    p.usesOf (xs ++ ys) leaf = p.usesOf xs leaf + p.usesOf ys leaf := by
  simp [usesOf]

/-- Different calls of a list are read off a larger one. -/
theorem Program.usesOf_le (p : Program τ) (hnodup : xs.Nodup) (hsub : ∀ e ∈ xs, e ∈ ys) (leaf : Leaf) :
    p.usesOf xs leaf ≤ p.usesOf ys leaf := by
  obtain ⟨zs, hperm, hzs⟩ := List.subperm_of_subset hnodup hsub
  have hsum : p.usesOf zs leaf = p.usesOf xs leaf := (hperm.map _).sum_eq
  rw [← hsum]
  exact (hzs.map _).sum_le_sum fun _ _ => Nat.zero_le _

end Uses

/-- When the tensors of the blocks were computed. -/
structure Timed (p : Program TensorType) (placed : List (Entry Leaf Nat (List Nat)))
    (visited : List Nat) : Prop where
  source : ∀ x ∈ placed, Source p x.value.1
  evaluated : ∀ x ∈ placed, (x.value.1 ∈ p.params ∧ x.time = []) ∨
    (x.value.1 ∉ p.params ∧ x.value.1 :: x.time <:+ visited)
  ordered : placed.Pairwise fun new old =>
    old.value.1 ∈ p.params ∨ old.value.1 = new.value.1 ∨ old.value.1 ∈ new.time

variable {δ : Type} {p : Program TensorType} {d : Demand δ}
  {placed entries : List (Entry Leaf Nat (List Nat))} {visited tokens leaves : List Nat} {e : Nat}
  {st st' : Allocation δ} {pool : Pool δ} {used : Leaf → Nat}

theorem Timed.mark (h : Timed p placed visited) (e : Nat) : Timed p placed (e :: visited) :=
  ⟨h.source, fun x hx => (h.evaluated x hx).imp id fun hx => ⟨hx.1, hx.2.trans (List.suffix_cons e visited)⟩,
    h.ordered⟩

/-- The tensors of one more expression. -/
theorem Timed.append {visited' : List Nat} (h : Timed p placed visited) (hs : Source p e)
    (hentries : ∀ x ∈ entries, x.value.1 = e ∧ x.time = visited) (hvisited : visited <:+ visited')
    (he : (e ∈ p.params ∧ visited = []) ∨ (e ∉ p.params ∧ e :: visited <:+ visited')) :
    Timed p (entries ++ placed) visited' := by
  refine ⟨fun x hx => ?_, fun x hx => ?_, List.pairwise_append.mpr ⟨?_, h.ordered, fun new hnew old hold => ?_⟩⟩
  · cases List.mem_append.mp hx with
    | inl hx =>
      rw [(hentries x hx).1]
      exact hs
    | inr hx => exact h.source x hx
  · cases List.mem_append.mp hx with
    | inl hx =>
      rw [(hentries x hx).1, (hentries x hx).2]
      exact he
    | inr hx => exact (h.evaluated x hx).imp id fun hx => ⟨hx.1, hx.2.trans hvisited⟩
  · apply List.pairwise_of_forall_mem_list
    intro new hnew old hold
    rw [(hentries new hnew).1, (hentries old hold).1]
    exact Or.inr (Or.inl rfl)
  · rw [(hentries new hnew).2]
    cases h.evaluated old hold with
    | inl hold => exact Or.inl hold.1
    | inr hold => exact Or.inr (Or.inr (hold.2.subset List.mem_cons_self))

/-- The state between two visits. -/
structure Allocated (p : Program TensorType) (d : Demand δ) (placed : List (Entry Leaf Nat (List Nat)))
    (st : Allocation δ) : Prop where
  pooled : Pooled d placed (p.usesOf st.visited) st.toPool
  timed : Timed p placed st.visited
  holds : ∀ leaf tok, Source p leaf.1 → (Holds st.maps leaf tok ↔ ∃ t, ⟨leaf, tok, t⟩ ∈ placed)
  distinct : ∀ e l, Source p e → st.tokenMap e = some l → l.Nodup

/-- The state when an expression has got its tokens. -/
structure Extended (p : Program TensorType) (d : Demand δ) (placed entries : List (Entry Leaf Nat (List Nat)))
    (e : Nat) (tokens : List Nat) (st st' : Allocation δ) : Prop where
  tokenMap : st'.tokenMap = Function.update st.tokenMap e (some tokens)
  visited : st'.visited = st.visited
  pooled : Pooled d (entries ++ placed) (p.usesOf st.visited) st'.toPool
  current : ∀ x ∈ entries, x.value.1 = e ∧ x.value.2 < width (p.checkedType e) ∧ x.time = st.visited
  leaves : List.Forall₂ (fun k tok => ⟨(e, k), tok, st.visited⟩ ∈ entries)
    (List.range (width (p.checkedType e))) tokens
  distinct : tokens.Nodup
  busy : ∀ tok ∈ tokens, tok ∉ st'.free.map Prod.snd

namespace Extended

theorem length (h : Extended p d placed entries e tokens st st') :
    tokens.length = width (p.checkedType e) := by
  simpa using h.leaves.length_eq.symm

theorem stored (h : Extended p d placed entries e tokens st st') : ∀ tok ∈ tokens, tok ∈ st'.data := by
  intro tok htok
  obtain ⟨k, hk, rfl⟩ := List.getElem_of_mem htok
  have hleaves := h.leaves
  rw [List.forall₂_iff_get] at hleaves
  exact h.pooled.stored _ (List.mem_append_left _ (hleaves.2 k (hleaves.1 ▸ hk) hk))

/-- The invariant holds again, of the state with the new tokens and a pool of the same blocks. -/
theorem allocated (h : Extended p d placed entries e tokens st st') (ha : Allocated p d placed st)
    (hs : Source p e) (hnone : st.tokenMap e = none) {st'' : Allocation δ}
    (hmap : st''.tokenMap = st'.tokenMap) (hpooled : Pooled d (entries ++ placed) used st''.toPool)
    (hused : used = p.usesOf st''.visited) (hvisited : st.visited <:+ st''.visited)
    (he : (e ∈ p.params ∧ st.visited = []) ∨ (e ∉ p.params ∧ e :: st.visited <:+ st''.visited)) :
    Allocated p d (entries ++ placed) st'' := by
  have hother {leaf : Leaf} (hne : leaf.1 ≠ e) (tok : Nat) :
      Holds st''.maps leaf tok ↔ Holds st.maps leaf tok := by
    unfold Holds Allocation.maps
    simp only [hmap, h.tokenMap, Function.update_of_ne hne]
  have hself : st''.tokenMap e = some tokens := by
    rw [hmap, h.tokenMap, Function.update_self]
  have hleaves := h.leaves
  rw [List.forall₂_iff_get] at hleaves
  refine ⟨hused ▸ hpooled, ha.timed.append hs (fun x hx => ⟨(h.current x hx).1, (h.current x hx).2.2⟩)
    hvisited he, fun leaf tok hleaf => ?_, fun e' l hs' hl => ?_⟩
  · by_cases hne : leaf.1 = e
    · obtain ⟨e', k⟩ := leaf
      obtain rfl : e' = e := hne
      constructor
      · rintro ⟨l, hl, htok⟩
        obtain rfl := Option.some.inj (hself.symm.trans hl)
        obtain ⟨hk, rfl⟩ := List.getElem?_eq_some_iff.mp htok
        have hmem := hleaves.2 k (hleaves.1 ▸ hk) hk
        simp only [List.get_eq_getElem, List.getElem_range] at hmem
        exact ⟨_, List.mem_append_left _ hmem⟩
      · rintro ⟨t, hx⟩
        have hk : k < width (p.checkedType e') := by
          cases List.mem_append.mp hx with
          | inl hx => exact (h.current _ hx).2.1
          | inr hx =>
            obtain ⟨l, hl, -⟩ := (ha.holds (e', k) tok hleaf).mpr ⟨t, hx⟩
            exact absurd (hnone.symm.trans hl) (by simp)
        have hlt : k < tokens.length := h.length ▸ hk
        have hmem := hleaves.2 k (by simpa using hk) hlt
        simp only [List.get_eq_getElem, List.getElem_range] at hmem
        -- a tensor has one entry
        have heq := List.inj_on_of_nodup_map hpooled.accounted.nodup hx (List.mem_append_left _ hmem) rfl
        cases heq
        exact ⟨tokens, hself, List.getElem?_eq_getElem hlt⟩
    · rw [hother hne, ha.holds leaf tok hleaf]
      constructor
      · rintro ⟨t, hx⟩
        exact ⟨t, List.mem_append_right _ hx⟩
      · rintro ⟨t, hx⟩
        cases List.mem_append.mp hx with
        | inl hx => exact absurd (h.current _ hx).1 hne
        | inr hx => exact ⟨t, hx⟩
  · by_cases hne : e' = e
    · rw [hne, hself] at hl
      rw [← Option.some.inj hl]
      exact h.distinct
    · rw [hmap, h.tokenMap, Function.update_of_ne hne] at hl
      exact ha.distinct e' l hs' hl

end Extended

namespace Allocated

theorem not_placed (h : Allocated p d placed st) (hs : Source p e) (hnone : st.tokenMap e = none) (k : Nat) :
    (e, k) ∉ placed.map Entry.value := by
  intro hmem
  obtain ⟨x, hx, heq⟩ := List.mem_map.mp hmem
  obtain ⟨l, hl, -⟩ := (h.holds (e, k) x.block hs).mpr ⟨x.time, by rw [← heq]; exact hx⟩
  exact absurd (hnone.symm.trans hl) (by simp)

theorem record (h : Allocated p d placed st) (hs : ¬ Source p e) (l : List Nat) :
    Allocated p d placed (st.record e l) := by
  have hother (e' : Nat) (hs' : Source p e') : (st.record e l).tokenMap e' = st.tokenMap e' :=
    Function.update_of_ne (fun heq : e' = e => hs (heq ▸ hs')) _ _
  refine ⟨h.pooled, h.timed, fun leaf tok hleaf => ?_, fun e' l' hs' hl => ?_⟩
  · rw [← h.holds leaf tok hleaf]
    unfold Holds Allocation.maps
    simp only [hother leaf.1 hleaf]
  · rw [hother e' hs'] at hl
    exact h.distinct e' l' hs' hl

theorem mark (h : Allocated p d placed st) (huses : ∀ leaf, p.uses e leaf = 0) :
    Allocated p d placed (st.mark e) := by
  refine ⟨?_, h.timed.mark e, h.holds, h.distinct⟩
  have hused : p.usesOf (st.mark e).visited = p.usesOf st.visited := by
    funext leaf
    show p.uses e leaf + p.usesOf st.visited leaf = _
    rw [huses, Nat.zero_add]
  rw [hused]
  exact h.pooled

end Allocated

/-- The result of the first pass. -/
structure FirstPass (p : LoweredProgram δ) (proto : State TensorType) : Prop where
  structural : Structural p.toProgram proto
  visited : ∀ e, e ∈ proto.visited ↔ Reach p.toFunc e
  params : ∀ e ∈ p.params, ∃ l, proto.tokenMap e = some l
  tallied : Tallied p.toProgram (fun leaf => (p.leaves p.body).count leaf) proto

/-- What the second pass works on. -/
def LoweredProgram.lowered (p : LoweredProgram δ) (proto : State TensorType) : Lowered δ :=
  ⟨p.toFunc, p.virtualDevice, p.reshapeOnly, proto.tokenMap⟩

section SecondPass

variable {p : LoweredProgram δ} {proto : State TensorType}

theorem FirstPass.recorded (hf : FirstPass p proto) (hc : Created p.toProgram e) (hreach : Reach p.toFunc e) :
    ∃ l, proto.tokenMap e = some l :=
  hf.structural.created e ((hf.visited e).mpr hreach) hc

theorem pinned_eq_zero (hc : Created p.toProgram e) (hconst : p.node e ≠ .constant) (k : Nat) :
    p.pinned (e, k) = 0 := by
  unfold LoweredProgram.pinned
  apply if_neg
  rw [not_or]
  refine ⟨?_, hconst⟩
  rcases hc with hc | ⟨args, hc⟩ | ⟨b, hc⟩ <;> simp [hc]

/-- The second pass finds a block for each tensor of an expression. -/
theorem Allocated.createToken [DecidableEq δ] (hf : FirstPass p proto)
    (h : Allocated p.toProgram (p.demand hf.tallied) placed st) (hstruct : Structural p.toProgram st.maps)
    (hplain : AllPlain p.toProgram) (hs : Source p.toProgram e) (hnone : st.tokenMap e = none)
    (hrecorded : ∃ l, proto.tokenMap e = some l) (canRealloc : Bool)
    (hpinned : ∀ k, p.pinned (e, k) = if canRealloc then 0 else 1) :
    ∃ tokens entries st', (p.lowered proto).createToken canRealloc e st = some st' ∧
      Extended p.toProgram (p.demand hf.tallied) placed entries e tokens st st' := by
  obtain ⟨prototypes, hl⟩ := hrecorded
  have hlength := hf.structural.own e prototypes hs hl
  have hown : List.Forall₂ (fun k tok => (p.demand hf.tallied).own (e, k) tok)
      (List.range (width (p.checkedType e))) prototypes := by
    rw [List.forall₂_iff_get]
    refine ⟨by simp [hlength], fun k hk hk' => ⟨hs, prototypes, ?_, ?_⟩⟩
    · exact hl
    · simp
  have hused : ∀ k, p.usesOf st.visited (e, k) = 0 := fun k => usesOf_eq_zero hstruct hplain hnone
  unfold Lowered.createToken
  rw [hnone]
  have hproto : (p.lowered proto).prototype e = some prototypes := hl
  simp only [hproto, Option.bind_eq_bind, Option.bind_some]
  obtain ⟨tokens, entries, pool, hrun, hpooled, hentries, hall, hnodup, hbusy, -⟩ :=
    h.pooled.takeTokens (t := st.visited) (e := e) (fun prototype pool =>
        if canRealloc then pool.request prototype (p.virtualDevice e)
        else pool.pin prototype (p.virtualDevice e))
      (fun k placed pool prototype hpooled hown hnot => by
        cases hcan : canRealloc with
        | true => exact hpooled.request hown hnot (hused k) rfl ((hpinned k).trans (by simp [hcan])) _
        | false => exact hpooled.pin hown hnot (hused k) rfl ((hpinned k).trans (by simp [hcan])) _)
      hown (fun k _ => h.not_placed hs hnone k) List.nodup_range []
  refine ⟨tokens, entries, Allocation.record e tokens { st with toPool := pool }, ?_, rfl, rfl, hpooled,
    fun x hx => ?_, hall, hnodup, fun tok htok => (hbusy tok htok).1⟩
  · have hrun' : Lowered.takeTokens (fun prototype pool => if canRealloc then
        pool.request prototype ((p.lowered proto).virtualDevice e)
        else pool.pin prototype ((p.lowered proto).virtualDevice e)) prototypes ([], st.toPool) =
        some (tokens, pool) := hrun
    rw [hrun']
    rfl
  · obtain ⟨hvalue, hmem, htime⟩ := hentries x hx
    exact ⟨hvalue, List.mem_range.mp hmem, htime⟩

/-- What a call reads is counted in its references. -/
theorem uses_le (hf : FirstPass p proto) (hstruct : Structural p.toProgram st.maps)
    (hreach : Reach p.toFunc e) (hnot : e ∉ st.visited) (leaf : Leaf) :
    p.usesOf st.visited leaf + p.uses e leaf ≤ (p.demand hf.tallied).refs leaf := by
  have hnodup : (e :: st.visited).Nodup := List.nodup_cons.mpr ⟨hnot, hstruct.nodup⟩
  have hsub : ∀ c ∈ e :: st.visited, c ∈ proto.visited := by
    intro c hc
    rw [hf.visited]
    cases List.mem_cons.mp hc with
    | inl heq => exact heq ▸ hreach
    | inr hc => exact hstruct.reach c hc
  have hle := p.usesOf_le hnodup hsub leaf
  show _ ≤ p.usesOf proto.visited leaf + (p.leaves p.body).count leaf + p.pinned leaf
  have hcons : p.usesOf (e :: st.visited) leaf = p.uses e leaf + p.usesOf st.visited leaf := rfl
  omega

/-- The tokens of the arguments are the blocks of the tensors that are read. -/
theorem Allocated.argTokens (h : Allocated p.toProgram d placed st)
    (hstruct : Structural p.toProgram st.maps) (hplain : AllPlain p.toProgram) {args : List Nat}
    {ls : List (List Nat)}
    (hls : List.Forall₂ (fun c l => st.tokenMap (p.real c) = some l) args ls) :
    List.Forall₂ (fun leaf tok => ∃ t, ⟨leaf, tok, t⟩ ∈ placed) (args.flatMap p.leaves) ls.flatten := by
  induction hls with
  | nil => exact .nil
  | cons hc _ ih =>
    apply List.rel_append _ ih
    exact (hstruct.holds hplain hc).imp fun leaf tok hl => (h.holds leaf tok hl.1).mp hl.2

/-- The reads of a call. -/
theorem Pooled.releaseArgs {leaves : List Leaf} (h : Pooled d placed used pool)
    (hargs : List.Forall₂ (fun leaf tok => ∃ t, ⟨leaf, tok, t⟩ ∈ placed) leaves tokens)
    (hle : ∀ leaf, used leaf + leaves.count leaf ≤ d.refs leaf) :
    ∃ pool', tokens.foldlM Pool.release pool = some pool' ∧
      Pooled d placed (fun leaf => used leaf + leaves.count leaf) pool' := by
  induction hargs generalizing used pool with
  | nil => exact ⟨pool, rfl, h⟩
  | @cons leaf tok leaves tokens hleaf _ ih =>
    obtain ⟨t, hx⟩ := hleaf
    have hcount : ∀ leaf', Function.update used leaf (used leaf + 1) leaf' + leaves.count leaf' =
        used leaf' + (leaf :: leaves).count leaf' := by
      intro leaf'
      by_cases heq : leaf' = leaf
      · rw [heq, Function.update_self, List.count_cons_self]
        omega
      · rw [Function.update_of_ne heq, List.count_cons_of_ne (Ne.symm heq)]
    have hlt : used leaf < d.refs leaf := by
      have hle := hle leaf
      rw [List.count_cons_self] at hle
      omega
    obtain ⟨pool₁, hrun₁, h₁⟩ := h.release hx hlt
    obtain ⟨pool₂, hrun₂, h₂⟩ := ih h₁ fun leaf' => by
      rw [hcount]
      exact hle leaf'
    refine ⟨pool₂, ?_, ?_⟩
    · rw [List.foldlM_cons, hrun₁]
      exact hrun₂
    · rwa [funext hcount] at h₂

/-- The argument of a reshape is one tensor of the same size. -/
theorem LoweredProgram.reshape_arg (p : LoweredProgram δ) (h : p.reshapeOnly e = true) :
    (p.toProgram.node e ≠ .constant) ∧ width (p.checkedType e) = 1 ∧
      ∀ st, ((p.lowered st).arguments e).length = 1 ∧
    ∃ leaf, (callArgs p.toFunc e).flatMap p.leaves = [leaf] ∧ p.sizeOf (e, 0) = p.sizeOf leaf := by
  obtain ⟨t, x, ttype, ttype', hcall, htuple, htype, htype', hsize⟩ := p.reshape e h
  have hleaves : (callArgs p.toFunc e).flatMap p.leaves = p.leaves x := by
    simp [callArgs, hcall, p.leaves_eq t, htuple]
  have hx := p.leaves_types x
  rw [htype'] at hx
  have hx' : List.Forall₂ _ (p.leaves x) [ttype'] := hx
  cases hleaf : p.leaves x with
  | nil =>
    rw [hleaf] at hx'
    cases hx'
  | cons leaf rest =>
    rw [hleaf] at hx'
    cases hx' with
    | cons hleafType hrest =>
      cases hrest
      refine ⟨by simp [hcall], by rw [htype]; rfl, fun st => ⟨?_, leaf, hleaves.trans hleaf, ?_⟩⟩
      · simp [Lowered.arguments, lowered, hcall, htuple]
      · simp [sizeOf, hleafType, htype, flattenTupleType, hsize]

theorem Allocated.createOutput [DecidableEq δ] (hf : FirstPass p proto)
    (h : Allocated p.toProgram (p.demand hf.tallied) placed st) (hstruct : Structural p.toProgram st.maps)
    (hplain : AllPlain p.toProgram) (hcreated : Created p.toProgram e) (hconst : p.node e ≠ .constant)
    (hnone : st.tokenMap e = none) (hreach : Reach p.toFunc e) (hnot : e ∉ st.visited) {ls : List (List Nat)}
    (hls : List.Forall₂ (fun c l => st.tokenMap (p.real c) = some l) (callArgs p.toFunc e) ls) :
    ∃ tokens entries st', (p.lowered proto).createOutput e ls.flatten st = some st' ∧
      Extended p.toProgram (p.demand hf.tallied) placed entries e tokens st st' := by
  have hs : Source p.toProgram e := Or.inl hcreated
  have hrecorded := hf.recorded hcreated hreach
  unfold Lowered.createOutput
  have hshape : (p.lowered proto).reshapeOnly e = p.reshapeOnly e := rfl
  rw [hshape]
  split
  · rename_i hreshape
    obtain ⟨-, hwidth, hlowered⟩ := p.reshape_arg hreshape
    obtain ⟨harguments, leaf, hleaves, hsize⟩ := hlowered proto
    rw [if_pos harguments]
    obtain ⟨prototypes, hl⟩ := hrecorded
    have hlength := hf.structural.own e prototypes hs hl
    rw [hwidth] at hlength
    obtain ⟨prototype, rfl⟩ := List.length_eq_one_iff.mp hlength
    have hargs := h.argTokens hstruct hplain hls
    rw [hleaves] at hargs
    cases hflat : ls.flatten with
    | nil =>
      rw [hflat] at hargs
      cases hargs
    | cons tok rest =>
      rw [hflat] at hargs
      cases hargs with
      | cons hleaf hrest =>
        cases hrest
        obtain ⟨t, hx⟩ := hleaf
        have huses : p.uses e leaf = 1 := by
          unfold Program.uses
          rw [hleaves]
          simp
        have hlt : p.usesOf st.visited leaf < (p.demand hf.tallied).refs leaf := by
          have hle := uses_le hf hstruct hreach hnot leaf
          omega
        have hown : (p.demand hf.tallied).own (e, 0) prototype := ⟨hs, [prototype], hl, rfl⟩
        have hrelated : p.SameOrigin (e, 0) leaf :=
          ⟨leaf, .single ⟨hreshape, rfl, by rw [hleaves]; rfl⟩, .refl⟩
        have hpooled := h.pooled.share (t := st.visited) hown (h.not_placed hs hnone 0)
          (usesOf_eq_zero hstruct hplain hnone) rfl (pinned_eq_zero hcreated hconst 0) hx hlt hrelated
          (le_of_eq hsize)
        have hproto : (p.lowered proto).prototype e = some [prototype] := hl
        let st' := Allocation.record e [tok] { st with toPool := st.toPool.modify tok fun s =>
          { s with refCounter := s.refCounter + (st.arena prototype).refCounter } }
        refine ⟨[tok], [⟨(e, 0), tok, st.visited⟩], st', ?_, rfl, rfl, hpooled, ?_, ?_,
          List.nodup_singleton tok, ?_⟩
        · simp only [Lowered.reuseInputToken, hnone, hproto]
          rfl
        · intro x hx
          rw [List.mem_singleton.mp hx, hwidth]
          exact ⟨rfl, Nat.zero_lt_one, rfl⟩
        · rw [hwidth]
          exact .cons (List.mem_singleton_self _) .nil
        · intro tok' htok'
          rw [List.mem_singleton.mp htok']
          exact h.pooled.busy hx hlt
  · exact h.createToken hf hstruct hplain hs hnone hrecorded true fun k => pinned_eq_zero hcreated hconst k

end SecondPass

end StencilGraph.Plan

import StencilGraph.Stream.StreamList

namespace StencilGraph.Stream
open Framework Relay Relation StreamSolver

namespace CodeGen

variable {levels : List (List Nat)} {keep keep' : Nat → Bool} {i n t x : Nat}

/-- The part of a stream for one level, with the sync before it if that is kept. -/
def levelPart (keep : Nat → Bool) (i : Nat) (level : List Nat × Nat) : List Element :=
  (if level.2 ≠ 0 ∧ keep level.2 then [.sync level.2] else []) ++ (level.1[i]?).toList.map .call

/-- The part of a stream for the levels from the `n`-th, with the syncs that are kept. -/
def streamFrom (keep : Nat → Bool) (i n : Nat) (levels : List (List Nat)) : List Element :=
  (levels.zipIdx n).flatMap (levelPart keep i)

theorem stream_eq_streamFrom : stream levels i = streamFrom (fun _ => true) i 0 levels := by
  unfold stream streamFrom
  congr 1
  funext level
  simp [levelPart]

@[simp] theorem streamFrom_nil : streamFrom keep i n [] = [] := rfl

theorem streamFrom_cons (l : List Nat) : streamFrom keep i n (l :: levels) =
    levelPart keep i (l, n) ++ streamFrom keep i (n + 1) levels := rfl

theorem streamFrom_append (before after : List (List Nat)) :
    streamFrom keep i n (before ++ after) =
      streamFrom keep i n before ++ streamFrom keep i (n + before.length) after := by
  simp [streamFrom, List.zipIdx_append]

theorem mem_levelPart_sync {l : List Nat} :
    .sync t ∈ levelPart keep i (l, n) ↔ t = n ∧ n ≠ 0 ∧ keep n = true := by
  unfold levelPart
  split
  · rename_i h
    simp [h]
  · rename_i h
    simp only [List.nil_append, List.mem_map, reduceCtorEq, and_false, exists_false, false_iff]
    exact fun hno => h hno.2

theorem mem_streamFrom_sync : .sync t ∈ streamFrom keep i n levels ↔
    n ≤ t ∧ t < n + levels.length ∧ t ≠ 0 ∧ keep t = true := by
  induction levels generalizing n with
  | nil =>
    simp only [streamFrom_nil, List.not_mem_nil, List.length_nil, false_iff]
    omega
  | cons l levels ih =>
    rw [streamFrom_cons, List.mem_append, mem_levelPart_sync, ih, List.length_cons]
    constructor
    · intro hcase
      cases hcase with
      | inl hhere =>
        obtain ⟨rfl, h0, hk⟩ := hhere
        exact ⟨le_refl _, by omega, h0, hk⟩
      | inr hlater => exact ⟨by omega, by omega, hlater.2.2⟩
    · intro hlater
      obtain ⟨hle, hlt, h0, hk⟩ := hlater
      by_cases htn : t = n
      · exact Or.inl ⟨htn, htn ▸ h0, htn ▸ hk⟩
      · exact Or.inr ⟨by omega, by omega, h0, hk⟩

theorem mem_streamFrom_call : .call x ∈ streamFrom keep i n levels ↔
    ∃ level ∈ levels, level[i]? = some x := by
  induction levels generalizing n with
  | nil => simp
  | cons l levels ih =>
    have hhere : .call x ∈ levelPart keep i (l, n) ↔ l[i]? = some x := by
      unfold levelPart
      split <;> cases l[i]? <;> simp [eq_comm]
    rw [streamFrom_cons, List.mem_append, ih, hhere, List.exists_mem_cons_iff]

/-- A sync is removed from the level it stands before. -/
theorem erase_streamFrom (t : Nat) : (streamFrom keep i n levels).erase (.sync t) =
    streamFrom (fun k => keep k && k ≠ t) i n levels := by
  induction levels generalizing n with
  | nil => rfl
  | cons l levels ih =>
    rw [streamFrom_cons, streamFrom_cons, List.erase_append, ih]
    split
    · rename_i hmem
      obtain ⟨rfl, h0, hk⟩ := mem_levelPart_sync.mp hmem
      have hhere : (levelPart keep i (l, t)).erase (.sync t) =
          levelPart (fun k => keep k && k ≠ t) i (l, t) := by
        simp [levelPart, h0, hk]
      have hlater : streamFrom keep i (t + 1) levels =
          streamFrom (fun k => keep k && k ≠ t) i (t + 1) levels := by
        rw [← ih, List.erase_of_not_mem]
        rw [mem_streamFrom_sync]
        omega
      rw [hhere, hlater]
    · rename_i hmem
      congr 1
      rw [mem_levelPart_sync] at hmem
      unfold levelPart
      congr 1
      by_cases hn : n = t
      · rw [if_neg fun hno => hmem ⟨hn.symm, hno⟩, if_neg (by simp [hn])]
      · simp [hn]

/-- The streams with the syncs that are kept. -/
def streamsOf (keep : Nat → Bool) (levels : List (List Nat)) : Streams :=
  (List.range (maxStreamNumber levels)).map fun i => streamFrom keep i 0 levels

theorem removeTag_streamsOf (t : Nat) : removeTag (streamsOf keep levels) (.sync t) =
    streamsOf (fun k => keep k && k ≠ t) levels := by
  simp [removeTag, streamsOf, erase_streamFrom, Function.comp_def]

/-- The call `x` is the `u`-th of the level `k`. -/
def At (levels : List (List Nat)) (x k u : Nat) : Prop :=
  ∃ level, levels[k]? = some level ∧ level[u]? = some x

variable {a b k l u v : Nat}

theorem At.split (hx : At levels x k u) : ∃ before level after,
    levels = before ++ level :: after ∧ before.length = k ∧ level[u]? = some x := by
  obtain ⟨level, hk, hu⟩ := hx
  obtain ⟨hlt, hget⟩ := List.getElem?_eq_some_iff.mp hk
  refine ⟨levels.take k, level, levels.drop (k + 1), ?_, by simp; omega, hu⟩
  rw [← hget, List.getElem_cons_drop, List.take_append_drop]

theorem At.lt (hx : At levels x k u) : k < levels.length ∧ u < maxStreamNumber levels := by
  obtain ⟨level, hk, hu⟩ := hx
  refine ⟨(List.getElem?_eq_some_iff.mp hk).1, ?_⟩
  have hle := (@maxStreamNumber_le_iff levels _).mp (le_refl _)
  exact lt_of_lt_of_le (List.getElem?_eq_some_iff.mp hu).1 (hle.2 level (List.mem_of_getElem? hk))

theorem At.mem_streamFrom {before after : List (List Nat)} {k u : Nat}
    (hx : At (before ++ after) x k u) :
    (k < before.length → .call x ∈ streamFrom keep u 0 before) ∧
      (before.length ≤ k → .call x ∈ streamFrom keep u n after) := by
  obtain ⟨level, hk, hu⟩ := hx
  constructor
  · intro hlt
    rw [List.getElem?_append_left hlt] at hk
    exact mem_streamFrom_call.mpr ⟨level, List.mem_of_getElem? hk, hu⟩
  · intro hle
    rw [List.getElem?_append_right hle] at hk
    exact mem_streamFrom_call.mpr ⟨level, List.mem_of_getElem? hk, hu⟩

theorem exists_at_iff : (∃ k u, At levels x k u) ↔ x ∈ levels.flatten := by
  rw [List.mem_flatten]
  constructor
  · intro ⟨k, u, level, hk, hu⟩
    exact ⟨level, List.mem_of_getElem? hk, List.mem_of_getElem? hu⟩
  · intro ⟨level, hlevel, hx⟩
    obtain ⟨k, hk⟩ := List.mem_iff_getElem?.mp hlevel
    obtain ⟨u, hu⟩ := List.mem_iff_getElem?.mp hx
    exact ⟨k, u, level, hk, hu⟩

/-- A call has one place. -/
theorem At.unique (hn : levels.flatten.Nodup) (hx : At levels x k u) (hy : At levels x l v) :
    k = l ∧ u = v := by
  obtain ⟨level, hk, hu⟩ := hx
  obtain ⟨level', hl, hv⟩ := hy
  obtain ⟨hnodup, hdisjoint⟩ := List.nodup_flatten.mp hn
  have hkl : k = l := by
    by_contra hne
    obtain ⟨hk', rfl⟩ := List.getElem?_eq_some_iff.mp hk
    obtain ⟨hl', rfl⟩ := List.getElem?_eq_some_iff.mp hl
    have hdis : levels[k].Disjoint levels[l] := by
      rcases Nat.lt_or_gt_of_ne hne with hlt | hgt
      · exact List.pairwise_iff_getElem.mp hdisjoint k l hk' hl' hlt
      · exact (List.pairwise_iff_getElem.mp hdisjoint l k hl' hk' hgt).symm
    exact hdis (List.mem_of_getElem? hu) (List.mem_of_getElem? hv)
  rw [← hkl, hk] at hl
  rw [← Option.some.inj hl] at hv
  refine ⟨hkl, ?_⟩
  obtain ⟨hu', hgetu⟩ := List.getElem?_eq_some_iff.mp hu
  obtain ⟨hv', hgetv⟩ := List.getElem?_eq_some_iff.mp hv
  exact (hnodup level (List.mem_of_getElem? hk)).getElem_inj_iff.mp (hgetu.trans hgetv.symm)

theorem mem_callsAfter {tag : Element} {before after : List Element} (hbefore : tag ∉ before) :
    a ∈ callsAfter tag (before ++ tag :: .call a :: after) := by
  have hdrop : (before ++ tag :: .call a :: after).drop (before.length + 1) = .call a :: after := by
    rw [List.append_cons, List.drop_left' (by simp)]
  unfold callsAfter
  rw [List.idxOf_append_of_notMem hbefore, List.idxOf_cons_self, Nat.add_zero, hdrop]
  simp [Element.call?]

theorem mem_callsBefore {tag : Element} {before calls after : List Element}
    (hbefore : tag ∉ before ++ .call b :: calls) (hcalls : ∀ e ∈ calls, e.call?.isSome = true) :
    b ∈ callsBefore tag (before ++ .call b :: calls ++ tag :: after) := by
  unfold callsBefore
  rw [List.idxOf_append_of_notMem hbefore, List.idxOf_cons_self, Nat.add_zero, List.take_left,
    List.reverse_append, List.reverse_cons, List.append_assoc,
    List.takeWhile_append_of_pos (by simpa using hcalls)]
  simp [Element.call?]

/-- A sync that a dependence crosses with no kept sync between is needed. -/
theorem needed_of_dependence {graph : Graph} (hn : levels.flatten.Nodup) (ha : At levels a t u)
    (hb : At levels b l v) (hlt : l < t) (huv : u ≠ v) (hab : b ∈ graph.input a)
    (hkeep : keep t = true) (hnone : ∀ k, l < k → k < t → keep k = false) :
    needed graph (streamsOf keep levels) (.sync t) = true := by
  have htag (i : Nat) : .sync t ∈ streamFrom keep i 0 levels :=
    mem_streamFrom_sync.mpr ⟨Nat.zero_le t, by simpa using ha.lt.1, by omega, hkeep⟩
  have hstream {x k w : Nat} (hx : At levels x k w) :
      streamFrom keep w 0 levels ∈ (streamsOf keep levels).filter (.sync t ∈ ·) := by
    rw [List.mem_filter, decide_eq_true_iff]
    exact ⟨List.mem_map.mpr ⟨w, List.mem_range.mpr hx.lt.2, rfl⟩, htag w⟩
  have hne : streamFrom keep v 0 levels ≠ streamFrom keep u 0 levels := by
    intro heq
    obtain ⟨level, hlevel, hget⟩ := ha
    have hmem : .call a ∈ streamFrom keep v 0 levels := by
      rw [heq]
      exact mem_streamFrom_call.mpr ⟨level, List.mem_of_getElem? hlevel, hget⟩
    obtain ⟨level', hlevel', hget'⟩ := mem_streamFrom_call.mp hmem
    obtain ⟨k, hk⟩ := List.mem_iff_getElem?.mp hlevel'
    exact huv (At.unique hn ⟨level, hlevel, hget⟩ ⟨level', hk, hget'⟩).2
  have hafter : a ∈ callsAfter (.sync t) (streamFrom keep u 0 levels) := by
    obtain ⟨before, level, after, hlevels, hlen, hget⟩ := ha.split
    have hsplit : streamFrom keep u 0 levels = streamFrom keep u 0 before ++
        .sync t :: .call a :: streamFrom keep u (t + 1) after := by
      have h0 : t ≠ 0 := by omega
      rw [hlevels, streamFrom_append, streamFrom_cons, Nat.zero_add, hlen]
      simp [levelPart, h0, hkeep, hget]
    rw [hsplit]
    apply mem_callsAfter
    rw [mem_streamFrom_sync]
    omega
  have hbefore : b ∈ callsBefore (.sync t) (streamFrom keep v 0 levels) := by
    obtain ⟨before, level, after, hlevels, hlen, hget⟩ := ha.split
    obtain ⟨before', level', after', hbefore', hlen', hget'⟩ :
        ∃ before' level' after', before = before' ++ level' :: after' ∧ before'.length = l ∧
          level'[v]? = some b := by
      apply At.split
      obtain ⟨level', hl, hv⟩ := hb
      rw [hlevels, List.getElem?_append_left (by omega)] at hl
      exact ⟨level', hl, hv⟩
    have hafter' : l + 1 + after'.length = t := by
      rw [← hlen, hbefore', List.length_append, List.length_cons, hlen']
      omega
    have hsplit : streamFrom keep v 0 levels =
        (streamFrom keep v 0 before' ++ (if l ≠ 0 ∧ keep l then [.sync l] else [])) ++
          .call b :: streamFrom keep v (l + 1) after' ++
          .sync t :: ((level[v]?).toList.map .call ++ streamFrom keep v (t + 1) after) := by
      have h0 : t ≠ 0 := by omega
      rw [hlevels, hbefore', streamFrom_append, streamFrom_append, streamFrom_cons, streamFrom_cons,
        Nat.zero_add, Nat.zero_add, List.length_append, List.length_cons, hlen',
        show l + (after'.length + 1) = t by omega]
      simp [levelPart, h0, hkeep, hget']
    have hfirst : .sync t ∉ streamFrom keep v 0 before' ++
        (if l ≠ 0 ∧ keep l then [.sync l] else []) := by
      rw [List.mem_append, mem_streamFrom_sync]
      split
      · simp
        omega
      · simp
        omega
    rw [hsplit]
    apply mem_callsBefore
    · rw [List.mem_append, List.mem_cons, mem_streamFrom_sync]
      rintro (hno | hno | hno)
      · exact hfirst hno
      · cases hno
      · omega
    · intro e he
      cases e with
      | call x => rfl
      | sync k =>
        obtain ⟨hle, hlt, -, hk⟩ := mem_streamFrom_sync.mp he
        rw [hnone k (by omega) (by omega)] at hk
        cases hk
  unfold needed
  simp only [List.any_eq_true]
  refine ⟨_, hstream ha, _, hstream hb, ?_⟩
  simp only [hne, ne_eq, not_false_eq_true, decide_true, Bool.true_and, isConsumerProduce,
    List.any_eq_true, decide_eq_true_iff]
  exact ⟨a, hafter, b, hbefore, hab⟩

/-- Every dependence between two streams into one of the first levels crosses a kept sync. -/
def Covers (graph : Graph) (levels : List (List Nat)) (keep : Nat → Bool) (bound : Nat) : Prop :=
  ∀ a k u b l v, At levels a k u → At levels b l v → k < bound → b ∈ graph.input a → u ≠ v →
    ∃ s, l < s ∧ s ≤ k ∧ keep s = true

section Loops

variable {graph : Graph} (hn : levels.flatten.Nodup)
  (hbelow : ∀ a k u b l v, At levels a k u → At levels b l v → b ∈ graph.input a → l < k)

include hn hbelow

/-- Removing a sync that is not needed leaves every dependence a kept sync. -/
theorem removeIndependent_covers (hcovers : Covers graph levels keep t)
    (hlater : ∀ s, t ≤ s → keep s = true) :
    ∃ keep', removeIndependent graph (streamsOf keep levels) t = streamsOf keep' levels ∧
      Covers graph levels keep' (t + 1) ∧ ∀ s, t + 1 ≤ s → keep' s = true := by
  unfold removeIndependent
  split
  · refine ⟨keep, rfl, fun a k u b l v ha hb hk hab huv => ?_, fun s hs => hlater s (by omega)⟩
    by_cases hkt : k < t
    · exact hcovers a k u b l v ha hb hkt hab huv
    · have hlk := hbelow a k u b l v ha hb hab
      exact ⟨k, hlk, le_refl _, hlater k (by omega)⟩
  · rename_i hneeded
    refine ⟨_, removeTag_streamsOf t, fun a k u b l v ha hb hk hab huv => ?_, fun s hs => ?_⟩
    · have hcross : ∃ s, l < s ∧ s ≤ k ∧ keep s = true ∧ s ≠ t := by
        by_cases hkt : k < t
        · obtain ⟨s, hls, hsk, hs⟩ := hcovers a k u b l v ha hb hkt hab huv
          exact ⟨s, hls, hsk, hs, by omega⟩
        · obtain rfl : k = t := by omega
          -- the sync is not needed, so a kept one stands between
          by_contra hno
          apply hneeded
          apply needed_of_dependence hn ha hb (hbelow a k u b l v ha hb hab) huv hab
            (hlater k (le_refl _))
          intro s hls hsk
          by_contra hs
          exact hno ⟨s, hls, by omega, by simpa using hs, by omega⟩
      obtain ⟨s, hls, hsk, hs, hst⟩ := hcross
      exact ⟨s, hls, hsk, by simp [hs, hst]⟩
    · simp [hlater s (by omega)]
      omega

theorem foldl_removeIndependent_covers (steps : Nat) (hcovers : Covers graph levels keep t)
    (hlater : ∀ s, t ≤ s → keep s = true) :
    ∃ keep', (List.range' t steps).foldl (removeIndependent graph) (streamsOf keep levels) =
        streamsOf keep' levels ∧ Covers graph levels keep' (t + steps) := by
  induction steps generalizing t keep with
  | zero => exact ⟨keep, rfl, hcovers⟩
  | succ steps ih =>
    obtain ⟨keep', hrun, hcovers', hlater'⟩ :=
      removeIndependent_covers hn hbelow hcovers hlater
    obtain ⟨keep'', hrun', hcovers''⟩ := ih hcovers' hlater'
    refine ⟨keep'', ?_, ?_⟩
    · rw [List.range'_succ, List.foldl_cons, hrun, hrun']
    · rw [show t + (steps + 1) = t + 1 + steps by omega]
      exact hcovers''

omit hn hbelow in
theorem count_streamFrom : (streamFrom keep i n levels).count (.sync t) =
    if .sync t ∈ streamFrom keep i n levels then 1 else 0 := by
  have hone : (streamFrom keep i n levels).count (.sync t) ≤ 1 := by
    by_contra hmore
    have htwice : .sync t ∈ (streamFrom keep i n levels).erase (.sync t) := by
      rw [← List.count_pos_iff, List.count_erase_self]
      omega
    rw [erase_streamFrom, mem_streamFrom_sync] at htwice
    simp at htwice
  split
  · rename_i hmem
    have hpos := List.count_pos_iff.mpr hmem
    omega
  · rename_i hmem
    exact List.count_eq_zero_of_not_mem hmem

omit hn hbelow in
/-- A kept sync occurs once in every stream. -/
theorem count_streamsOf (t : Nat) : (streamsOf keep levels).flatten.count (.sync t) =
    if t < levels.length ∧ t ≠ 0 ∧ keep t = true then maxStreamNumber levels else 0 := by
  have hmem (i : Nat) : (.sync t ∈ streamFrom keep i 0 levels) =
      (t < levels.length ∧ t ≠ 0 ∧ keep t = true) := by
    simp [mem_streamFrom_sync]
  rw [List.count_flatten, streamsOf, List.map_map]
  simp only [Function.comp_def, count_streamFrom, hmem]
  rw [List.map_const', List.length_range]
  split <;> simp

omit hn hbelow in
/-- A tag stands in one stream only when there is no other stream. -/
theorem foldl_removeSingle (steps : List Nat) (elements : List Element)
    (helements : ∀ t, elements.count (.sync t) = 1 → maxStreamNumber levels = 1) :
    ∃ keep', steps.foldl (removeSingle elements) (streamsOf keep levels) = streamsOf keep' levels ∧
      (maxStreamNumber levels ≠ 1 → keep' = keep) := by
  induction steps generalizing keep with
  | nil => exact ⟨keep, rfl, fun _ => rfl⟩
  | cons t steps ih =>
    rw [List.foldl_cons]
    unfold removeSingle
    split
    · rename_i hcount
      rw [removeTag_streamsOf]
      obtain ⟨keep', hrun, -⟩ := @ih fun k => keep k && k ≠ t
      exact ⟨keep', hrun, fun hne => absurd (helements t hcount) hne⟩
    · exact ih

/-- The streams after both removals: every dependence between two streams crosses a sync. -/
theorem generateCodegenStreamlist_covers {h : Heap} {expr : Nat}
    (hgraph : buildGraph h expr = some graph) :
    ∃ keep, generateCodegenStreamlist h expr levels = some (streamsOf keep levels) ∧
      Covers graph levels keep levels.length := by
  have hstart : (List.range (maxStreamNumber levels)).map (stream levels) =
      streamsOf (fun _ => true) levels := by
    unfold streamsOf
    exact List.map_congr_left fun i _ => stream_eq_streamFrom
  have hfirst : Covers graph levels (fun _ => true) 1 := by
    intro a k u b l v ha hb hk hab
    have hlk := hbelow a k u b l v ha hb hab
    omega
  obtain ⟨keep, hindependent, hcovers⟩ :=
    foldl_removeIndependent_covers hn hbelow (levels.length - 1) hfirst fun _ _ => rfl
  have hsingle (t : Nat) (hcount : (streamsOf keep levels).flatten.count (.sync t) = 1) :
      maxStreamNumber levels = 1 := by
    rw [count_streamsOf] at hcount
    split at hcount
    · exact hcount
    · cases hcount
  obtain ⟨keep', hrun, hsame⟩ :=
    @foldl_removeSingle levels keep (List.range levels.length) _ hsingle
  refine ⟨keep', ?_, fun a k u b l v ha hb hk hab huv => ?_⟩
  · simp only [generateCodegenStreamlist, hgraph, Option.bind_eq_bind, Option.bind_some, hstart,
      hindependent, hrun]
  · have hu := ha.lt.2
    have hv := hb.lt.2
    rw [hsame (by omega)]
    exact hcovers a k u b l v ha hb (by omega) hab huv

end Loops

end CodeGen

end StencilGraph.Stream

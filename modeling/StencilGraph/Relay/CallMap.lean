import StencilGraph.Relay.FuseGroup
import StencilGraph.Relay.Exclusion

namespace StencilGraph.Relay
open Framework Relation NodeAutoFusion

variable {h h' : Heap} {ps A L : List Nat} {a b c x y fused : Nat}

/-- The replacement of a use `k` of the output `out`, whose results begin at `offset`. -/
def Projects (h : Heap) (fused offset out k v : Nat) : Prop :=
  (k = out ∧ typeOf h out = .tensor ∧ h[v]? = some (.tupleGetItem fused offset)) ∨
    ∃ index n, typeOf h out = .tuple n ∧ h[k]? = some (.tupleGetItem out index) ∧
      h[v]? = some (.tupleGetItem fused (offset + index))

theorem Projects.ext {offset out k v : Nat} (hw : Wf h) (he : h <+: h') (hout : out < h.length)
    (hp : Projects h fused offset out k v) : Projects h' fused offset out k v := by
  rcases hp with ⟨rfl, hty, hv⟩ | ⟨index, n, hty, hk, hv⟩
  · exact Or.inl ⟨rfl, (typeOf_ext hw he hout).trans hty, get_ext he hv⟩
  · exact Or.inr ⟨index, n, (typeOf_ext hw he hout).trans hty, get_ext he hk, get_ext he hv⟩

/-- What has been added to a replacement dictionary. -/
structure Added (h h' : Heap) (m m' : ReplaceMap) (P : Nat → Nat → Prop) : Prop where
  ext : Extends h h'
  keep : ∀ e ∈ m, e ∈ m'
  entry : ∀ k v, (k, v) ∈ m' → (k, v) ∈ m ∨ h.length ≤ v ∧ P k v

theorem mapUses_spec {out n : Nat} {uses : List Nat} (offset : Nat) (m : ReplaceMap) (hw : Wf h)
    (hf : fused < h.length) (hout : out < h.length) (hty : typeOf h out = .tuple n)
    (huses : ∀ k ∈ uses, ∃ index, h[k]? = some (.tupleGetItem out index)) :
    ∃ m' h', mapUses fused offset uses (m, h) = some (m', h') ∧
      Added h h' m m' (fun k v => k ∈ uses ∧ Projects h' fused offset out k v) ∧
      ∀ k ∈ uses, ∃ v, (k, v) ∈ m' := by
  induction uses generalizing m h with
  | nil => exact ⟨m, h, rfl, ⟨Extends.refl hw, fun _ he => he, fun _ _ he => Or.inl he⟩, by simp⟩
  | cons k uses ih =>
    obtain ⟨index, hk⟩ := huses k (by simp)
    have hext : h <+: h ++ [.tupleGetItem fused (offset + index)] := List.prefix_append _ _
    have hw₁ : Wf (h ++ [.tupleGetItem fused (offset + index)]) :=
      wf_append hw (by simpa [Node.refs] using hf)
    have hty₁ := (typeOf_ext hw hext hout).trans hty
    obtain ⟨m', h', hrun, hadd, hkeys⟩ := ih (m := m ++ [(k, h.length)]) hw₁ (by simp; omega)
      (by simp; omega) hty₁ fun k' hk' => by
        obtain ⟨index', hget⟩ := huses k' (by simp [hk'])
        exact ⟨index', get_ext hext hget⟩
    have hnew : Projects h' fused offset out k h.length := by
      refine Or.inr ⟨index, n, (typeOf_ext hw₁ hadd.ext.ext (by simp; omega)).trans hty₁,
        get_ext (hext.trans hadd.ext.ext) hk, get_ext hadd.ext.ext (by simp)⟩
    refine ⟨m', h', by simp [mapUses, hk, GroupOp.alloc, hrun],
      ⟨⟨hext.trans hadd.ext.ext, hadd.ext.wf⟩, fun e he => hadd.keep e (by simp [he]), ?_⟩, ?_⟩
    · intro k' v hkv
      rcases hadd.entry k' v hkv with hold | ⟨hle, hp⟩
      · rcases List.mem_append.mp hold with hold | hold
        · exact Or.inl hold
        · obtain ⟨rfl, rfl⟩ : k' = k ∧ v = h.length := by simpa using hold
          exact Or.inr ⟨le_rfl, by simp, hnew⟩
      · simp only [List.length_append, List.length_singleton] at hle
        exact Or.inr ⟨by omega, by simp [hp.1], hp.2⟩
    · intro k' hk'
      rcases List.mem_cons.mp hk' with rfl | hk'
      · exact ⟨h.length, hadd.keep _ (by simp)⟩
      · exact hkeys k' hk'

/-- The offset of an output among the results. -/
def outputOffset (h : Heap) (outs : List Nat) : Nat := (outs.map fun x => (typeOf h x).width).sum

/-- The replacements for a list of outputs: each use is a projection of the fused call, and every
output of tensor type and every listed use of an output of tuple type is replaced. -/
theorem mapOutputs_spec {outputs : List (Nat × List Nat)} (offset : Nat) (m : ReplaceMap)
    (hw : Wf h) (hf : fused < h.length) (hout : ∀ o ∈ outputs, o.1 < h.length)
    (huses : ∀ o ∈ outputs, ∀ n, typeOf h o.1 = .tuple n →
      ∀ k ∈ o.2, ∃ index, h[k]? = some (.tupleGetItem o.1 index)) :
    ∃ m' h', mapOutputs fused outputs offset (m, h) = some (m', h') ∧
      Added h h' m m' (fun k v => ∃ pre out uses post, outputs = pre ++ (out, uses) :: post ∧
        (k = out ∨ k ∈ uses) ∧ Projects h' fused (offset + outputOffset h (pre.map Prod.fst)) out k v) ∧
      ∀ o ∈ outputs, (typeOf h o.1 = .tensor → ∃ v, (o.1, v) ∈ m') ∧
        (typeOf h o.1 ≠ .tensor → ∀ k ∈ o.2, ∃ v, (k, v) ∈ m') := by
  induction outputs generalizing m h offset with
  | nil => exact ⟨m, h, rfl, ⟨Extends.refl hw, fun _ he => he, fun _ _ he => Or.inl he⟩, by simp⟩
  | cons o outputs ih =>
    obtain ⟨out, uses⟩ := o
    have houtlt := hout (out, uses) (by simp)
    -- the first output, then the others from the new heap
    obtain ⟨m₁, h₁, hstep, hadd₁, hkeys₁⟩ : ∃ m₁ h₁, (∀ rest offset', offset' = offset +
        (typeOf h out).width → mapOutputs fused ((out, uses) :: rest) offset (m, h) =
          mapOutputs fused rest offset' (m₁, h₁)) ∧
        Added h h₁ m m₁ (fun k v => (k = out ∨ k ∈ uses) ∧ Projects h₁ fused offset out k v) ∧
        (typeOf h out = .tensor → ∃ v, (out, v) ∈ m₁) ∧
        (typeOf h out ≠ .tensor → ∀ k ∈ uses, ∃ v, (k, v) ∈ m₁) := by
      cases hty : typeOf h out with
      | tensor =>
        have hext : h <+: h ++ [.tupleGetItem fused offset] := List.prefix_append _ _
        have hw₁ : Wf (h ++ [.tupleGetItem fused offset]) :=
          wf_append hw (by simpa [Node.refs] using hf)
        refine ⟨m ++ [(out, h.length)], _, ?_, ⟨⟨hext, hw₁⟩, fun e he => by simp [he], ?_⟩,
          fun _ => ⟨h.length, by simp⟩, fun hne => absurd rfl hne⟩
        · rintro rest offset' rfl
          simp [mapOutputs, hty, GroupOp.alloc, Ty.width]
        · intro k v hkv
          rcases List.mem_append.mp hkv with hkv | hkv
          · exact Or.inl hkv
          · obtain ⟨rfl, rfl⟩ : k = out ∧ v = h.length := by simpa using hkv
            exact Or.inr ⟨le_rfl, Or.inl rfl, Or.inl
              ⟨rfl, (typeOf_ext hw hext houtlt).trans hty, by simp⟩⟩
      | tuple n =>
        obtain ⟨m₁, h₁, hrun, hadd, hkeys⟩ := mapUses_spec offset m hw hf houtlt
          hty (huses (out, uses) (by simp) n hty)
        refine ⟨m₁, h₁, ?_, ⟨hadd.ext, hadd.keep, fun k v hkv => ?_⟩, by simp, fun _ => hkeys⟩
        · rintro rest offset' rfl
          simp [mapOutputs, hty, hrun, Ty.width]
        · rcases hadd.entry k v hkv with hold | ⟨hle, hk, hp⟩
          · exact Or.inl hold
          · exact Or.inr ⟨hle, Or.inr hk, hp⟩
    have hle₁ := hadd₁.ext.ext.length_le
    have hext₁ := hadd₁.ext.ext
    obtain ⟨m', h', hrun, hadd, hkeys⟩ := ih (offset + (typeOf h out).width) m₁
      hadd₁.ext.wf (by omega) (fun o ho => (hout o (by simp [ho])).trans_le hle₁) (by
        intro o ho n hty k hk
        rw [typeOf_ext hw hext₁ (hout o (by simp [ho]))] at hty
        obtain ⟨index, hget⟩ := huses o (by simp [ho]) n hty k hk
        exact ⟨index, get_ext hext₁ hget⟩)
    refine ⟨m', h', by rw [hstep outputs _ rfl, hrun], ⟨hadd₁.ext.trans hadd.ext,
      fun e he => hadd.keep e (hadd₁.keep e he), ?_⟩, ?_⟩
    · intro k v hkv
      rcases hadd.entry k v hkv with hold | ⟨hle, pre, out', uses', post, hsplit, hk, hp⟩
      · rcases hadd₁.entry k v hold with hold | ⟨hle, hk, hp⟩
        · exact Or.inl hold
        · exact Or.inr ⟨hle, [], out, uses, outputs, rfl, hk, by
            simpa [outputOffset] using hp.ext hadd₁.ext.wf hadd.ext.ext (by omega)⟩
      · refine Or.inr ⟨by omega, (out, uses) :: pre, out', uses', post, by simp [hsplit], hk, ?_⟩
        have hsum : offset + (typeOf h out).width + outputOffset h₁ (pre.map Prod.fst) =
            offset + outputOffset h (((out, uses) :: pre).map Prod.fst) := by
          have hcongr : outputOffset h₁ (pre.map Prod.fst) = outputOffset h (pre.map Prod.fst) := by
            unfold outputOffset
            congr 1
            refine List.map_congr_left fun z hz => ?_
            obtain ⟨o, ho, rfl⟩ := List.mem_map.mp hz
            rw [typeOf_ext hw hext₁ (hout o (by simp [hsplit, ho]))]
          rw [hcongr]
          simp [outputOffset, Nat.add_assoc]
        rw [← hsum]
        exact hp
    · intro o ho
      rcases List.mem_cons.mp ho with rfl | ho
      · refine ⟨fun hty => ?_, fun hty k hk => ?_⟩
        · obtain ⟨v, hv⟩ := hkeys₁.1 hty
          exact ⟨v, hadd.keep _ hv⟩
        · obtain ⟨v, hv⟩ := hkeys₁.2 hty k hk
          exact ⟨v, hadd.keep _ hv⟩
      · have hty := typeOf_ext hw hext₁ (hout o (by simp [ho]))
        rw [← hty]
        exact hkeys o ho

/-- The results of the group that an expression stands for. -/
def GroupUse (h : Heap) (t y : Nat) : Prop := y = t ∨ ∃ k, h[y]? = some (.tupleGetItem t k)

/-- The expressions used by calls other than `a` and `c`, and the returned ones. -/
def Outside (h : Heap) (b a c y : Nat) : Prop :=
  (∃ z, TopCall h b z ∧ z ≠ a ∧ z ≠ c ∧ y ∈ GroupOp.callArgs h z) ∨ y ∈ retCalls h b

theorem source_of_groupUse {t : Nat} (ht : IsCall h t) (hy : GroupUse h t y) :
    source h y = some t := by
  obtain ⟨callee, args, hget⟩ := ht
  rcases hy with rfl | ⟨k, hk⟩
  · simp [source, hget]
  · simp [source, hk]

theorem groupUse_of_source {t : Nat} (hs : source h y = some t) : GroupUse h t y := by
  unfold source at hs
  split at hs
  · exact Or.inl (Option.some.inj hs)
  · rename_i t' k hget
    obtain rfl := Option.some.inj hs
    exact Or.inr ⟨k, hget⟩
  · simp at hs

theorem mem_retCalls (hm : Main h ps b) (hy : y ∈ retCalls h b) :
    Reach h b y ∧ typeOf h y = .tensor := by
  unfold retCalls at hy
  cases hb : h[b]? with
  | none =>
    obtain ⟨n, hn⟩ := get_of_lt hm.body.lt
    simp [hb] at hn
  | some n =>
    rw [hb] at hy
    have hself (hyb : y ∈ [b]) (hnt : ∀ fields, n ≠ .tuple fields) :
        Reach h b y ∧ typeOf h y = .tensor := by
      obtain rfl : y = b := by simpa using hyb
      refine ⟨ReflTransGen.refl, ?_⟩
      rcases hm.result with hty | ⟨fields, hf⟩
      · exact hty
      · exact absurd (Option.some.inj (hb.symm.trans hf)) (hnt fields)
    cases n with
    | tuple fields =>
      cases hm.body with
      | tuple _ fields' hget ha hty =>
        obtain rfl : fields' = fields := by simpa [hb] using hget.symm
        exact ⟨ReflTransGen.single ⟨_, hb, hy⟩, hty y hy⟩
      | _ => simp_all
    | _ => exact hself hy (by simp)

theorem Outside.typed (hm : Main h ps b) (hy : Outside h b a c y) :
    Reach h b y ∧ typeOf h y = .tensor := by
  rcases hy with ⟨z, ⟨⟨callee, args, hget⟩, hz⟩, -, -, hy⟩ | hy
  · rw [callArgs_call hget] at hy
    exact ⟨hz.tail ⟨_, hget, hy⟩, (((hm.typed hz).call hget).2 y hy).2⟩
  · exact mem_retCalls hm hy

/-- The uses that `fusion_call2call` collects for a member of the group. -/
theorem mem_otherArgs {t : Nat} (hL : ∀ x, x ∈ L ↔ TopCall h b x) (ht : IsCall h t) :
    (t, y) ∈ otherArgs h L b a c ↔ Outside h b a c y ∧ GroupUse h t y := by
  unfold otherArgs Outside
  simp only [List.mem_append, List.mem_flatMap, List.mem_filter, hL, decide_eq_true_eq, getArgs,
    List.mem_filterMap, Option.map_eq_some_iff, List.mem_map, Prod.mk.injEq]
  constructor
  · rintro (⟨z, ⟨hz, hza, hzc⟩, w, hw, s, hs, rfl, rfl⟩ | ⟨w, hw, hs, rfl⟩)
    · exact ⟨Or.inl ⟨z, hz, hza, hzc, hw⟩, groupUse_of_source hs⟩
    · refine ⟨Or.inr hw, ?_⟩
      cases hsrc : source h w with
      | none =>
        rw [hsrc, Option.getD_none] at hs
        exact Or.inl hs
      | some s =>
        rw [hsrc, Option.getD_some] at hs
        exact groupUse_of_source (hs ▸ hsrc)
  · rintro ⟨⟨z, hz, hza, hzc, hy⟩ | hy, hu⟩
    · exact Or.inl ⟨z, ⟨hz, hza, hzc⟩, y, hy, t, source_of_groupUse ht hu, rfl, rfl⟩
    · exact Or.inr ⟨y, hy, by rw [source_of_groupUse ht hu, Option.getD_some], rfl⟩

theorem outside_comm : Outside h b a c y ↔ Outside h b c a y := by
  unfold Outside
  simp only [and_left_comm]

theorem mem_usesOf {other : List (Nat × Nat)} {t : Nat} :
    y ∈ usesOf other t ↔ (t, y) ∈ other := by
  unfold usesOf
  simp only [List.mem_dedup, List.mem_map, List.mem_filter, decide_eq_true_eq]
  constructor
  · rintro ⟨⟨n, z⟩, ⟨hmem, rfl⟩, rfl⟩
    exact hmem
  · intro hmem
    exact ⟨(t, y), ⟨hmem, rfl⟩, rfl⟩

/-- The outputs of a group: the consumer alone when nobody else uses the producer, else both. Their
uses are the outside uses. -/
structure Outputs (h : Heap) (b a c : Nat) (outputs : List (Nat × List Nat)) : Prop where
  shape : outputs.map Prod.fst = [c] ∧ Uses h a c ∧ (∀ y, Outside h b a c y → ¬ GroupUse h a y) ∨
    outputs.map Prod.fst = [a, c]
  uses : ∀ o ∈ outputs, ∀ y, y ∈ o.2 ↔ Outside h b a c y ∧ GroupUse h o.1 y

theorem mem_getArgs (hm : Main h ps b) (hx : TopCall h b x) :
    y ∈ (getArgs h x).map Prod.fst ↔ Dep h b y x := by
  rw [← mem_inputs_iff hm hx]
  unfold getArgs inputs
  simp only [List.mem_map, List.mem_filterMap, Option.map_eq_some_iff, List.mem_dedup]
  constructor
  · rintro ⟨⟨n, z⟩, ⟨w, hw, s, hs, heq⟩, rfl⟩
    obtain ⟨rfl, rfl⟩ : s = n ∧ w = z := by simpa using heq
    exact ⟨w, hw, hs⟩
  · rintro ⟨w, hw, hs⟩
    exact ⟨(y, w), ⟨w, hw, y, hs, rfl⟩, rfl⟩

theorem serialOutputs_spec {other : List (Nat × Nat)} (hca : IsCall h a) (hcc : IsCall h c)
    (hu : Uses h a c)
    (hother : ∀ t y, IsCall h t → ((t, y) ∈ other ↔ Outside h b a c y ∧ GroupUse h t y)) :
    Outputs h b a c (serialOutputs other a c) := by
  have huses (t : Nat) (ht : IsCall h t) (y : Nat) :
      y ∈ usesOf other t ↔ Outside h b a c y ∧ GroupUse h t y := mem_usesOf.trans (hother t y ht)
  unfold serialOutputs
  split
  · refine ⟨Or.inr rfl, fun o ho => ?_⟩
    obtain rfl | rfl : o = (a, usesOf other a) ∨ o = (c, usesOf other c) := by simpa using ho
    · exact huses a hca
    · exact huses c hcc
  · rename_i hno
    refine ⟨Or.inl ⟨rfl, hu, fun y hy hg => ?_⟩, fun o ho => ?_⟩
    · exact hno (List.mem_map.mpr ⟨(a, y), (hother a y hca).mpr ⟨hy, hg⟩, rfl⟩)
    · obtain rfl : o = (c, usesOf other c) := by simpa using ho
      exact huses c hcc

/-- The group of a pair of calls, producer first. -/
theorem groupOutputs_spec {p q : Nat} (hm : Main h ps b) (hL : ∀ x, x ∈ L ↔ TopCall h b x)
    (hp : TopCall h b p) (hq : TopCall h b q) :
    ∃ a c outputs, groupOutputs h L b p q = ([a, c], outputs) ∧
      (a = p ∧ c = q ∨ a = q ∧ c = p) ∧ ¬ Dep h b c a ∧ Outputs h b a c outputs := by
  have hother (t y : Nat) (ht : IsCall h t) := mem_otherArgs (y := y) (a := p) (c := q) hL ht
  have hno {x y : Nat} (hxy : Dep h b x y) : ¬ Dep h b y x := fun hyx => by
    have := hxy.lt hm
    have := hyx.lt hm
    omega
  unfold groupOutputs
  have hmp := mem_getArgs (y := q) hm hp
  have hmq := mem_getArgs (y := p) hm hq
  by_cases hqp : Dep h b q p
  · refine ⟨q, p, _, if_pos (hmp.mpr hqp), Or.inr ⟨rfl, rfl⟩, hno hqp, ?_⟩
    refine serialOutputs_spec hq.1 hp.1 hqp.2.2 fun t y ht => ?_
    rw [hother t y ht, outside_comm]
  · by_cases hpq : Dep h b p q
    · refine ⟨p, q, _, (if_neg (mt hmp.mp hqp)).trans (if_pos (hmq.mpr hpq)), Or.inl ⟨rfl, rfl⟩, hno hpq, ?_⟩
      exact serialOutputs_spec hp.1 hq.1 hpq.2.2 hother
    · refine ⟨p, q, _, (if_neg (mt hmp.mp hqp)).trans (if_neg (mt hmq.mp hpq)),
        Or.inl ⟨rfl, rfl⟩, hqp, Or.inr rfl, ?_⟩
      intro o ho y
      obtain rfl | rfl : o = (p, usesOf (otherArgs h L b p q) p) ∨
          o = (q, usesOf (otherArgs h L b p q) q) := by simpa using ho
      · exact mem_usesOf.trans (hother p y hp.1)
      · exact mem_usesOf.trans (hother q y hq.1)

/-- The replacements of the uses of a fused group by results of the fused call. -/
structure Rewired (h hf h' : Heap) (ps : List Nat) (b a c fc : Nat) (m : ReplaceMap) : Prop where
  ext : Extends hf h'
  key : ∀ k v, (k, v) ∈ m → Reach h b k ∧ (GroupUse h a k ∨ GroupUse h c k)
  target : ∀ k v, (k, v) ∈ m → v = fc ∨ hf.length ≤ v ∧ ∃ j, h'[v]? = some (.tupleGetItem fc j)
  type : ∀ k v, (k, v) ∈ m → typeOf h' v = typeOf h k
  typed : ∀ k v, (k, v) ∈ m → Typed h' (Callable h') (IsCall h') ps v
  value : ∀ k v, (k, v) ∈ m → ∀ (V : Type) (I : Interp V) (σ : Env V), Binds h ps σ →
    value I h' σ v = value I h σ k
  cover : ∀ y, Outside h b a c y → GroupUse h a y ∨ GroupUse h c y →
    ∃ k v, (k, v) ∈ m ∧ GroupUse h k y

theorem Fused.typed {hf : Heap} {outs : List Nat} {tag : List String} {fc : Nat}
    (hg : Group h ps b A a c) (hF : Fused h hf ps A outs tag fc) :
    Typed hf (Callable hf) (IsCall hf) ps fc := by
  obtain ⟨f, params, body, hcall, hok, -⟩ := hF.call
  have hm := hg.main
  refine .func fc f A hcall ⟨params, body, tag, hok⟩ (fun y hy => ?_) (fun y hy => ?_)
  · exact (hm.typed (hg.outside y hy).1).mono hm.wf hF.ext.ext
      (fun _ _ hf => hf.ext hm.wf hF.ext.ext) (fun _ hc => hc.ext hF.ext.ext) (fun _ hp => hp)
  · obtain ⟨hr, hty, -⟩ := hg.outside y hy
    rw [typeOf_ext hm.wf hF.ext.ext (hm.typed hr).lt, hty]

/-- A result inside the concatenation of the results of several outputs. -/
theorem flatMap_get_offset {V : Type} {g : Nat → List V} {w : Nat → Nat} {pre post : List Nat}
    {out i : Nat} (hw : ∀ x ∈ pre, (g x).length = w x) (hi : i < (g out).length) :
    ((pre ++ out :: post).flatMap g)[(pre.map w).sum + i]? = (g out)[i]? := by
  have hlen : (pre.flatMap g).length = (pre.map w).sum := by
    rw [List.length_flatMap]
    congr 1
    exact List.map_congr_left hw
  rw [List.flatMap_append, List.getElem?_append_right (by omega), hlen, List.flatMap_cons,
    List.getElem?_append_left (by omega)]
  congr 1
  omega

/-- A projection of the fused call stands for the use it replaces. -/
theorem projects_spec {hf : Heap} {outs pre post : List Nat} {tag : List String} {fc out k v : Nat}
    (hg : Group h ps b A a c) (hF : Fused h hf ps A outs tag fc) (he : Extends hf h')
    (houts : outs = [a, c]) (hsplit : outs = pre ++ out :: post)
    (hp : Projects h' fc (outputOffset h pre) out k v) (hk : Reach h b k) :
    typeOf h' v = typeOf h k ∧ Typed h' (Callable h') (IsCall h') ps v ∧
      ∀ (V : Type) (I : Interp V) (σ : Env V), Binds h ps σ → value I h' σ v = value I h σ k := by
  have hm := hg.main
  have hext := hF.ext.ext.trans he.ext
  have houtr {x : Nat} (hx : x ∈ outs) : Reach h b x := by
    obtain rfl | rfl : x = a ∨ x = c := by simpa [houts] using hx
    · exact hg.reachA
    · exact hg.reachC
  have hout : Reach h b out := houtr (by simp [hsplit])
  have htout := typeOf_ext hm.wf hext (hm.typed hout).lt
  have hfctype : typeOf hf fc = .tuple (outputOffset h outs) := by
    rw [hF.type, houts]
    rfl
  have hfclt : fc < hf.length := (hF.typed hg).lt
  have hfctyped : Typed h' (Callable h') (IsCall h') ps fc :=
    (hF.typed hg).mono hF.ext.wf he.ext (fun _ _ hf => hf.ext hF.ext.wf he.ext)
      (fun _ hc => hc.ext he.ext) (fun _ hps => hps)
  have hfcall : IsCall h' fc := by
    obtain ⟨f, params, body, hcall, -, -⟩ := hF.call
    exact ⟨_, _, get_ext he.ext hcall⟩
  have hsum : outputOffset h outs = outputOffset h pre + (typeOf h out).width + outputOffset h post := by
    rw [hsplit]
    simp [outputOffset, Nat.add_assoc]
  -- both kinds of uses read result `i` of the output
  obtain ⟨i, hi, hv, hkty, hkval⟩ : ∃ i, i < (typeOf h out).width ∧
      h'[v]? = some (.tupleGetItem fc (outputOffset h pre + i)) ∧ typeOf h k = .tensor ∧
      ∀ (V : Type) (I : Interp V) (σ : Env V), Binds h ps σ →
        ((value I h σ out)[i]?).toList = value I h σ k := by
    rcases hp with ⟨rfl, hty, hv⟩ | ⟨index, n, hty, hkget, hv⟩
    · rw [htout] at hty
      refine ⟨0, by rw [hty]; exact Nat.one_pos, hv, hty, fun V I σ hσ => ?_⟩
      have hlen := value_length (I := I) hm.wf hσ (hm.typed hout) (fun _ _ hf => hf)
      rw [hty] at hlen
      obtain ⟨w, hw⟩ := List.length_eq_one_iff.mp hlen
      rw [hw]
      rfl
    · have hkget' : h[k]? = some (.tupleGetItem out index) := by
        rw [← get_ext_iff hext (hm.typed hk).lt]
        exact hkget
      cases hm.typed hk with
      | item _ t j n' hget _ _ hty' hlt =>
        obtain ⟨rfl, rfl⟩ : t = out ∧ j = index := by simpa [hget] using hkget'
        refine ⟨j, by rw [hty']; exact hlt, hv, typeOf_item hget, fun V I σ hσ => ?_⟩
        rw [value_item hm.wf (hσ.vars.none_of_item hget) hget]
      | _ => simp_all
  refine ⟨by rw [typeOf_item hv, hkty], .item v fc _ _ hv hfcall hfctyped
    ((typeOf_ext hF.ext.wf he.ext hfclt).trans hfctype) (by omega), fun V I σ hσ => ?_⟩
  have hlen (x : Nat) (hx : Reach h b x) : (value I h σ x).length = (typeOf h x).width :=
    value_length hm.wf hσ (hm.typed hx) (fun _ _ hf => hf)
  rw [value_item he.wf ((hσ.ext hext).vars.none_of_item hv) hv, value_ext hF.ext.wf he.ext hfclt,
    hF.value V I σ hσ, hsplit, ← hkval V I σ hσ, outputOffset,
    flatMap_get_offset (fun x hx => hlen x (houtr (by simp [hsplit, hx]))) (by rw [hlen out hout]; exact hi)]

/-- `relay_call_map` replaces every outside use of the group. -/
theorem relayCallMap_spec {hf : Heap} {outputs : List (Nat × List Nat)} {tag : List String} {fc : Nat}
    (hg : Group h ps b A a c) (ho : Outputs h b a c outputs)
    (hF : Fused h hf ps A (outputs.map Prod.fst) tag fc) :
    ∃ m h', relayCallMap fc outputs hf = some (m, h') ∧ Rewired h hf h' ps b a c fc m := by
  have hm := hg.main
  have htyped := hF.typed hg
  rcases ho.shape with ⟨hshape, -, hno⟩ | hshape
  · obtain ⟨uses, rfl⟩ : ∃ uses, outputs = [(c, uses)] := by
      cases outputs with
      | nil => simp at hshape
      | cons o rest =>
        obtain ⟨out, uses⟩ := o
        obtain ⟨rfl, rfl⟩ : out = c ∧ rest = [] := by simpa using hshape
        exact ⟨uses, rfl⟩
    refine ⟨[(c, fc)], hf, rfl, Extends.refl hF.ext.wf, ?_, ?_, ?_, ?_, ?_, ?_⟩
    · intro k v hkv
      obtain ⟨rfl, rfl⟩ : k = c ∧ v = fc := by simpa using hkv
      exact ⟨hg.reachC, Or.inr (Or.inl rfl)⟩
    · intro k v hkv
      obtain ⟨-, rfl⟩ : k = c ∧ v = fc := by simpa using hkv
      exact Or.inl rfl
    · intro k v hkv
      obtain ⟨rfl, rfl⟩ : k = c ∧ v = fc := by simpa using hkv
      exact hF.type
    · intro k v hkv
      obtain ⟨-, rfl⟩ : k = c ∧ v = fc := by simpa using hkv
      exact htyped
    · intro k v hkv V I σ hσ
      obtain ⟨rfl, rfl⟩ : k = c ∧ v = fc := by simpa using hkv
      rw [hF.value V I σ hσ]
      simp
    · rintro y hy (hya | hyc)
      · exact absurd hya (hno y hy)
      · exact ⟨c, fc, by simp, hyc⟩
  · have hshape' : ∃ ua uc, outputs = [(a, ua), (c, uc)] := by
      match outputs, hshape with
      | [(o₁, ua), (o₂, uc)], hshape =>
        obtain ⟨rfl, rfl⟩ : o₁ = a ∧ o₂ = c := by simpa using hshape
        exact ⟨ua, uc, rfl⟩
    have hmem {o : Nat × List Nat} (hmo : o ∈ outputs) : Reach h b o.1 := by
      have : o.1 ∈ outputs.map Prod.fst := List.mem_map.mpr ⟨o, hmo, rfl⟩
      rw [hshape] at this
      obtain h1 | h1 : o.1 = a ∨ o.1 = c := by simpa using this
      · exact h1 ▸ hg.reachA
      · exact h1 ▸ hg.reachC
    have houtlt {o : Nat × List Nat} (hmo : o ∈ outputs) : o.1 < h.length := (hm.typed (hmem hmo)).lt
    have hty {o : Nat × List Nat} (hmo : o ∈ outputs) : typeOf hf o.1 = typeOf h o.1 :=
      typeOf_ext hm.wf hF.ext.ext (houtlt hmo)
    obtain ⟨m, h', hrun, hadd, hkeys⟩ := mapOutputs_spec 0 [] hF.ext.wf htyped.lt
      (fun o hmo => (houtlt hmo).trans_le hF.ext.ext.length_le) (by
        intro o hmo n hn k hk
        rw [hty hmo] at hn
        obtain ⟨hout, hu⟩ := (ho.uses o hmo k).mp hk
        rcases hu with rfl | ⟨index, hget⟩
        · simp [(hout.typed hm).2] at hn
        · exact ⟨index, get_ext hF.ext.ext hget⟩)
    have hspec {k v : Nat} (hkv : (k, v) ∈ m) : hf.length ≤ v ∧ Reach h b k ∧
        (GroupUse h a k ∨ GroupUse h c k) ∧ ∃ pre out post, outputs.map Prod.fst = pre ++ out :: post ∧
          Projects h' fc (outputOffset h pre) out k v := by
      rcases hadd.entry k v hkv with hno | ⟨hle, pre, out, uses, post, hsplit, hk, hp⟩
      · simp at hno
      · have hmo : (out, uses) ∈ outputs := by simp [hsplit]
        have hkr : Reach h b k ∧ GroupUse h out k := by
          rcases hk with rfl | hk
          · exact ⟨hmem hmo, Or.inl rfl⟩
          · obtain ⟨h1, h2⟩ := (ho.uses _ hmo k).mp hk
            exact ⟨(h1.typed hm).1, h2⟩
        have hoff : outputOffset hf (pre.map Prod.fst) = outputOffset h (pre.map Prod.fst) := by
          unfold outputOffset
          congr 1
          refine List.map_congr_left fun z hz => ?_
          obtain ⟨o, hmo', rfl⟩ := List.mem_map.mp hz
          rw [hty (by simp [hsplit, hmo'])]
        refine ⟨hle, hkr.1, ?_, pre.map Prod.fst, out, post.map Prod.fst, by simp [hsplit], ?_⟩
        · have : out ∈ outputs.map Prod.fst := List.mem_map.mpr ⟨_, hmo, rfl⟩
          rw [hshape] at this
          obtain rfl | rfl : out = a ∨ out = c := by simpa using this
          · exact Or.inl hkr.2
          · exact Or.inr hkr.2
        · rw [Nat.zero_add, hoff] at hp
          exact hp
    have hproj {k v : Nat} (hkv : (k, v) ∈ m) : typeOf h' v = typeOf h k ∧
        Typed h' (Callable h') (IsCall h') ps v ∧ ∀ (V : Type) (I : Interp V) (σ : Env V),
          Binds h ps σ → value I h' σ v = value I h σ k := by
      obtain ⟨-, hkr, -, pre, out, post, hsplit, hp⟩ := hspec hkv
      exact projects_spec hg hF hadd.ext hshape hsplit hp hkr
    refine ⟨m, h', ?_, hadd.ext, fun k v hkv => ?_, fun k v hkv => ?_, fun k v hkv => (hproj hkv).1,
      fun k v hkv => (hproj hkv).2.1, fun k v hkv => (hproj hkv).2.2, fun y hy hu => ?_⟩
    · obtain ⟨ua, uc, rfl⟩ := hshape'
      exact hrun
    · obtain ⟨-, h1, h2, -⟩ := hspec hkv
      exact ⟨h1, h2⟩
    · obtain ⟨hle, -, -, pre, out, post, -, hp⟩ := hspec hkv
      refine Or.inr ⟨hle, ?_⟩
      rcases hp with ⟨-, -, hv⟩ | ⟨index, n, -, -, hv⟩
      · exact ⟨_, hv⟩
      · exact ⟨_, hv⟩
    · obtain ⟨o, hmo, hou⟩ : ∃ o ∈ outputs, GroupUse h o.1 y := by
        obtain ⟨ua, uc, rfl⟩ := hshape'
        rcases hu with hu | hu
        · exact ⟨(a, ua), by simp, hu⟩
        · exact ⟨(c, uc), by simp, hu⟩
      obtain ⟨h1, h2⟩ := hkeys o hmo
      by_cases htens : typeOf hf o.1 = .tensor
      · obtain ⟨v, hv⟩ := h1 htens
        exact ⟨o.1, v, hv, hou⟩
      · obtain ⟨v, hv⟩ := h2 htens y ((ho.uses o hmo y).mpr ⟨hy, hou⟩)
        exact ⟨y, v, hv, Or.inl rfl⟩

end StencilGraph.Relay

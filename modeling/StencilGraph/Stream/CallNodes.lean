import StencilGraph.Relay.TagRun
import StencilGraph.Stream.StreamSolver

namespace StencilGraph.Stream
open Framework Relay Relation

variable {h : Heap} {ps : List Nat} {b m x y z c f : Nat} {N : String → Prop} {name : String}
  {tag T names : List String}

/-- Names without the separator of tags, such as the numbers of SSA values. -/
def NoUnderscore (name : String) : Prop := '_' ∉ name.toList

theorem noUnderscore_number (n : Nat) : NoUnderscore (toString n) := by
  intro hmem
  have hdigit := Nat.isDigit_of_mem_toDigits (b := 10) (by omega) (by omega)
    (show '_' ∈ Nat.toDigits 10 n by simpa [toString, Nat.repr] using hmem)
  exact absurd hdigit (by decide)

/-- Splitting gives the parts back. -/
theorem splitUnderscore_intercalate (hne : names ≠ []) (hno : ∀ name ∈ names, NoUnderscore name) :
    splitUnderscore ("_".intercalate names) = names := by
  unfold splitUnderscore
  rw [String.toList_intercalate, show "_".toList = ['_'] from rfl, List.splitOn_intercalate]
  · simp
  · intro l hl
    obtain ⟨name, hname, rfl⟩ := List.mem_map.mp hl
    exact hno name hname
  · simpa using hne

theorem splitUnderscore_fuseTagText (hne : names ≠ []) (hno : ∀ name ∈ names, NoUnderscore name) :
    splitUnderscore (fuseTagText names) = "fuse" :: names := by
  have htext : fuseTagText names = "_".intercalate ("fuse" :: names) := by
    cases names with
    | nil => exact absurd rfl hne
    | cons name names =>
      rw [String.intercalate_cons_cons]
      rfl
  rw [htext]
  apply splitUnderscore_intercalate (List.cons_ne_nil _ _)
  intro name hname
  cases List.mem_cons.mp hname with
  | inl heq =>
    rw [heq]
    unfold NoUnderscore
    decide
  | inr hname => exact hno name hname

theorem splitUnderscore_stencil (hno : NoUnderscore name) :
    splitUnderscore ("stencil_" ++ name) = ["stencil", name] := by
  have htext : "stencil_" ++ name = "_".intercalate ["stencil", name] := by
    rw [String.intercalate_cons_cons, String.intercalate_singleton]
    rfl
  rw [htext]
  apply splitUnderscore_intercalate (List.cons_ne_nil _ _)
  intro name' hname
  cases List.mem_pair.mp hname with
  | inl heq =>
    rw [heq]
    unfold NoUnderscore
    decide
  | inr heq =>
    rw [heq]
    exact hno

/-- `z` is a part of the function that the call `x` of `main` applies, with a stencil in it. -/
structure Owns (h : Heap) (b x z : Nat) : Prop where
  top : TopCall h b x
  inFunc : ∃ f args, h[x]? = some (.call (.func f) args) ∧ InFunc h f z
  stencil : ∃ name c, StencilOf h z name c

theorem Owns.own (ho : Owns h b x z) (hc : StencilOf h z name c) : OwnStencil h x name c := by
  obtain ⟨f, args, hget, hin⟩ := ho.inFunc
  exact .func hget ⟨hin.refReach.trans hc.reach, hc.op⟩

/-- Calls with a stencil in common are the same. -/
theorem own_unique (hn : Named h b N) (hx : TopCall h b x) (hy : TopCall h b y) {d : Nat}
    (hxc : OwnStencil h x name c) (hyd : OwnStencil h y name d) : x = y := by
  obtain ⟨T, ht⟩ := hn.tag x hx
  obtain ⟨T', ht'⟩ := hn.tag y hy
  exact hn.apart x y T T' name hx hy ht.tag ht'.tag (ht.tagged.names name c hxc)
    (ht'.tagged.names name d hyd)

theorem Owns.unique (hn : Named h b N) (hx : Owns h b x z) (hy : Owns h b y z) : x = y := by
  obtain ⟨name, c, hc⟩ := hx.stencil
  exact own_unique hn hx.top hy.top (hx.own hc) (hy.own hc)

namespace GetCallNode

/-- What `GetCallNode` has seen: the calls that were entered, each after the call of `main` that owns
it. -/
structure Seen (h : Heap) (ps : List Nat) (b m : Nat) (opened memo callList : List Nat) : Prop where
  collected : Visitor.Collected (children h) (BuildGraph.isCall h) opened memo callList
  below : ∀ z, z ∈ opened ∨ z ∈ memo → z = m ∨ z ∈ ps ∨ Reach h b z ∨ Inside h (Reach h b) z
  owned : ∀ z x, z ∈ opened ∨ z ∈ memo → Owns h b x z → x ∈ opened ∨ x ∈ memo
  order : callList.Pairwise fun u v => ¬ Owns h b v u

theorem children_of_get {n : Node} (hn : h[x]? = some n) : children h x = n.refs := by
  simp [children, hn]

/-- Where an object that is visited below an open one lies. -/
theorem child_below (hm : Main h ps b) (hmain : h[m]? = some (.function ps b tag))
    (hz : z = m ∨ z ∈ ps ∨ Reach h b z ∨ Inside h (Reach h b) z) (hc : c ∈ children h z) :
    (c ∈ ps ∨ Reach h b c) ∨ (∃ args, Reach h b z ∧ h[z]? = some (.call (.func c) args)) ∨
      ∃ x f args, Reach h b x ∧ h[x]? = some (.call (.func f) args) ∧ InFunc h f z ∧
        InFunc h f c := by
  rcases hz with rfl | hp | hr | ⟨x, f, args, hx, hget, hin⟩
  · rw [children_of_get hmain] at hc
    cases List.mem_append.mp hc with
    | inl hc => exact Or.inl (Or.inl hc)
    | inr hc =>
      rw [List.mem_singleton.mp hc]
      exact Or.inl (Or.inr .refl)
  · obtain ⟨name, hv⟩ := hm.vars z hp
    rw [children_of_get hv] at hc
    cases hc
  · obtain ⟨n, hn⟩ := get_of_lt (hm.typed hr).lt
    rw [children_of_get hn] at hc
    by_cases hd : c ∈ n.deps
    · exact Or.inl (Or.inr (hr.tail ⟨n, hn, hd⟩))
    · -- what is not a dependence is the function that a call applies
      cases n with
      | call callee args =>
        cases List.mem_append.mp hc with
        | inl hc =>
          cases callee with
          | op name outputs => cases hc
          | func f =>
            rw [List.mem_singleton.mp hc]
            exact Or.inr (Or.inl ⟨args, hr, hn⟩)
        | inr hc => exact absurd hc hd
      | function qs bd ftag => exact absurd (hm.typed hr) (not_typed_function hn)
      | _ => exact absurd hc hd
  · obtain ⟨qs, bd, ftag, hok⟩ := ((hm.typed hx).call hget).1 f rfl
    obtain ⟨n, hn, hvis⟩ := inFunc_visited (fun _ => none) hm.wf hok hin rfl
    rw [children_of_get hn] at hc
    refine Or.inr (Or.inr ⟨x, f, args, hx, hget, hin, (hvis c ?_).1⟩)
    cases n <;> exact hc

theorem seen_invariant (hm : Main h ps b) (hmain : h[m]? = some (.function ps b tag))
    (hn : Named h b N) : (visitor h).Invariant [m] False (Seen h ps b m) := by
  constructor
  · intro i opened memo s hs him hopen hi
    have hio : i ∉ opened := fun ho => absurd (hopen i ho) (lt_irrefl i)
    have hinside {x : Nat} (ho : Owns h b x i) : Inside h (Reach h b) i := by
      obtain ⟨f, args, hget, hin⟩ := ho.inFunc
      exact ⟨x, f, args, ho.top.2, hget, hin⟩
    have hnew : (i = m ∨ i ∈ ps ∨ Reach h b i ∨ Inside h (Reach h b) i) ∧
        ∀ x, Owns h b x i → x ∈ opened ∨ x ∈ memo := by
      rcases hi with hroot | ⟨o, ho, hc⟩
      · obtain rfl := List.mem_singleton.mp hroot
        refine ⟨Or.inl rfl, fun x hown => ?_⟩
        obtain ⟨f, args, hget, hin⟩ := hown.inFunc
        have h1 := hin.le hm.wf
        have h2 := wf_func hm.wf hget
        have h3 := hown.top.2.le hm.wf
        have h4 := wf_body hm.wf hmain
        omega
      · rcases child_below hm hmain (hs.below o (Or.inl ho)) hc with hexpr | ⟨args, hr, hget⟩ |
          ⟨x, f, args, hx, hget, hino, hini⟩
        · exact ⟨Or.inr (hexpr.imp_right Or.inl), fun x hown =>
            absurd (hinside hown) (hm.apart i hexpr)⟩
        · refine ⟨Or.inr (Or.inr (Or.inr ⟨o, i, args, hr, hget, Or.inl rfl⟩)), fun x hown => ?_⟩
          have hoown : Owns h b o i := ⟨⟨⟨_, args, hget⟩, hr⟩, ⟨i, args, hget, Or.inl rfl⟩,
            hown.stencil⟩
          exact hown.unique hn hoown ▸ Or.inl ho
        · refine ⟨Or.inr (Or.inr (Or.inr ⟨x, f, args, hx, hget, hini⟩)), fun y hown => ?_⟩
          have htop : TopCall h b x := ⟨⟨_, args, hget⟩, hx⟩
          -- the stencils below `i` are also below the object that refers to it
          have hxo : Owns h b x o := by
            refine ⟨htop, ⟨f, args, hget, hino⟩, ?_⟩
            obtain ⟨name, d, hd⟩ := hown.stencil
            cases hno : h[o]? with
            | none => simp [visitor, children, hno] at hc
            | some n => exact ⟨name, d, hd.head hno (children_of_get hno ▸ hc)⟩
          rw [hown.unique hn ⟨htop, ⟨f, args, hget, hini⟩, hown.stencil⟩]
          exact hs.owned o x (Or.inl ho) hxo
    change Seen h ps b m (i :: opened) memo (if BuildGraph.isCall h i then s ++ [i] else s)
    have hmem {z : Nat} : z ∈ i :: opened ∨ z ∈ memo ↔ z = i ∨ z ∈ opened ∨ z ∈ memo := by
      rw [List.mem_cons, or_assoc]
    refine ⟨hs.collected.enter hio him, fun z hz => ?_, fun z x hz hown => ?_, ?_⟩
    · cases hmem.mp hz with
      | inl heq => exact heq ▸ hnew.1
      | inr hz => exact hs.below z hz
    · cases hmem.mp hz with
      | inl heq => exact hmem.mpr (Or.inr (hnew.2 x (heq ▸ hown)))
      | inr hz => exact hmem.mpr (Or.inr (hs.owned z x hz hown))
    · split
      · apply List.pairwise_append.mpr ⟨hs.order, List.pairwise_singleton _ _, ?_⟩
        intro u hu v hv hown
        rw [List.mem_singleton.mp hv] at hown
        cases hs.owned u i ((hs.collected.mem u).mp hu).2 hown with
        | inl ho => exact hio ho
        | inr hmemo => exact him hmemo
      · exact hs.order
  · intro i opened memo s hs him hch
    change Seen h ps b m opened (i :: memo) s
    have hmem {z : Nat} : z ∈ opened ∨ z ∈ i :: memo ↔ z ∈ i :: opened ∨ z ∈ memo := by
      simp only [List.mem_cons]
      tauto
    refine ⟨hs.collected.leave hch, fun z hz => hs.below z (hmem.mp hz), fun z x hz ho => ?_,
      hs.order⟩
    exact hmem.mpr (hs.owned z x (hmem.mp hz) ho)

/-- The call list: the calls of `main` and some calls inside functions, these after their owners. -/
structure Collects (h : Heap) (b : Nat) (callList : List Nat) : Prop where
  nodup : callList.Nodup
  top : ∀ x, TopCall h b x → x ∈ callList
  call : ∀ x ∈ callList, IsCall h x ∧ (Reach h b x ∨ Inside h (Reach h b) x)
  order : callList.Pairwise fun u v => ¬ Owns h b v u

theorem getCallList_collects (hm : Main h ps b) (hmain : h[m]? = some (.function ps b tag))
    (hn : Named h b N) : ∃ L, getCallList h m = some L ∧ Collects h b L := by
  have hchildren : ∀ i, ∀ c ∈ (visitor h).children i, c < i := by
    intro i c hc
    change c ∈ children h i at hc
    cases hni : h[i]? with
    | none => simp [children, hni] at hc
    | some n => exact hm.wf i n hni c (children_of_get hni ▸ hc)
  obtain ⟨⟨memo, callList⟩, hrun, hs, hdone, -, -⟩ := (Visitor.visit_finished hchildren
    (seen_invariant hm hmain hn) (m + 1) m [] [] [] (by omega) (by simp) (Or.inl (by simp))
    ⟨⟨List.nodup_nil, by simp, by simp⟩, by simp, by simp, List.Pairwise.nil⟩).exists
  simp only at hs hdone
  have hmm : m ∈ memo := hdone m (by simp)
  have hbm : b ∈ memo := hs.collected.closed m hmm b (by simp [children_of_get hmain, Node.refs])
  have hreach {x : Nat} (hx : Reach h b x) : x ∈ memo := by
    induction hx with
    | refl => exact hbm
    | tail hz hd ih =>
      obtain ⟨n, hnz, hy⟩ := hd
      exact hs.collected.closed _ ih _ (children_of_get hnz ▸ deps_subset_refs hy)
  refine ⟨callList, by simp [getCallList, hrun], hs.collected.nodup, fun x hx => ?_, fun x hx => ?_,
    hs.order⟩
  · exact (hs.collected.mem x).mpr ⟨isCall_iff.mpr hx.1, Or.inr (hreach hx.2)⟩
  · obtain ⟨hc, hseen⟩ := (hs.collected.mem x).mp hx
    have hcall := isCall_iff.mp hc
    refine ⟨hcall, ?_⟩
    obtain ⟨callee, args, hget⟩ := hcall
    rcases hs.below x hseen with rfl | hp | hcase
    · cases hget.symm.trans hmain
    · obtain ⟨name, hv⟩ := hm.vars x hp
      cases hget.symm.trans hv
    · exact hcase

end GetCallNode

namespace StreamSolver

section Remove

variable {found : Nat → Bool} {fuel i : Nat} {l L : List Nat}

theorem removeLoop_none (hno : ∀ x ∈ l, found x = false) : removeLoop found fuel i l = l := by
  induction fuel generalizing i with
  | zero => rfl
  | succ fuel ih =>
    unfold removeLoop
    cases hi : l[i]? with
    | none => rfl
    | some cc =>
      simp only [hno cc (List.mem_of_getElem? hi), Bool.false_eq_true, if_false]
      exact ih

/-- Skipping the element after a removed one does no harm when only one element is removed. -/
theorem removeLoop_eq_filter (hn : l.Nodup) (hu : ∀ x ∈ l, ∀ y ∈ l, found x → found y → x = y)
    (hpre : ∀ x ∈ l.take i, found x = false) (hfuel : l.length ≤ fuel + i) :
    removeLoop found fuel i l = l.filter fun x => !found x := by
  have hkeep (hno : ∀ x ∈ l, found x = false) : l = l.filter fun x => !found x := by
    symm
    apply List.filter_eq_self.mpr
    intro x hx
    simp [hno x hx]
  induction fuel generalizing i with
  | zero =>
    apply hkeep
    rwa [List.take_of_length_le (by omega)] at hpre
  | succ fuel ih =>
    unfold removeLoop
    cases hi : l[i]? with
    | none =>
      apply hkeep
      rwa [List.take_of_length_le (List.getElem?_eq_none_iff.mp hi)] at hpre
    | some cc =>
      have hcc := List.mem_of_getElem? hi
      simp only
      split
      · rename_i hf
        have herase : l.erase cc = l.filter fun x => !found x := by
          rw [hn.erase_eq_filter]
          apply List.filter_congr
          intro x hx
          by_cases heq : x = cc
          · simp [heq, hf]
          · have hxf : found x = false := by
              by_contra hxf
              exact heq (hu x hx cc hcc (by simpa using hxf) hf)
            simp [heq, hxf]
        rw [herase]
        apply removeLoop_none
        intro x hx
        simpa using (List.mem_filter.mp hx).2
      · rename_i hf
        apply ih
        · intro x hx
          rw [List.take_add_one, hi, List.mem_append] at hx
          cases hx with
          | inl hx => exact hpre x hx
          | inr hx =>
            rw [Option.toList_some, List.mem_singleton] at hx
            rw [hx]
            simpa using hf
        · omega

theorem removeNamed_eq_filter (hn : l.Nodup)
    (hu : ∀ x ∈ l, ∀ y ∈ l, hasName h name x → hasName h name y → x = y) :
    removeNamed h l name = l.filter fun x => !hasName h name x :=
  removeLoop_eq_filter hn hu (by simp) (by omega)

theorem foldl_removeNamed_eq_filter (hn : l.Nodup)
    (hu : ∀ name ∈ names, ∀ x ∈ l, ∀ y ∈ l, hasName h name x → hasName h name y → x = y) :
    names.foldl (removeNamed h) l = l.filter fun x => !names.any fun name => hasName h name x := by
  induction names generalizing l with
  | nil => simp
  | cons name names ih =>
    have hsub : (l.filter fun x => !hasName h name x) ⊆ l := List.filter_subset' l
    rw [List.foldl_cons, removeNamed_eq_filter hn (hu name List.mem_cons_self),
      ih (hn.filter _) fun name' hname x hx y hy =>
        hu name' (List.mem_cons_of_mem _ hname) x (hsub hx) y (hsub hy), List.filter_filter]
    apply List.filter_congr
    intro x _
    simp [Bool.and_comm]

end Remove

theorem hasName_iff (hno : ∀ name', OpCall h x name' → NoUnderscore name') :
    hasName h name x ↔ OpCall h x name := by
  unfold hasName attrsTag
  cases hget : h[x]? with
  | none =>
    simp only [Bool.false_eq_true, false_iff]
    intro ⟨outputs, args, hop⟩
    cases hget.symm.trans hop
  | some n =>
    have hnot (hne : ∀ name outputs args, n ≠ .call (.op name outputs) args) : ¬ OpCall h x name := by
      intro ⟨outputs, args, hop⟩
      exact hne name outputs args (Option.some.inj (hget.symm.trans hop))
    cases n with
    | call callee args =>
      cases callee with
      | op name' outputs =>
        have hop : OpCall h x name' := ⟨outputs, args, hget⟩
        simp only [splitUnderscore_stencil (hno name' hop), decide_eq_true_eq]
        constructor
        · intro heq
          exact Option.some.inj heq ▸ hop
        · intro hop'
          rw [hop'.name_eq hop]
          rfl
      | func f => simpa using hnot (by simp)
    | _ => simpa using hnot (by simp)

theorem stencilNames_op (hop : OpCall h x name) : stencilNames h x = [] := by
  obtain ⟨outputs, args, hget⟩ := hop
  simp [stencilNames, opTag, hget]

theorem fuseTagText_has_fuse (names : List String) : "fuse".toList <:+: (fuseTagText names).toList := by
  unfold fuseTagText
  rw [String.toList_append]
  exact (List.IsPrefix.trans ⟨['_'], rfl⟩ (List.prefix_append _ _)).isInfix

theorem stencilNames_func {args : List Nat} (hget : h[x]? = some (.call (.func f) args))
    (hT : GroupOp.tagNames h x = some T) (hne : T ≠ []) (hno : ∀ name ∈ T, NoUnderscore name) :
    stencilNames h x = T := by
  have htag : opTag h x = some (fuseTagText T) := by
    unfold GroupOp.tagNames at hT
    unfold opTag
    rw [hget] at hT ⊢
    simp only at hT ⊢
    cases hf : h[f]? with
    | none => simp [hf] at hT
    | some n =>
      rw [hf] at hT
      cases n with
      | function qs bd tag => rw [← Option.some.inj hT]
      | _ => cases hT
  unfold stencilNames
  simp only [htag, if_pos (fuseTagText_has_fuse T), splitUnderscore_fuseTagText hne hno, List.tail_cons]

section Clean

variable {i : Nat} {l L : List Nat} (hm : Main h ps b) (hn : Named h b N)
  (hN : ∀ name, N name → NoUnderscore name)

include hm

/-- A call inside a function applies a stencil and has an owner. -/
theorem inside_owner (hin : Inside h (Reach h b) z) (hc : IsCall h z) :
    ∃ x name, Owns h b x z ∧ OpCall h z name := by
  obtain ⟨x, f, args, hx, hget, hin⟩ := hin
  obtain ⟨callee, cargs, hz⟩ := hc
  obtain ⟨qs, bd, tag, hok⟩ := ((hm.typed hx).call hget).1 f rfl
  have hop : ∃ name, OpCall h z name := by
    rcases hin with rfl | ⟨qs', bd', tag', hnode, hz'⟩
    · cases hz.symm.trans hok.node
    · cases hok.node.symm.trans hnode
      cases hz' with
      | inl hq =>
        obtain ⟨v, hv⟩ := hok.vars z hq
        cases hz.symm.trans hv
      | inr hr =>
        cases callee with
        | op name outputs => exact ⟨name, outputs, cargs, hz⟩
        | func g => exact (((hr.typed hok.body).call hz).1 g rfl).elim
  obtain ⟨name, hop⟩ := hop
  exact ⟨x, name, ⟨⟨⟨_, args, hget⟩, hx⟩, ⟨f, args, hget, hin⟩, name, z, .refl, hop⟩, hop⟩

theorem not_top_of_owns (ho : Owns h b x z) : ¬ TopCall h b z := by
  intro htop
  obtain ⟨f, args, hget, hin⟩ := ho.inFunc
  exact hm.apart z (Or.inr htop.2) ⟨x, f, args, ho.top.2, hget, hin⟩

include hn

/-- The stencil calls of the list have one name each, and no name stands twice. -/
theorem collects_unique (hL : GetCallNode.Collects h b L) (hx : x ∈ L) (hy : y ∈ L)
    (hxn : OpCall h x name) (hyn : OpCall h y name) : x = y := by
  have howner {x : Nat} (hx : x ∈ L) (hxn : OpCall h x name) :
      ∃ u, TopCall h b u ∧ OwnStencil h u name x := by
    obtain ⟨hcall, hcase⟩ := hL.call x hx
    cases hcase with
    | inl hr => exact ⟨x, ⟨hcall, hr⟩, .op hxn⟩
    | inr hin =>
      obtain ⟨u, name', ho, -⟩ := inside_owner hm hin hcall
      exact ⟨u, ho.top, ho.own ⟨.refl, hxn⟩⟩
  obtain ⟨u, hu, hux⟩ := howner hx hxn
  obtain ⟨v, hv, hvy⟩ := howner hy hyn
  obtain rfl := own_unique hn hu hv hux hvy
  obtain ⟨T, ht⟩ := hn.tag u hu
  exact ht.tagged.unique name x y hux hvy

include hN

theorem collects_noUnderscore (hL : GetCallNode.Collects h b L) (hx : x ∈ L)
    (hxn : OpCall h x name) : NoUnderscore name := by
  obtain ⟨hcall, hcase⟩ := hL.call x hx
  have hown {u : Nat} (hu : TopCall h b u) (hux : OwnStencil h u name x) : NoUnderscore name := by
    obtain ⟨T, ht⟩ := hn.tag u hu
    exact hN name (ht.valid.names name (ht.tagged.names name x hux))
  cases hcase with
  | inl hr => exact hown ⟨hcall, hr⟩ (.op hxn)
  | inr hin =>
    obtain ⟨u, name', ho, -⟩ := inside_owner hm hin hcall
    exact hown ho.top (ho.own ⟨.refl, hxn⟩)

/-- What the names of a fused call remove: the calls that it owns. -/
theorem foldl_removeNamed_spec (hL : GetCallNode.Collects h b L) (hl : l.Sublist L)
    (hx : TopCall h b x) {args : List Nat} (hget : h[x]? = some (.call (.func f) args)) :
    ∃ keep : Nat → Bool, (stencilNames h x).foldl (removeNamed h) l = l.filter keep ∧
      ∀ u ∈ l, keep u = false ↔ Owns h b x u := by
  obtain ⟨T, ht⟩ := hn.tag x hx
  rw [stencilNames_func hget ht.tag ht.valid.ne fun name hname => hN name (ht.valid.names name hname)]
  have hname {u : Nat} (hu : u ∈ l) (name : String) : hasName h name u ↔ OpCall h u name :=
    hasName_iff fun name' hop => collects_noUnderscore hm hn hN hL (hl.subset hu) hop
  refine ⟨_, foldl_removeNamed_eq_filter (hL.nodup.sublist hl) fun name _ u hu v hv hun hvn => ?_,
    fun u hu => ?_⟩
  · exact collects_unique hm hn hL (hl.subset hu) (hl.subset hv) ((hname hu name).mp hun)
      ((hname hv name).mp hvn)
  · simp only [Bool.not_eq_false', List.any_eq_true]
    obtain ⟨hcall, hcase⟩ := hL.call u (hl.subset hu)
    constructor
    · intro ⟨name, hmem, hun⟩
      have hop := (hname hu name).mp hun
      cases hcase with
      | inl hr =>
        -- a call of `main` with this name would be the fused call itself
        have htop : TopCall h b u := ⟨hcall, hr⟩
        obtain ⟨T', ht'⟩ := hn.tag u htop
        obtain rfl := hn.apart x u T T' name hx htop ht.tag ht'.tag hmem
          (ht'.tagged.names name u (.op hop))
        obtain ⟨outputs, args', hop⟩ := hop
        cases hget.symm.trans hop
      | inr hin =>
        obtain ⟨y, name', ho, -⟩ := inside_owner hm hin hcall
        obtain ⟨T', ht'⟩ := hn.tag y ho.top
        have hname' := ht'.tagged.names name u (ho.own ⟨.refl, hop⟩)
        rwa [← hn.apart x y T T' name hx ho.top ht.tag ht'.tag hmem hname'] at ho
    · intro ho
      cases hcase with
      | inl hr => exact absurd ⟨hcall, hr⟩ (not_top_of_owns hm ho)
      | inr hin =>
        obtain ⟨y, name, -, hop⟩ := inside_owner hm hin hcall
        exact ⟨name, ht.tagged.names name u (ho.own ⟨.refl, hop⟩), (hname hu name).mpr hop⟩

/-- The list after the first `i` calls were looked at: what they own is gone. -/
structure Cleaned (h : Heap) (b : Nat) (L : List Nat) (i : Nat) (l : List Nat) : Prop where
  sublist : l.Sublist L
  top : ∀ x, TopCall h b x → x ∈ l
  gone : ∀ x ∈ l.take i, ∀ u ∈ l, ¬ Owns h b x u

theorem Cleaned.step (hL : GetCallNode.Collects h b L) (hl : Cleaned h b L i l)
    (hi : l[i]? = some x) :
    Cleaned h b L (i + 1) ((stencilNames h x).foldl (removeNamed h) l) := by
  have hxl := List.mem_of_getElem? hi
  have htake : l.take (i + 1) = l.take i ++ [x] := by
    rw [List.take_add_one, hi, Option.toList_some]
  obtain ⟨hcall, hcase⟩ := hL.call x (hl.sublist.subset hxl)
  have hop {name : String} (hop : OpCall h x name) :
      Cleaned h b L (i + 1) ((stencilNames h x).foldl (removeNamed h) l) := by
    rw [stencilNames_op hop, List.foldl_nil]
    refine ⟨hl.sublist, hl.top, fun y hy u hu ho => ?_⟩
    rw [htake, List.mem_append] at hy
    cases hy with
    | inl hy => exact hl.gone y hy u hu ho
    | inr hy =>
      rw [List.mem_singleton.mp hy] at ho
      obtain ⟨f, args, hget, -⟩ := ho.inFunc
      obtain ⟨outputs, args', hop⟩ := hop
      cases hget.symm.trans hop
  cases hcase with
  | inr hin =>
    obtain ⟨y, name, -, hname⟩ := inside_owner hm hin hcall
    exact hop hname
  | inl hr =>
    have htop : TopCall h b x := ⟨hcall, hr⟩
    obtain ⟨callee, args, hget⟩ := hcall
    cases callee with
    | op name outputs => exact hop ⟨outputs, args, hget⟩
    | func f =>
      obtain ⟨keep, hrun, hkeep⟩ := foldl_removeNamed_spec hm hn hN hL hl.sublist htop hget
      rw [hrun]
      -- nothing is removed up to the index, since owners come first
      have hfirst : (l.filter keep).take (i + 1) = l.take (i + 1) := by
        have hall : (l.take (i + 1)).filter keep = l.take (i + 1) := by
          apply List.filter_eq_self.mpr
          intro u hu
          by_contra hku
          have ho := (hkeep u (List.mem_of_mem_take hu)).mp (by simpa using hku)
          rw [htake, List.mem_append] at hu
          cases hu with
          | inl hu =>
            have hpair := hL.order.sublist ((List.take_sublist (i + 1) l).trans hl.sublist)
            rw [htake] at hpair
            exact (List.pairwise_append.mp hpair).2.2 u hu x (List.mem_singleton.mpr rfl) ho
          | inr hu =>
            rw [List.mem_singleton.mp hu] at ho
            exact not_top_of_owns hm ho htop
        have hlen : (l.take (i + 1)).length = i + 1 := by
          have := (List.getElem?_eq_some_iff.mp hi).1
          rw [List.length_take]
          omega
        nth_rewrite 1 [← List.take_append_drop (i + 1) l]
        rw [List.filter_append, hall, List.take_append_of_le_length hlen.ge,
          List.take_of_length_le hlen.le]
      refine ⟨(List.filter_sublist).trans hl.sublist, fun y hy => ?_, fun y hy u hu ho => ?_⟩
      · apply List.mem_filter.mpr ⟨hl.top y hy, ?_⟩
        by_contra hky
        exact not_top_of_owns hm ((hkeep y (hl.top y hy)).mp (by simpa using hky)) hy
      · obtain ⟨hu, hku⟩ := List.mem_filter.mp hu
        rw [hfirst, htake, List.mem_append] at hy
        cases hy with
        | inl hy => exact hl.gone y hy u hu ho
        | inr hy =>
          rw [List.mem_singleton.mp hy] at ho
          rw [(hkeep u hu).mpr ho] at hku
          cases hku

theorem removeFused_cleaned (hL : GetCallNode.Collects h b L) (fuel : Nat)
    (hl : Cleaned h b L i l) (hfuel : L.length ≤ fuel + i) :
    ∃ k, Cleaned h b L k (removeFused h fuel i l) ∧ (removeFused h fuel i l).length ≤ k := by
  have hlen := hl.sublist.length_le
  induction fuel generalizing i l with
  | zero =>
    refine ⟨i, hl, ?_⟩
    show l.length ≤ i
    omega
  | succ fuel ih =>
    unfold removeFused
    cases hi : l[i]? with
    | none => exact ⟨i, hl, List.getElem?_eq_none_iff.mp hi⟩
    | some x =>
      have hstep := hl.step hm hn hN hL hi
      exact ih hstep (by omega) hstep.sublist.length_le

/-- What is left of the list are the calls of `main`. -/
theorem removeFused_spec (hL : GetCallNode.Collects h b L) :
    (removeFused h L.length 0 L).Nodup ∧ ∀ x, x ∈ removeFused h L.length 0 L ↔ TopCall h b x := by
  have hstart : Cleaned h b L 0 L := ⟨List.Sublist.refl L, hL.top, by simp⟩
  obtain ⟨k, hl, hk⟩ := removeFused_cleaned hm hn hN hL L.length hstart le_rfl
  refine ⟨hL.nodup.sublist hl.sublist, fun x => ⟨fun hx => ?_, hl.top x⟩⟩
  obtain ⟨hcall, hcase⟩ := hL.call x (hl.sublist.subset hx)
  cases hcase with
  | inl hr => exact ⟨hcall, hr⟩
  | inr hin =>
    obtain ⟨y, name, ho, -⟩ := inside_owner hm hin hcall
    have hgone := hl.gone y
    rw [List.take_of_length_le hk] at hgone
    exact absurd ho (hgone (hl.top y ho.top) x hx)

end Clean

end StreamSolver

end StencilGraph.Stream

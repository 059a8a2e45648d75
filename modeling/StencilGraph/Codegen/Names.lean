import StencilGraph.Framework.Text
import StencilGraph.Stream.Levels

namespace StencilGraph.Codegen
open Framework Relay Stream

/-- `variable2name`, as `ReplaceCallOp` fills it; `none` is the `KeyError` of an object that has no
name. -/
def variable2name (h : Heap) (x : Nat) : Option String :=
  match h[x]? with
  | some (.call (.op name _) _) => some ("%" ++ name)
  | some (.call (.func f) _) =>
    match h[f]? with
    | some (.function _ _ tag) => some ("%" ++ "_".intercalate tag)
    | _ => none
  | some (.var name) =>
    if "data_".toList <+: name.toList then some ("%" ++ String.ofList (name.toList.drop 5)) else none
  | _ => none

/-- `replace_fuse_output_name`: fused calls get the names `%fuse_0, %fuse_1, ...`. -/
def fuseNameMap (h : Heap) (callSequence : List Nat) : List (String × String) :=
  (((callSequence.filterMap (variable2name h)).filter fun name => '_' ∈ name.toList).zipIdx).map
    fun (name, idx) => (name, "%fuse_" ++ toString idx)

/-- `fuse_name_map.get(name, name)`; later entries win. -/
def fuseName (h : Heap) (callSequence : List Nat) (name : String) : String :=
  ((fuseNameMap h callSequence).reverse.lookup name).getD name

/-- The name that a printed kernel gives to an object. -/
def resultName (h : Heap) (callSequence : List Nat) (x : Nat) : Option String :=
  (variable2name h x).map (fuseName h callSequence)

/-- The name of the buffer of a call. -/
def bufferName (h : Heap) (callSequence : List Nat) (x : Nat) : String :=
  ((resultName h callSequence x).map (dropChar '%')).getD ""

/-- The stencils of a program are named by the numbers of SSA values. -/
structure SsaNumbers (h : Heap) (b : Nat) : Prop where
  distinct : DistinctStencils h b
  number : ∀ name, StencilName h b name → ∃ n : Nat, name = toString n

/-- The two forms of buffer names. -/
def IsBuffer (name : String) : Prop :=
  (∃ n : Nat, name = toString n) ∨ ∃ k : Nat, name = "fuse_" ++ toString k

variable {h : Heap} {ps L : List Nat} {b x y : Nat} {N : String → Prop} {name name' : String}

theorem IsBuffer.notMem {c : Char} (hb : IsBuffer name) (hd : c.isDigit = false)
    (hf : c ∉ "fuse_".toList) : c ∉ name.toList := by
  rcases hb with ⟨n, rfl⟩ | ⟨k, rfl⟩
  · exact notMem_number hd
  · rw [String.toList_append, List.mem_append]
    intro hc
    exact hc.elim hf (notMem_number hd)

/-- A buffer name is no other buffer name with an index. -/
theorem IsBuffer.ne_numbered {i : Nat} (hb : IsBuffer name) (hb' : IsBuffer name') :
    name ≠ name' ++ "_" ++ toString i := by
  intro heq
  have hmem : '_' ∈ name.toList := by
    rw [heq]
    simp
  rcases hb with ⟨n, rfl⟩ | ⟨k, rfl⟩
  · exact notMem_number (by decide) hmem
  · obtain ⟨hname, -⟩ := numbered_inj (a := "fuse") (show "fuse" ++ "_" ++ toString k = _ from heq)
    rcases hb' with ⟨n, rfl⟩ | ⟨j, rfl⟩
    · have hf : 'f' ∈ (toString n).toList := hname ▸ (by decide : 'f' ∈ "fuse".toList)
      exact notMem_number (by decide) hf
    · have hu : '_' ∈ "fuse".toList := by
        rw [hname, String.toList_append]
        exact List.mem_append_left _ (by decide)
      exact absurd hu (by decide)

/-- No buffer name begins with the letter that marks projections. -/
theorem IsBuffer.head_ne (hb : IsBuffer name) : name.toList.head? ≠ some 'v' := by
  intro hhead
  exact hb.notMem (by decide) (by decide) (List.mem_of_mem_head? hhead)

theorem SsaNumbers.ssaNames (hs : SsaNumbers h b) : StreamSolver.SsaNames h b := by
  refine ⟨hs.distinct, fun name hname => ?_⟩
  obtain ⟨n, rfl⟩ := hs.number name hname
  exact noUnderscore_number n

/-- The names of the fused calls, in the order of the call sequence. -/
def fusedNames (h : Heap) (callSequence : List Nat) : List String :=
  (callSequence.filterMap (variable2name h)).filter fun name => '_' ∈ name.toList

theorem mem_fuseNameMap {text : String} : (name, text) ∈ fuseNameMap h L ↔
    ∃ k : Nat, (fusedNames h L)[k]? = some name ∧ text = "%fuse_" ++ toString k := by
  unfold fuseNameMap fusedNames
  rw [List.mem_map]
  constructor
  · intro ⟨e, he, heq⟩
    obtain ⟨rfl, rfl⟩ := Prod.mk.inj heq
    exact ⟨e.2, List.mem_zipIdx_iff_getElem?.mp he, rfl⟩
  · intro ⟨k, hk, htext⟩
    exact ⟨(name, k), List.mem_zipIdx_iff_getElem?.mpr hk, htext ▸ rfl⟩

/-- A name without underscore is kept. -/
theorem fuseName_plain (hno : '_' ∉ name.toList) : fuseName h L name = name := by
  unfold fuseName
  cases hlook : (fuseNameMap h L).reverse.lookup name with
  | none => rfl
  | some text =>
    obtain ⟨l₁, l₂, hl, -⟩ := List.lookup_eq_some_iff.mp hlook
    have hmem : (name, text) ∈ fuseNameMap h L := by
      rw [← List.mem_reverse, hl]
      exact List.mem_append_right _ List.mem_cons_self
    obtain ⟨k, hk, -⟩ := mem_fuseNameMap.mp hmem
    exact absurd (by simpa using (List.mem_filter.mp (List.mem_of_getElem? hk)).2) hno

/-- The name of a fused call becomes a numbered one. -/
theorem fuseName_fused (hmem : name ∈ fusedNames h L) :
    ∃ k : Nat, fuseName h L name = "%fuse_" ++ toString k ∧ (fusedNames h L)[k]? = some name := by
  obtain ⟨i, hi⟩ := List.mem_iff_getElem?.mp hmem
  have hentry : (name, "%fuse_" ++ toString i) ∈ fuseNameMap h L := mem_fuseNameMap.mpr ⟨i, hi, rfl⟩
  unfold fuseName
  cases hlook : (fuseNameMap h L).reverse.lookup name with
  | none =>
    have hno := List.lookup_eq_none_iff.mp hlook _ (List.mem_reverse.mpr hentry)
    simp at hno
  | some text =>
    obtain ⟨l₁, l₂, hl, -⟩ := List.lookup_eq_some_iff.mp hlook
    have hmem : (name, text) ∈ fuseNameMap h L := by
      rw [← List.mem_reverse, hl]
      exact List.mem_append_right _ List.mem_cons_self
    obtain ⟨k, hk, rfl⟩ := mem_fuseNameMap.mp hmem
    exact ⟨k, rfl, hk⟩

section Names

theorem variable2name_of_tag {T : List String} (ht : GroupOp.tagNames h x = some T) :
    variable2name h x = some ("%" ++ "_".intercalate T) := by
  unfold GroupOp.tagNames at ht
  unfold variable2name
  cases hget : h[x]? with
  | none => simp [hget] at ht
  | some n =>
    rw [hget] at ht
    cases n with
    | call callee args =>
      cases callee with
      | op name outputs =>
        obtain rfl := Option.some.inj ht
        simp
      | func f =>
        simp only at ht ⊢
        cases hf : h[f]? with
        | none => simp [hf] at ht
        | some n =>
          rw [hf] at ht
          cases n with
          | function qs bd tag => rw [← Option.some.inj ht]
          | _ => cases ht
    | _ => cases ht

variable (hn : Named h b N) (hN : ∀ name, N name → ∃ n : Nat, name = toString n)
  (hnodup : L.Nodup) (hL : ∀ x, x ∈ L ↔ TopCall h b x)

include hn hN

theorem noUnderscore_tag {T : List String} (ht : NamedCall h N x T) :
    ∀ name ∈ T, NoUnderscore name := by
  intro name hname
  obtain ⟨n, rfl⟩ := hN name (ht.valid.names name hname)
  exact noUnderscore_number n

/-- Calls of `main` have different names. -/
theorem variable2name_inj (hx : TopCall h b x) (hy : TopCall h b y)
    (hxn : variable2name h x = some name) (hyn : variable2name h y = some name) : x = y := by
  obtain ⟨T, ht⟩ := hn.tag x hx
  obtain ⟨T', ht'⟩ := hn.tag y hy
  rw [variable2name_of_tag ht.tag, ← hyn, variable2name_of_tag ht'.tag] at hxn
  have htext : "_".intercalate T = "_".intercalate T' := by
    have := congrArg (fun s => s.toList.tail) (Option.some.inj hxn)
    apply String.toList_inj.mp
    simpa [String.toList_append] using this
  have hparts : T = T' := by
    rw [← splitUnderscore_intercalate ht.valid.ne (noUnderscore_tag hn hN ht), htext,
      splitUnderscore_intercalate ht'.valid.ne (noUnderscore_tag hn hN ht')]
  obtain ⟨first, hfirst⟩ := List.exists_mem_of_ne_nil T ht.valid.ne
  exact hn.apart x y T T' first hx hy ht.tag ht'.tag hfirst (hparts ▸ hfirst)

include hL

/-- The printed name of a call of `main`: its own number, or the number of a fused call. -/
theorem resultName_cases (hx : TopCall h b x) :
    (∃ n : Nat, variable2name h x = some ("%" ++ toString n) ∧
      resultName h L x = some ("%" ++ toString n)) ∨
    ∃ name, ∃ k : Nat, variable2name h x = some name ∧
      resultName h L x = some ("%fuse_" ++ toString k) ∧ (fusedNames h L)[k]? = some name := by
  obtain ⟨T, ht⟩ := hn.tag x hx
  have hv := variable2name_of_tag ht.tag
  have hres : resultName h L x = some (fuseName h L ("%" ++ "_".intercalate T)) := by
    simp [resultName, hv]
  by_cases hu : '_' ∈ ("%" ++ "_".intercalate T).toList
  · have hmem : "%" ++ "_".intercalate T ∈ fusedNames h L := by
      apply List.mem_filter.mpr ⟨List.mem_filterMap.mpr ⟨x, (hL x).mpr hx, hv⟩, ?_⟩
      exact decide_eq_true hu
    obtain ⟨k, hk, hget⟩ := fuseName_fused hmem
    exact Or.inr ⟨_, k, hv, hk ▸ hres, hget⟩
  · -- without underscore the tag is one number
    have hone : ∃ n : Nat, T = [toString n] := by
      have hparts := splitUnderscore_intercalate ht.valid.ne (noUnderscore_tag hn hN ht)
      cases T with
      | nil => exact absurd rfl ht.valid.ne
      | cons first rest =>
        cases rest with
        | nil =>
          obtain ⟨n, hfirst⟩ := hN first (ht.valid.names first List.mem_cons_self)
          exact ⟨n, congrArg (fun name => [name]) hfirst⟩
        | cons second rest =>
          apply absurd _ hu
          rw [String.intercalate_cons_cons]
          simp
    obtain ⟨n, rfl⟩ := hone
    rw [fuseName_plain hu] at hres
    rw [String.intercalate_singleton] at hv hres
    exact Or.inl ⟨n, hv, hres⟩

theorem resultName_eq (hx : TopCall h b x) :
    resultName h L x = some ("%" ++ bufferName h L x) ∧ IsBuffer (bufferName h L x) := by
  have hdrop {name : String} (hres : resultName h L x = some ("%" ++ name)) (hb : IsBuffer name) :
      resultName h L x = some ("%" ++ bufferName h L x) ∧ IsBuffer (bufferName h L x) := by
    have heq : bufferName h L x = name := by
      simp only [bufferName, hres, Option.map_some, Option.getD_some, dropChar_append]
      rw [dropChar_of_notMem (hb.notMem (by decide) (by decide)),
        show dropChar '%' "%" = "" by decide, String.empty_append]
    rw [heq]
    exact ⟨hres, hb⟩
  rcases resultName_cases hn hN hL hx with ⟨n, -, hres⟩ | ⟨name, k, -, hres, -⟩
  · exact hdrop hres (Or.inl ⟨n, rfl⟩)
  · have hfuse : IsBuffer ("fuse_" ++ toString k) := Or.inr ⟨k, rfl⟩
    exact hdrop (hres.trans (by rw [← String.append_assoc]; rfl)) hfuse

/-- Calls of `main` have different buffers. -/
theorem bufferName_inj (hx : TopCall h b x) (hy : TopCall h b y)
    (heq : bufferName h L x = bufferName h L y) : x = y := by
  have hres : resultName h L x = resultName h L y := by
    rw [(resultName_eq hn hN hL hx).1, (resultName_eq hn hN hL hy).1, heq]
  have hmixed {n k : Nat} (heq : some ("%" ++ toString n) = some ("%fuse_" ++ toString k)) :
      False := by
    have htail := congrArg (fun s => (s.getD "").toList.tail) heq
    have hf : 'f' ∈ (toString n).toList := by
      simp only [Option.getD_some, String.toList_append] at htail
      rw [show (toString n).toList = _ from htail]
      simp
    exact notMem_number (by decide) hf
  rcases resultName_cases hn hN hL hx with ⟨n, hvx, hrx⟩ | ⟨nx, k, hvx, hrx, hkx⟩ <;>
    rcases resultName_cases hn hN hL hy with ⟨n', hvy, hry⟩ | ⟨ny, k', hvy, hry, hky⟩
  · rw [hrx, hry] at hres
    exact variable2name_inj hn hN hx hy hvx (hres ▸ hvy)
  · exact (hmixed (hrx.symm.trans (hres.trans hry))).elim
  · exact (hmixed (hry.symm.trans (hres.symm.trans hrx))).elim
  · have hnum : k = k' := by
      have heq := Option.some.inj (hrx.symm.trans (hres.trans hry))
      exact (numbered_inj (a := "%fuse") (b := "%fuse") heq).2
    rw [hnum] at hkx
    obtain rfl := Option.some.inj (hkx.symm.trans hky)
    exact variable2name_inj hn hN hx hy hvx hvy

end Names

end StencilGraph.Codegen

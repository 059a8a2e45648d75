import StencilGraph.Codegen.Names

namespace StencilGraph.Codegen
open Framework Relay Stream Relation

/-- One input of a kernel; `v` stands before the name of a projection. -/
def inputName (v : String) (h : Heap) (callSequence : List Nat) (a : Nat) : Option String :=
  match h[a]? with
  | some (.tupleGetItem t index) =>
    (resultName h callSequence t).map fun name => v ++ dropChar '%' name ++ ("_" ++ toString index)
  | _ => (resultName h callSequence a).map (dropChar '%')

def isVar (h : Heap) (a : Nat) : Bool :=
  match h[a]? with
  | some (.var _) => true
  | _ => false

/-- `call_input_list`: variables are fields of the program already. -/
def callInputList (v : String) (h : Heap) (callSequence : List Nat) (call : Nat) :
    Option (List String) :=
  ((GroupOp.callArgs h call).filter fun a => !isVar h a).mapM (inputName v h callSequence)

/-- `call_output_list`: one name for each result. -/
def callOutputList (h : Heap) (callSequence : List Nat) (call : Nat) : Option (List String) :=
  (resultName h callSequence call).map fun output =>
    match typeOf h call with
    | .tuple n => (List.range n).map fun i =>
      dropChar '#' (dropChar '%' output ++ "_" ++ toString i)
    | .tensor => [dropChar '%' output]

/-- The fields that `PRINT_CALL_MLIR` adds to the header of a kernel. -/
def printCallFields (h : Heap) (callSequence : List Nat) (call : Nat) : Option (List String) := do
  let callOutputList ← callOutputList h callSequence call
  let callInputList ← callInputList "v" h callSequence call
  some ((callInputList ++ callOutputList).map fun name => "%func_" ++ name)

/-- `GET_CALL_ARGS`: the buffers a kernel writes and reads. -/
def getCallArgs (h : Heap) (callSequence : List Nat) (call : Nat) :
    Option (List String × List String) := do
  let callOutputList ← callOutputList h callSequence call
  let callInputList ← callInputList "" h callSequence call
  some (callOutputList.map fun name => "func_" ++ name, callInputList.map fun name => "func_" ++ name)

/-- A result of a call: the call, and the index when it has several results. -/
abbrev Result := Nat × Option Nat

/-- The result that an argument stands for; variables stand for none. -/
def resultOf (h : Heap) (a : Nat) : Option Result :=
  match h[a]? with
  | some (.tupleGetItem t index) => some (t, some index)
  | some (.call _ _) => some (a, none)
  | _ => none

/-- The results that a call reads. -/
def resultsRead (h : Heap) (call : Nat) : List Result :=
  (GroupOp.callArgs h call).filterMap (resultOf h)

/-- The name of a result. -/
def nameOf (v : String) (B : Nat → String) : Result → String
  | (t, some index) => v ++ B t ++ ("_" ++ toString index)
  | (t, none) => B t

/-- The results of a call. -/
def resultsOf (h : Heap) (call : Nat) : List Result :=
  match typeOf h call with
  | .tuple n => (List.range n).map fun i => (call, some i)
  | .tensor => [(call, none)]

variable {h : Heap} {ps L : List Nat} {b x a : Nat} {N : String → Prop} {v : String} {r r' : Result}

section Lists

variable (hm : Main h ps b) (hn : Named h b N) (hN : ∀ name, N name → ∃ n : Nat, name = toString n)
  (hL : ∀ x, x ∈ L ↔ TopCall h b x)

include hm

/-- A tensor of `main` is a loaded field or a result of a call of `main`. -/
theorem resultOf_tensor (hr : Reach h b a) (hty : typeOf h a = .tensor) :
    (isVar h a = true ∧ resultOf h a = none) ∨
      ∃ r, isVar h a = false ∧ resultOf h a = some r ∧ TopCall h b r.1 ∧ r ∈ resultsOf h r.1 := by
  have hcall {callee : Callee} {args : List Nat} (hget : h[a]? = some (.call callee args)) :
      ∃ r, isVar h a = false ∧ resultOf h a = some r ∧ TopCall h b r.1 ∧ r ∈ resultsOf h r.1 := by
    refine ⟨(a, none), by simp [isVar, hget], by simp [resultOf, hget], ⟨⟨_, _, hget⟩, hr⟩, ?_⟩
    simp [resultsOf, hty]
  cases hm.typed hr with
  | var _ name hget => exact Or.inl ⟨by simp [isVar, hget], by simp [resultOf, hget]⟩
  | op _ name outputs args hget => exact Or.inr (hcall hget)
  | func _ f args hget => exact Or.inr (hcall hget)
  | tuple _ fields hget =>
    rw [typeOf_tuple hget] at hty
    cases hty
  | item _ t k n hget hi _ htype hk =>
    refine Or.inr ⟨(t, some k), by simp [isVar, hget], by simp [resultOf, hget],
      ⟨hi, hr.tail ⟨_, hget, by simp [Node.deps]⟩⟩, ?_⟩
    simpa [resultsOf, htype] using hk

theorem resultOf_arg (hx : TopCall h b x) (ha : a ∈ GroupOp.callArgs h x) :
    (isVar h a = true ∧ resultOf h a = none) ∨
      ∃ r, isVar h a = false ∧ resultOf h a = some r ∧ TopCall h b r.1 ∧ r ∈ resultsOf h r.1 := by
  obtain ⟨⟨callee, args, hget⟩, hr⟩ := hx
  rw [callArgs_call hget] at ha
  exact resultOf_tensor hm (hr.tail ⟨_, hget, ha⟩) (((hm.typed hr).call hget).2 a ha).2

include hn hN hL

theorem inputName_eq (hr : resultOf h a = some r) (htop : TopCall h b r.1) :
    inputName v h L a = some (nameOf v (bufferName h L) r) := by
  have hname := (resultName_eq hn hN hL htop).1
  have hdrop : dropChar '%' ("%" ++ bufferName h L r.1) = bufferName h L r.1 := by
    rw [dropChar_append, dropChar_of_notMem
      ((resultName_eq hn hN hL htop).2.notMem (by decide) (by decide)),
      show dropChar '%' "%" = "" by decide, String.empty_append]
  unfold resultOf at hr
  unfold inputName
  cases hget : h[a]? with
  | none => simp [hget] at hr
  | some n =>
    rw [hget] at hr
    cases n with
    | tupleGetItem t index =>
      obtain rfl := Option.some.inj hr
      simp only [hname, Option.map_some, hdrop]
      rfl
    | call callee args =>
      obtain rfl := Option.some.inj hr
      simp only [hname, Option.map_some, hdrop]
      rfl
    | _ => cases hr

theorem callInputList_eq (hx : TopCall h b x) :
    callInputList v h L x = some ((resultsRead h x).map (nameOf v (bufferName h L))) := by
  have hsub {l : List Nat} (hl : l ⊆ GroupOp.callArgs h x) :
      (l.filter fun a => !isVar h a).mapM (inputName v h L) =
        some ((l.filterMap (resultOf h)).map (nameOf v (bufferName h L))) := by
    induction l with
    | nil => rfl
    | cons a l ih =>
      have hrest := ih fun y hy => hl (List.mem_cons_of_mem _ hy)
      rcases resultOf_arg hm hx (hl List.mem_cons_self) with ⟨hvar, hres⟩ | ⟨r, hvar, hres, htop, -⟩
      · rw [List.filter_cons_of_neg (by simp [hvar]), List.filterMap_cons_none hres]
        exact hrest
      · rw [List.filter_cons_of_pos (by simp [hvar]), List.filterMap_cons_some hres, List.mapM_cons,
          inputName_eq hm hn hN hL hres htop, hrest]
        rfl
  exact hsub (List.Subset.refl _)

theorem callOutputList_eq (hx : TopCall h b x) :
    callOutputList h L x = some ((resultsOf h x).map (nameOf "" (bufferName h L))) := by
  obtain ⟨hname, hbuf⟩ := resultName_eq hn hN hL hx
  have hdrop : dropChar '%' ("%" ++ bufferName h L x) = bufferName h L x := by
    rw [dropChar_append, dropChar_of_notMem (hbuf.notMem (by decide) (by decide)),
      show dropChar '%' "%" = "" by decide, String.empty_append]
  unfold callOutputList resultsOf
  rw [hname, Option.map_some, hdrop]
  cases typeOf h x with
  | tensor => rfl
  | tuple n =>
    simp only [List.map_map]
    congr 1
    apply List.map_congr_left
    intro i _
    show dropChar '#' (bufferName h L x ++ "_" ++ toString i) = _
    rw [dropChar_append, dropChar_append, dropChar_of_notMem (hbuf.notMem (by decide) (by decide)),
      dropChar_of_notMem (notMem_number (by decide)), show dropChar '#' "_" = "_" by decide]
    simp [nameOf, String.append_assoc]

/-- Different results have different names. -/
theorem nameOf_inj (hv : v = "v" ∨ v = "") (hr : TopCall h b r.1) (hr' : TopCall h b r'.1)
    (heq : nameOf v (bufferName h L) r = nameOf v (bufferName h L) r') : r = r' := by
  have hinj {x y : Nat} (hx : TopCall h b x) (hy : TopCall h b y) := bufferName_inj hn hN hL hx hy
  have hbuf {x : Nat} (hx : TopCall h b x) := (resultName_eq hn hN hL hx).2
  have hmixed {t t' k : Nat} (ht : TopCall h b t) (ht' : TopCall h b t')
      (heq : v ++ bufferName h L t ++ ("_" ++ toString k) = bufferName h L t') : False := by
    cases hv with
    | inl hv =>
      apply (hbuf ht').head_ne
      rw [← heq, hv]
      simp
    | inr hv =>
      rw [hv, String.empty_append, ← String.append_assoc] at heq
      exact (hbuf ht').ne_numbered (hbuf ht) heq.symm
  obtain ⟨t, i⟩ := r
  obtain ⟨t', j⟩ := r'
  cases i with
  | none =>
    cases j with
    | none => exact congrArg (fun t => (t, none)) (hinj hr hr' heq)
    | some j => exact (hmixed hr' hr heq.symm).elim
  | some i =>
    cases j with
    | none => exact (hmixed hr hr' heq).elim
    | some j =>
      have heq' : v ++ bufferName h L t ++ "_" ++ toString i =
          v ++ bufferName h L t' ++ "_" ++ toString j := by
        simpa only [nameOf, String.append_assoc] using heq
      obtain ⟨hname, rfl⟩ := numbered_inj heq'
      exact congrArg (fun t => (t, some i)) (hinj hr hr' (String.append_right_inj v |>.mp hname))

/-- The name of an input is no name of an output. -/
theorem input_ne_output (hr : TopCall h b r.1) (hr' : TopCall h b r'.1) (hne : r.1 ≠ r'.1) :
    nameOf "v" (bufferName h L) r ≠ nameOf "" (bufferName h L) r' := by
  intro heq
  have hbuf := (resultName_eq hn hN hL hr).2
  have hbuf' := (resultName_eq hn hN hL hr').2
  obtain ⟨t, i⟩ := r
  obtain ⟨t', j⟩ := r'
  cases i with
  | none =>
    cases j with
    | none => exact hne (bufferName_inj hn hN hL hr hr' heq)
    | some j =>
      apply hbuf.ne_numbered hbuf' (i := j)
      simpa only [nameOf, String.empty_append, ← String.append_assoc] using heq
  | some i =>
    -- the name of a projection begins with a letter that no buffer name begins with
    have hhead : (nameOf "" (bufferName h L) (t', j)).toList.head? = some 'v' := by
      rw [← heq]
      simp [nameOf]
    have hfull : (bufferName h L t').toList ≠ [] := by
      rcases hbuf' with ⟨n, hn'⟩ | ⟨k, hk⟩
      · rw [show bufferName h L t' = _ from hn']
        exact number_ne_empty n
      · rw [show bufferName h L t' = _ from hk]
        simp
    apply hbuf'.head_ne
    cases j with
    | none => exact hhead
    | some j =>
      simp only [nameOf, String.empty_append, String.toList_append] at hhead
      rwa [List.head?_append_of_ne_nil _ hfull] at hhead

end Lists

theorem nodup_map_on_iff {α β : Type} {f : α → β} {l : List α}
    (hf : ∀ x ∈ l, ∀ y ∈ l, f x = f y → x = y) : (l.map f).Nodup ↔ l.Nodup :=
  ⟨fun hn => hn.of_map f, fun hn => hn.map_on hf⟩

theorem top_of_read (hm : Main h ps b) (hx : TopCall h b x) (hr : r ∈ resultsRead h x) :
    Dep h b r.1 x := by
  obtain ⟨a, ha, hres⟩ := List.mem_filterMap.mp hr
  have hcall : TopCall h b r.1 := by
    rcases resultOf_arg hm hx ha with ⟨-, hno⟩ | ⟨r', -, hres', htop, -⟩
    · cases hres.symm.trans hno
    · obtain rfl := Option.some.inj (hres.symm.trans hres')
      exact htop
  refine ⟨hcall, hx, a, ha, ?_⟩
  unfold resultOf at hres
  cases hget : h[a]? with
  | none => simp [hget] at hres
  | some n =>
    rw [hget] at hres
    cases n with
    | tupleGetItem t k =>
      obtain rfl := Option.some.inj hres
      exact Or.inr ⟨k, rfl⟩
    | call callee args =>
      obtain rfl := Option.some.inj hres
      exact Or.inl rfl
    | _ => cases hres

theorem mem_resultsOf (hr : r ∈ resultsOf h x) : r.1 = x := by
  unfold resultsOf at hr
  cases htype : typeOf h x with
  | tensor =>
    rw [htype, List.mem_singleton] at hr
    rw [hr]
  | tuple n =>
    rw [htype] at hr
    obtain ⟨i, -, rfl⟩ := List.mem_map.mp hr
    rfl

theorem nodup_resultsOf (h : Heap) (x : Nat) : (resultsOf h x).Nodup := by
  unfold resultsOf
  cases typeOf h x with
  | tensor => exact List.nodup_singleton _
  | tuple n =>
    apply List.nodup_range.map
    intro i j heq
    exact Option.some.inj (congrArg Prod.snd heq)

variable {m m' : Module}

/-- The fields of a kernel are different exactly when the call reads no result twice. -/
theorem kernel_fields_nodup_iff (hm : m.Stencil ps b) (hssa : SsaNumbers m.heap b)
    (hrun : ReflTransGen FusionStep m m') :
    ∃ callSequence, BuildGraph.getCallList m'.heap m'.main = some callSequence ∧
      ∀ call ∈ callSequence, ∃ fields, printCallFields m'.heap callSequence call = some fields ∧
        (fields.Nodup ↔ (resultsRead m'.heap call).Nodup) := by
  obtain ⟨b', hok, hn⟩ := run_named hm hssa.distinct hrun
  obtain ⟨tag, hmain⟩ := hok.node
  obtain ⟨L, hlist, -, hL⟩ := getCallList_spec hok.main hmain
  refine ⟨L, hlist, fun call hcall => ?_⟩
  have htop := (hL call).mp hcall
  have hin := callInputList_eq (v := "v") hok.main hn hssa.number hL htop
  have hout := callOutputList_eq hok.main hn hssa.number hL htop
  refine ⟨_, by simp only [printCallFields, hin, hout, Option.bind_eq_bind, Option.bind_some]; rfl,
    ?_⟩
  have hread {r : Result} (hr : r ∈ resultsRead m'.heap call) := top_of_read hok.main htop hr
  have hfunc : Function.Injective fun name : String => "%func_" ++ name :=
    fun name name' heq => (String.append_right_inj "%func_").mp heq
  rw [List.nodup_map_iff hfunc, List.nodup_append, nodup_map_on_iff fun r hr r' hr' heq =>
    nameOf_inj hok.main hn hssa.number hL (Or.inl rfl) (hread hr).1 (hread hr').1 heq]
  constructor
  · exact And.left
  · intro hnodup
    refine ⟨hnodup, ?_, ?_⟩
    · apply (nodup_resultsOf _ _).map_on
      intro r hr r' hr' heq
      rw [← mem_resultsOf hr] at htop
      exact nameOf_inj hok.main hn hssa.number hL (Or.inr rfl) htop
        ((mem_resultsOf hr').trans (mem_resultsOf hr).symm ▸ htop) heq
    · intro name hname name' hname'
      obtain ⟨r, hr, rfl⟩ := List.mem_map.mp hname
      obtain ⟨r', hr', rfl⟩ := List.mem_map.mp hname'
      have hout' := mem_resultsOf hr'
      apply input_ne_output hok.main hn hssa.number hL (hread hr).1 (hout' ▸ htop)
      rw [hout']
      exact ((hread hr).lt hok.main).ne

/-- An apply that reads one result of a producer through two operands: the parser makes a projection
for each of them. -/
def twiceModule : Module :=
  ⟨[.var "data_0", .call (.op "1" 2) [0, 0], .tupleGetItem 1 0, .tupleGetItem 1 0,
    .call (.op "2" 1) [2, 3], .function [0] 4 []], 5⟩

theorem twiceModule_stencil : twiceModule.Stencil [0] 4 := by
  have h0 : Typed twiceModule.heap noCall (IsCall twiceModule.heap) [0] 0 :=
    .var 0 "data_0" rfl (by simp)
  have h1 : Typed twiceModule.heap noCall (IsCall twiceModule.heap) [0] 1 :=
    .op 1 "1" 2 [0, 0] rfl (by simpa using h0) (by decide)
  have h2 : Typed twiceModule.heap noCall (IsCall twiceModule.heap) [0] 2 :=
    .item 2 1 0 2 rfl ⟨_, _, rfl⟩ h1 (by decide) (by decide)
  have h3 : Typed twiceModule.heap noCall (IsCall twiceModule.heap) [0] 3 :=
    .item 3 1 0 2 rfl ⟨_, _, rfl⟩ h1 (by decide) (by decide)
  have h4 : Typed twiceModule.heap noCall (IsCall twiceModule.heap) [0] 4 :=
    .op 4 "2" 1 [2, 3] rfl (by simpa using ⟨h2, h3⟩) (by decide)
  refine ⟨?_, ⟨[], rfl⟩, by decide, ?_, h4, Or.inl (by decide)⟩
  · have hwf : ∀ x < 6, ∀ n ∈ twiceModule.heap[x]?, ∀ y ∈ n.refs, y < x := by decide
    exact fun x n hx => hwf x (lt_of_get hx) n hx
  · intro p hp
    obtain rfl : p = 0 := by simpa using hp
    exact ⟨"data_0", rfl⟩

/-- A check of the names of a heap whose calls apply stencils. -/
theorem ssaNumbers_of_tags (names : List (Nat × Nat)) (hnodup : (names.map Prod.snd).Nodup)
    (htags : ∀ x < h.length, GroupOp.tagNames h x = none ∨
      ∃ e ∈ names, x = e.1 ∧ GroupOp.tagNames h x = some [toString e.2]) : SsaNumbers h b := by
  have hname {x : Nat} {name : String} (hx : OpCall h x name) :
      ∃ e ∈ names, x = e.1 ∧ name = toString e.2 := by
    obtain ⟨outputs, args, hget⟩ := hx
    have htag : GroupOp.tagNames h x = some [name] := by simp [GroupOp.tagNames, hget]
    rcases htags x (lt_of_get hget) with hno | ⟨e, he, hxe, hs⟩
    · cases htag.symm.trans hno
    · exact ⟨e, he, hxe, by simpa using htag.symm.trans hs⟩
  constructor
  · intro x y name _ _ hx hy
    obtain ⟨e, he, rfl, rfl⟩ := hname hx
    obtain ⟨e', he', rfl, heq⟩ := hname hy
    rw [List.inj_on_of_nodup_map hnodup he he' (number_inj heq)]
  · intro name hstencil
    obtain ⟨x, -, hx⟩ := hstencil
    obtain ⟨e, -, -, rfl⟩ := hname hx
    exact ⟨e.2, rfl⟩

theorem twiceModule_ssaNumbers : SsaNumbers twiceModule.heap 4 :=
  ssaNumbers_of_tags [(1, 1), (4, 2)] (by decide) (by decide)

theorem kernel_fields_repeat : twiceModule.Stencil [0] 4 ∧ SsaNumbers twiceModule.heap 4 ∧
    ∃ callSequence, BuildGraph.getCallList twiceModule.heap twiceModule.main = some callSequence ∧
      ∃ call ∈ callSequence, ∃ fields,
        printCallFields twiceModule.heap callSequence call = some fields ∧ ¬ fields.Nodup := by
  refine ⟨twiceModule_stencil, twiceModule_ssaNumbers, [1, 4], by decide, 4, by decide,
    ["%func_v1_0", "%func_v1_0", "%func_2"], by decide, by decide⟩

theorem kernel_fields_nodup_sample : ∃ callSequence,
    BuildGraph.getCallList twiceModule.heap twiceModule.main = some callSequence ∧
      ∀ call ∈ callSequence, ∃ fields,
        printCallFields twiceModule.heap callSequence call = some fields ∧
          (fields.Nodup ↔ (resultsRead twiceModule.heap call).Nodup) :=
  kernel_fields_nodup_iff twiceModule_stencil twiceModule_ssaNumbers .refl

end StencilGraph.Codegen

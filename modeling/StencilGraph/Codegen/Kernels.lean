import StencilGraph.Codegen.MainGen
import StencilGraph.Framework.Dataflow

namespace StencilGraph.Codegen
open Framework Relay NodeAutoFusion

variable {V : Type}

/-- What the body of a kernel computes from the tensors that it has loaded. -/
def applyBody (I : Interp V) (h : Heap) (call : Nat) (loads : List (List V)) : List V :=
  match h[call]? with
  | some (.call (.op name outputs) _) => I.apply name outputs loads.flatten
  | some (.call (.func f) _) =>
    match h[f]? with
    | some (.function params body _) => value I h (bindParams params loads) body
    | _ => []
  | _ => []

/-- The storage that `gen_kernel_call` passes for a field of the header, by position. -/
def passedStorage (h : Heap) (callSequence : List Nat) (call : Nat) (name : String) :
    Option String := do
  let fields ← printCallFields h callSequence call
  let (outVars, inputVars) ← getCallArgs h callSequence call
  (fields.zip (inputVars ++ outVars)).lookup ("%func_" ++ name)

/-- What a kernel loads for an argument; `σ` holds the fields of the program. -/
def loadArg (h : Heap) (callSequence : List Nat) (σ : Env V) (call : Nat) (storage : String → V)
    (a : Nat) : Option (List V) :=
  if isVar h a then σ a
  else do
    let name ← inputName "v" h callSequence a
    let buffer ← passedStorage h callSequence call name
    some [storage buffer]

/-- A kernel on the storages: what it stores, and where. A header with two fields of one name is no
function. -/
def runKernel (I : Interp V) (h : Heap) (callSequence : List Nat) (σ : Env V) (call : Nat)
    (storage : String → V) : Option (List (String × V)) := do
  let fields ← printCallFields h callSequence call
  if fields.Nodup then
    let loads ← (GroupOp.callArgs h call).mapM (loadArg h callSequence σ call storage)
    let callOutputList ← callOutputList h callSequence call
    let stores ← callOutputList.mapM (passedStorage h callSequence call)
    some (stores.zip (applyBody I h call loads))
  else none

/-- The kernels as tasks on the storages. -/
def kernelFlow (I : Interp V) (h : Heap) (callSequence : List Nat) (σ : Env V) :
    Flow Nat String V where
  task call := call ∈ callSequence
  reads call buffer := ∃ args, getCallArgs h callSequence call = some args ∧ buffer ∈ args.2
  writes call buffer := ∃ args, getCallArgs h callSequence call = some args ∧ buffer ∈ args.1
  leaves call storage mem := ∃ stores, runKernel I h callSequence σ call storage = some stores ∧
    ∀ e ∈ stores, mem e.1 = e.2

/-- The value of a result. -/
def resultValue (I : Interp V) (h : Heap) (σ : Env V) : Result → Option V
  | (call, some index) => (value I h σ call)[index]?
  | (call, none) => (value I h σ call).head?

/-- The storage of a result. -/
def storageName (h : Heap) (callSequence : List Nat) (r : Result) : String :=
  "func_" ++ nameOf "" (bufferName h callSequence) r

/-- What the generated program keeps for a returned expression: a field of the program, or a
storage. -/
def storedValue (h : Heap) (callSequence : List Nat) (σ : Env V) (mem : String → V) (a : Nat) :
    Option V :=
  if isVar h a then (σ a).bind List.head? else (bufferOf h callSequence a).map mem

/-- The storages hold the values of the program. -/
def Holds (I : Interp V) (h : Heap) (callSequence : List Nat) (σ : Env V) (b : Nat)
    (mem : String → V) : Prop :=
  ∀ r, TopCall h b r.1 → r ∈ resultsOf h r.1 →
    resultValue I h σ r = some (mem (storageName h callSequence r))

variable {I : Interp V} {h : Heap} {ps L : List Nat} {b x a i : Nat} {N : String → Prop}
  {r : Result} {σ : Env V} {storage target mem : String → V} {fields : List String}

theorem map_fst_zip_sublist {α β : Type} (l : List α) (l' : List β) :
    ((l.zip l').map Prod.fst).Sublist l := by
  induction l generalizing l' with
  | nil => simp
  | cons a l ih =>
    cases l' with
    | nil => simp
    | cons c l' => exact (ih l').cons_cons a

/-- The results of a call, in order, have the values of the call. -/
theorem resultValue_of_get (hr : (resultsOf h x)[i]? = some r) :
    resultValue I h σ r = (value I h σ x)[i]? := by
  unfold resultsOf at hr
  cases htype : typeOf h x with
  | tensor =>
    rw [htype] at hr
    cases i with
    | zero =>
      obtain rfl := Option.some.inj hr
      exact List.head?_eq_getElem?
    | succ i => cases hr
  | tuple n =>
    rw [htype] at hr
    simp only [List.getElem?_map] at hr
    obtain ⟨k, hk, rfl⟩ := Option.map_eq_some_iff.mp hr
    obtain ⟨hlt, heq⟩ := List.getElem?_eq_some_iff.mp hk
    rw [List.getElem_range] at heq
    simp [resultValue, heq]

section Main

variable (hm : Main h ps b)

include hm

theorem length_value_call (hσ : Binds h ps σ) (hx : TopCall h b x) :
    (value I h σ x).length = (resultsOf h x).length := by
  rw [value_length hm.wf hσ (hm.typed hx.2) fun _ _ hf => hf]
  unfold resultsOf
  cases typeOf h x with
  | tensor => rfl
  | tuple n => simp [Ty.width]

/-- The value of a tensor of `main` that is a result. -/
theorem value_of_result (hσ : Binds h ps σ) (hr : Reach h b a) (hty : typeOf h a = .tensor)
    (hres : resultOf h a = some r) : value I h σ a = (resultValue I h σ r).toList := by
  have hlength := value_length (I := I) hm.wf hσ (hm.typed hr) fun _ _ hf => hf
  rw [hty] at hlength
  unfold resultOf at hres
  cases hget : h[a]? with
  | none => simp [hget] at hres
  | some n =>
    rw [hget] at hres
    cases n with
    | tupleGetItem t k =>
      obtain rfl := Option.some.inj hres
      exact value_item hm.wf (hσ.vars.none_of_item hget) hget
    | call callee args =>
      obtain rfl := Option.some.inj hres
      obtain ⟨v, hv⟩ := List.length_eq_one_iff.mp hlength
      simp [resultValue, hv]
    | _ => cases hres

theorem value_of_var (hσ : Binds h ps σ) (hr : Reach h b a) (hvar : isVar h a = true) :
    σ a = some (value I h σ a) := by
  have hps : a ∈ ps := by
    unfold isVar at hvar
    cases hm.typed hr with
    | var _ name hget hp => exact hp
    | op _ name outputs args hget => simp [hget] at hvar
    | func _ f args hget => simp [hget] at hvar
    | tuple _ fields hget => simp [hget] at hvar
    | item _ t k n hget => simp [hget] at hvar
  obtain ⟨v, hv⟩ := hσ.one a hps
  rw [hv, value_bound hv]

theorem applyBody_value (hσ : Binds h ps σ) (hx : TopCall h b x) :
    applyBody I h x ((GroupOp.callArgs h x).map (value I h σ)) = value I h σ x := by
  obtain ⟨⟨callee, args, hget⟩, hr⟩ := hx
  rw [callArgs_call hget]
  unfold applyBody
  cases hm.typed hr with
  | op _ name outputs args' hop =>
    obtain ⟨rfl, rfl⟩ : callee = .op name outputs ∧ args = args' := by
      simpa using hget.symm.trans hop
    rw [hget, value_op hm.wf (hσ.vars.none_of_call hget) hget]
    simp only [List.flatMap_def]
  | func _ f args' hfunc hf =>
    obtain ⟨rfl, rfl⟩ : callee = .func f ∧ args = args' := by
      simpa using hget.symm.trans hfunc
    obtain ⟨qs, c, tag, hok⟩ := hf
    rw [hget, value_func hm.wf (hσ.vars.none_of_call hget) hget hok.node]
    simp only [hok.node]
  | var _ name hvar => cases hget.symm.trans hvar
  | tuple _ fs htuple => cases hget.symm.trans htuple
  | item _ t k n hitem => cases hget.symm.trans hitem

/-- What a call reads is a result of the call that it depends on. -/
theorem result_of_read (hx : TopCall h b x) (hr : r ∈ resultsRead h x) :
    TopCall h b r.1 ∧ r ∈ resultsOf h r.1 := by
  obtain ⟨a, ha, hres⟩ := List.mem_filterMap.mp hr
  cases resultOf_arg hm hx ha with
  | inl hload => cases hres.symm.trans hload.2
  | inr hload =>
    obtain ⟨r', -, hres', htop, hmem⟩ := hload
    obtain rfl := Option.some.inj (hres.symm.trans hres')
    exact ⟨htop, hmem⟩

section Names

variable (hn : Named h b N) (hN : ∀ name, N name → ∃ n : Nat, name = toString n)
  (hL : ∀ x, x ∈ L ↔ TopCall h b x)

include hn hN hL

theorem printCallFields_eq (hx : TopCall h b x) : printCallFields h L x =
    some (((resultsRead h x).map fun r => "%func_" ++ nameOf "v" (bufferName h L) r) ++
      (resultsOf h x).map fun r => "%func_" ++ nameOf "" (bufferName h L) r) := by
  simp only [printCallFields, callInputList_eq hm hn hN hL hx, callOutputList_eq hm hn hN hL hx,
    Option.bind_eq_bind, Option.bind_some, List.map_append, List.map_map]
  rfl

theorem getCallArgs_storage (hx : TopCall h b x) : getCallArgs h L x =
    some ((resultsOf h x).map (storageName h L), (resultsRead h x).map (storageName h L)) :=
  getCallArgs_eq hm hn hN hL hx

/-- The fields of the header stand for the storages of the results. -/
theorem passedStorage_eq (hx : TopCall h b x) (hfields : printCallFields h L x = some fields)
    (hnodup : fields.Nodup) :
    (∀ r ∈ resultsRead h x,
      passedStorage h L x (nameOf "v" (bufferName h L) r) = some (storageName h L r)) ∧
    ∀ r ∈ resultsOf h x,
      passedStorage h L x (nameOf "" (bufferName h L) r) = some (storageName h L r) := by
  have heq := printCallFields_eq hm hn hN hL hx
  obtain rfl := Option.some.inj (hfields.symm.trans heq)
  have hzip : ∀ name, passedStorage h L x name =
      (((resultsRead h x).map fun r => ("%func_" ++ nameOf "v" (bufferName h L) r, storageName h L r)) ++
        (resultsOf h x).map fun r => ("%func_" ++ nameOf "" (bufferName h L) r, storageName h L r)).lookup
        ("%func_" ++ name) := by
    intro name
    simp only [passedStorage, hfields, getCallArgs_storage hm hn hN hL hx, Option.bind_eq_bind,
      Option.bind_some]
    rw [List.zip_append (by simp), List.zip_map', List.zip_map']
  have hkeys : ((((resultsRead h x).map fun r =>
      ("%func_" ++ nameOf "v" (bufferName h L) r, storageName h L r)) ++
      (resultsOf h x).map fun r =>
        ("%func_" ++ nameOf "" (bufferName h L) r, storageName h L r)).map Prod.fst).Nodup := by
    simpa [Function.comp_def] using hnodup
  constructor
  · intro r hr
    rw [hzip]
    exact lookup_of_mem hkeys (List.mem_append_left _ (List.mem_map_of_mem hr))
  · intro r hr
    rw [hzip]
    exact lookup_of_mem hkeys (List.mem_append_right _ (List.mem_map_of_mem hr))

/-- What a kernel loads for an argument is its value when the storages hold the values of what the
call reads. -/
theorem loadArg_spec (hσ : Binds h ps σ) (storage : String → V) (hx : TopCall h b x)
    (hfields : printCallFields h L x = some fields) (hnodup : fields.Nodup)
    (ha : a ∈ GroupOp.callArgs h x) : ∃ loaded, loadArg h L σ x storage a = some loaded ∧
      ((∀ r ∈ resultsRead h x, resultValue I h σ r = some (storage (storageName h L r))) →
        loaded = value I h σ a) := by
  have hdep : Reach h b a ∧ typeOf h a = .tensor := by
    obtain ⟨⟨callee, args, hget⟩, hr⟩ := hx
    rw [callArgs_call hget] at ha
    exact ⟨hr.tail ⟨_, hget, ha⟩, (((hm.typed hr).call hget).2 a ha).2⟩
  unfold loadArg
  cases resultOf_arg hm hx ha with
  | inl hload =>
    rw [if_pos hload.1]
    exact ⟨_, value_of_var (I := I) hm hσ hdep.1 hload.1, fun _ => rfl⟩
  | inr hload =>
    obtain ⟨r, hvar, hres, htop, -⟩ := hload
    have hmem : r ∈ resultsRead h x := List.mem_filterMap.mpr ⟨a, ha, hres⟩
    rw [if_neg (by simp [hvar]), inputName_eq hm hn hN hL hres htop]
    simp only [Option.bind_eq_bind, Option.bind_some,
      (passedStorage_eq hm hn hN hL hx hfields hnodup).1 r hmem]
    refine ⟨_, rfl, fun hread => ?_⟩
    rw [value_of_result hm hσ hdep.1 hdep.2 hres, hread r hmem]
    rfl

theorem loads_spec (hσ : Binds h ps σ) (storage : String → V) (hx : TopCall h b x)
    (hfields : printCallFields h L x = some fields) (hnodup : fields.Nodup) {args : List Nat}
    (hargs : args ⊆ GroupOp.callArgs h x) :
    ∃ loads, args.mapM (loadArg h L σ x storage) = some loads ∧
      ((∀ r ∈ resultsRead h x, resultValue I h σ r = some (storage (storageName h L r))) →
        loads = args.map (value I h σ)) := by
  induction args with
  | nil => exact ⟨[], rfl, fun _ => rfl⟩
  | cons a args ih =>
    obtain ⟨loads, hloads, hvalues⟩ := ih fun y hy => hargs (List.mem_cons_of_mem _ hy)
    obtain ⟨loaded, hloaded, hvalue⟩ := loadArg_spec (I := I) hm hn hN hL hσ storage hx
      hfields hnodup (hargs List.mem_cons_self)
    refine ⟨loaded :: loads, by rw [List.mapM_cons, hloaded, hloads]; rfl, fun hread => ?_⟩
    rw [hvalue hread, hvalues hread, List.map_cons]

/-- A kernel stores into the storages of its results, in order; the values are those of the call when
the storages hold the values of what it reads. -/
theorem runKernel_spec (hσ : Binds h ps σ) (storage : String → V) (hx : TopCall h b x)
    (hfields : printCallFields h L x = some fields) (hnodup : fields.Nodup) :
    ∃ values, runKernel I h L σ x storage =
        some (((resultsOf h x).map (storageName h L)).zip values) ∧
      ((∀ r ∈ resultsRead h x, resultValue I h σ r = some (storage (storageName h L r))) →
        values = value I h σ x) := by
  obtain ⟨loads, hloads, hvalues⟩ := loads_spec (I := I) hm hn hN hL hσ storage hx
    hfields hnodup (List.Subset.refl _)
  have hstores : ((resultsOf h x).map (nameOf "" (bufferName h L))).mapM (passedStorage h L x) =
      some ((resultsOf h x).map (storageName h L)) := by
    have hpassed := (passedStorage_eq hm hn hN hL hx hfields hnodup).2
    generalize resultsOf h x = rs at hpassed
    induction rs with
    | nil => rfl
    | cons r rs ih =>
      rw [List.map_cons, List.mapM_cons, hpassed r List.mem_cons_self,
        ih fun r' hr' => hpassed r' (List.mem_cons_of_mem _ hr')]
      rfl
  refine ⟨applyBody I h x loads, ?_, fun hread => ?_⟩
  · simp only [runKernel, hfields, hloads, callOutputList_eq hm hn hN hL hx, hstores,
      Option.bind_eq_bind, Option.bind_some, if_pos hnodup]
  · rw [hvalues hread, applyBody_value hm hσ hx]

/-- Different results have different storages. -/
theorem storageName_inj {r' : Result} (hr : TopCall h b r.1) (hr' : TopCall h b r'.1)
    (heq : storageName h L r = storageName h L r') : r = r' :=
  nameOf_inj hm hn hN hL (Or.inr rfl) hr hr' ((String.append_right_inj "func_").mp heq)

theorem mem_writes_iff {buffer : String} (hx : TopCall h b x) :
    (kernelFlow I h L σ).writes x buffer ↔ ∃ r ∈ resultsOf h x, storageName h L r = buffer := by
  simp [kernelFlow, getCallArgs_storage hm hn hN hL hx]

theorem mem_reads_iff {buffer : String} (hx : TopCall h b x) :
    (kernelFlow I h L σ).reads x buffer ↔ ∃ r ∈ resultsRead h x, storageName h L r = buffer := by
  simp [kernelFlow, getCallArgs_storage hm hn hN hL hx]

theorem kernelFlow_singleWriter : (kernelFlow I h L σ).SingleWriter := by
  intro x y buffer hx hy hwx hwy
  have hx : TopCall h b x := (hL x).mp hx
  have hy : TopCall h b y := (hL y).mp hy
  obtain ⟨r, hr, rfl⟩ := (mem_writes_iff hm hn hN hL hx).mp hwx
  obtain ⟨r', hr', heq⟩ := (mem_writes_iff hm hn hN hL hy).mp hwy
  rw [← mem_resultsOf hr] at hx ⊢
  rw [← mem_resultsOf hr'] at hy ⊢
  rw [storageName_inj hm hn hN hL hy hx heq]

/-- Storages that hold the values of the program are left as they are by its kernels. -/
theorem kernelFlow_solves (hσ : Binds h ps σ) (htarget : Holds I h L σ b target) :
    (kernelFlow I h L σ).Solves target := by
  intro x htask view mem hview hleaves buffer hbuffer
  have hx : TopCall h b x := (hL x).mp htask
  obtain ⟨r, hr, rfl⟩ := (mem_writes_iff hm hn hN hL hx).mp hbuffer
  obtain ⟨stores, hstores, hmem⟩ := hleaves
  have hfields := printCallFields_eq hm hn hN hL hx
  have hnodup := Option.ite_none_right_eq_some.mp (by simpa only [runKernel, hfields,
    Option.bind_eq_bind, Option.bind_some] using hstores) |>.1
  obtain ⟨values, hrun, hvalues⟩ := runKernel_spec (I := I) hm hn hN hL hσ view hx
    hfields hnodup
  obtain rfl := Option.some.inj (hstores.symm.trans hrun)
  have hread : ∀ r ∈ resultsRead h x, resultValue I h σ r = some (view (storageName h L r)) := by
    intro r' hr'
    rw [hview _ ((mem_reads_iff hm hn hN hL hx).mpr ⟨r', hr', rfl⟩)]
    obtain ⟨htop, hmem'⟩ := result_of_read hm hx hr'
    exact htarget r' htop hmem'
  obtain rfl := hvalues hread
  obtain ⟨i, hi⟩ := List.mem_iff_getElem?.mp hr
  have hown := mem_resultsOf hr
  have hgoal := htarget r (hown ▸ hx) (hown ▸ hr)
  rw [resultValue_of_get hi] at hgoal
  have hpair : (storageName h L r, target (storageName h L r)) ∈
      ((resultsOf h x).map (storageName h L)).zip (value I h σ x) := by
    apply List.mem_iff_getElem?.mpr
    refine ⟨i, ?_⟩
    rw [List.getElem?_zip_eq_some]
    exact ⟨by rw [List.getElem?_map, hi]; rfl, hgoal⟩
  exact hmem _ hpair

/-- What a kernel leaves: its stores are into storages that it writes. -/
theorem kernelFlow_stores (hσ : Binds h ps σ) (hx : TopCall h b x)
    (hfields : ∀ fields, printCallFields h L x = some fields → fields.Nodup) :
    ∃ stores : String → Option V,
      (∀ buffer v, stores buffer = some v → (kernelFlow I h L σ).writes x buffer) ∧
      ∀ mem, (∀ buffer v, stores buffer = some v → mem buffer = v) →
        (kernelFlow I h L σ).leaves x storage mem := by
  have heq := printCallFields_eq hm hn hN hL hx
  obtain ⟨values, hvalues, -⟩ := runKernel_spec (I := I) hm hn hN hL hσ storage hx heq
    (hfields _ heq)
  have hkeys : ((((resultsOf h x).map (storageName h L)).zip values).map Prod.fst).Nodup := by
    apply List.Nodup.sublist (map_fst_zip_sublist _ _)
    apply (nodup_resultsOf h x).map_on
    intro r hr r' hr' hname
    exact storageName_inj hm hn hN hL (mem_resultsOf hr ▸ hx) (mem_resultsOf hr' ▸ hx) hname
  refine ⟨fun buffer => (((resultsOf h x).map (storageName h L)).zip values).lookup buffer,
    fun buffer v hv => ?_, fun mem hmem => ⟨_, hvalues, fun e he => ?_⟩⟩
  · have hmem : (buffer, v) ∈ ((resultsOf h x).map (storageName h L)).zip values := by
      obtain ⟨front, back, heq, -⟩ := List.lookup_eq_some_iff.mp hv
      simp [heq]
    obtain ⟨r, hr, hname⟩ := List.mem_map.mp (List.of_mem_zip hmem).1
    exact (mem_writes_iff hm hn hN hL hx).mpr ⟨r, hr, hname⟩
  · exact hmem e.1 e.2 (lookup_of_mem hkeys he)

/-- Some storages hold the values of the program. -/
theorem exists_holds (hσ : Binds h ps σ) (mem : String → V) : ∃ target, Holds I h L σ b target := by
  have hvalue (buffer : String) : ∃ v, ∀ r w, TopCall h b r.1 → storageName h L r = buffer →
      resultValue I h σ r = some w → w = v := by
    by_cases hex : ∃ r w, TopCall h b r.1 ∧ storageName h L r = buffer ∧
        resultValue I h σ r = some w
    · obtain ⟨r, v, htop, hname, hv⟩ := hex
      refine ⟨v, fun r' w htop' hname' hw => ?_⟩
      obtain rfl := storageName_inj hm hn hN hL htop' htop (hname'.trans hname.symm)
      exact Option.some.inj (hw.symm.trans hv)
    · exact ⟨mem buffer, fun r w htop hname hw => absurd ⟨r, w, htop, hname, hw⟩ hex⟩
  choose target htarget using hvalue
  refine ⟨target, fun r htop hr => ?_⟩
  obtain ⟨i, hi⟩ := List.mem_iff_getElem?.mp hr
  have hlt := (List.getElem?_eq_some_iff.mp hi).1
  rw [← length_value_call (I := I) hm hσ htop] at hlt
  have hv : resultValue I h σ r = some (value I h σ r.1)[i] := by
    rw [resultValue_of_get hi, List.getElem?_eq_getElem hlt]
  rw [hv, htarget _ r _ htop rfl hv]

/-- Storages that hold the values of the program give its results. -/
theorem storedValue_eq (hσ : Binds h ps σ) (hmem : Holds I h L σ b mem) :
    (retCalls h b).map (storedValue h L σ mem) = (value I h σ b).map some := by
  have hbody : value I h σ b = (retCalls h b).flatMap (value I h σ) := by
    unfold retCalls
    split
    · rename_i fields hget
      exact value_tuple hm.wf (hσ.vars.none_of_tuple hget) hget
    · simp
  have hone (a : Nat) (ha : a ∈ retCalls h b) :
      (value I h σ a).map some = [storedValue h L σ mem a] := by
    obtain ⟨hreach, hty⟩ := mem_retCalls hm ha
    have hlength := value_length (I := I) hm.wf hσ (hm.typed hreach) fun _ _ hf => hf
    rw [hty] at hlength
    obtain ⟨v, hv⟩ := List.length_eq_one_iff.mp hlength
    unfold storedValue
    cases resultOf_tensor hm hreach hty with
    | inl hload =>
      rw [if_pos hload.1, value_of_var (I := I) hm hσ hreach hload.1, hv]
      rfl
    | inr hstored =>
      obtain ⟨r, hvar, hres, htop, hr⟩ := hstored
      have hstorage : bufferOf h L a = some (storageName h L r) := by
        simp [bufferOf, hvar, inputName_eq hm hn hN hL hres htop, storageName]
      rw [if_neg (by simp [hvar]), hstorage, value_of_result hm hσ hreach hty hres, hmem r htop hr]
      rfl
  rw [hbody]
  generalize retCalls h b = rets at hone
  induction rets with
  | nil => rfl
  | cons a rets ih =>
    rw [List.flatMap_cons, List.map_append, hone a List.mem_cons_self,
      ← ih fun y hy => hone y (List.mem_cons_of_mem _ hy)]
    rfl

end Names

end Main

end StencilGraph.Codegen

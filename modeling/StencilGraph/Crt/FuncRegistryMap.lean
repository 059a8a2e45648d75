import StencilGraph.Crt.FuncRegistry

namespace StencilGraph.Crt
open Framework

variable {w : Nat}

theorem skipToNul_append (s rest : List UInt8) (hs : 0 ∉ s) :
    skipToNul (s ++ 0 :: rest) = some (0 :: rest) := by
  induction s with
  | nil => simp [skipToNul]
  | cons c s ih =>
    have hc : c ≠ 0 := fun h => hs (by simp [h])
    rw [List.cons_append, skipToNul, if_neg hc]
    exact ih fun h => hs (List.mem_cons_of_mem c h)

/-- The first loop stops inside the string or on its last zero. -/
theorem compareLoop_append (s n rest : List UInt8) (hs : 0 ∉ s) (hn : 0 ∉ n) :
    ∃ s', 0 ∉ s' ∧
      compareLoop (s ++ 0 :: rest) (n ++ [0]) = some (decide (s = n), s' ++ 0 :: rest) := by
  induction s generalizing n with
  | nil =>
    refine ⟨[], by simp, ?_⟩
    cases n with
    | nil => simp [compareLoop]
    | cons d n =>
      have hd : ¬ (0 : UInt8) = d := fun h => hn (by simp [h])
      simp [compareLoop, hd]
  | cons c s ih =>
    have hc : c ≠ 0 := fun h => hs (by simp [h])
    have hs' : 0 ∉ s := fun h => hs (List.mem_cons_of_mem c h)
    cases n with
    | nil => exact ⟨c :: s, hs, by simp [compareLoop, hc]⟩
    | cons d n =>
      have hd : d ≠ 0 := fun h => hn (by simp [h])
      by_cases hcd : c = d
      · obtain ⟨s', hs'', heq⟩ := ih n hs' (fun h => hn (List.mem_cons_of_mem d h))
        refine ⟨s', hs'', ?_⟩
        simp [compareLoop, hd, hcd, heq]
      · exact ⟨s, hs', by simp [compareLoop, hd, hc, hcd]⟩

theorem strcmpCursor_append (s name : CString) (rest : List UInt8) :
    strcmpCursor (s.bytes ++ rest) name.bytes =
      some (decide (s.chars = name.chars), 0 :: rest) := by
  obtain ⟨s', hs', heq⟩ := compareLoop_append s.chars name.chars rest s.noNul name.noNul
  unfold strcmpCursor CString.bytes
  rw [List.append_assoc, List.singleton_append, heq]
  simp [skipToNul_append s' rest hs']

/-- A registered function. -/
structure Entry (w : Nat) where
  name : CString
  nonempty : name.chars ≠ []
  func : FuncPtr w

def nameList (es : List (Entry w)) : List UInt8 := es.flatMap fun e => e.name.bytes

def table (es : List (Entry w)) : List UInt8 := es.flatMap fun e => e.func.bytes

/-- The position of a name among the entries. -/
def position (es : List (Entry w)) (name : CString) : Option Nat :=
  es.findIdx? fun e => decide (e.name.chars = name.chars)

theorem table_length (es : List (Entry w)) : (table es).length = es.length * w := by
  induction es with
  | nil => simp [table]
  | cons e es ih =>
    rw [table, List.flatMap_cons, List.length_append, e.func.size, List.length_cons, Nat.add_mul,
      Nat.one_mul, Nat.add_comm]
    exact congrArg (· + w) ih

theorem position_cons (e : Entry w) (es : List (Entry w)) (name : CString) :
    position (e :: es) name =
      if e.name.chars = name.chars then some 0 else (position es name).map (· + 1) := by
  unfold position
  rw [List.findIdx?_cons]
  by_cases heq : e.name.chars = name.chars
  · rw [if_pos heq, if_pos (decide_eq_true heq)]
  · rw [if_neg heq, if_neg (by simpa using heq)]

theorem scan_nameList (es : List (Entry w)) (name : CString) (rest : List UInt8) (fuel idx : Nat)
    (hfuel : es.length < fuel) :
    scan name.bytes fuel (nameList es ++ 0 :: rest) idx =
      some (match position es name with
        | some i => .found (idx + i)
        | none => .listEnd (idx + es.length) (0 :: rest)) := by
  induction es generalizing fuel idx with
  | nil =>
    cases fuel with
    | zero => exact absurd hfuel (Nat.not_lt_zero _)
    | succ fuel => simp [nameList, scan, position]
  | cons e es ih =>
    cases fuel with
    | zero => exact absurd hfuel (Nat.not_lt_zero _)
    | succ fuel =>
      obtain ⟨c, cs, hchars⟩ := List.exists_cons_of_ne_nil e.nonempty
      have hc : c ≠ 0 := fun h => e.name.noNul (by simp [hchars, h])
      have hlist : nameList (e :: es) ++ 0 :: rest =
          e.name.bytes ++ (nameList es ++ 0 :: rest) := by
        simp [nameList]
      have hcmp := strcmpCursor_append e.name name (nameList es ++ 0 :: rest)
      have hhead : e.name.bytes ++ (nameList es ++ 0 :: rest) =
          c :: (cs ++ [0] ++ (nameList es ++ 0 :: rest)) := by
        simp [CString.bytes, hchars]
      rw [hlist, hhead, scan, if_neg hc, ← hhead, hcmp, position_cons]
      simp only [Option.bind_eq_bind, Option.bind_some, decide_eq_true_eq, List.drop_one,
        List.tail_cons]
      by_cases heq : e.name.chars = name.chars
      · rw [if_pos heq, if_pos heq]
        simp
      · rw [if_neg heq, if_neg heq, ih fuel (idx + 1) (by simpa using hfuel)]
        cases hpos : position es name with
        | none =>
          simp only [Option.map_none, List.length_cons, Option.some.injEq, ScanResult.listEnd.injEq,
            and_true]
          omega
        | some i =>
          simp only [Option.map_some, Option.some.injEq, ScanResult.found.injEq]
          omega

theorem position_lt {es : List (Entry w)} {name : CString} {i : Nat}
    (h : position es name = some i) : i < es.length := by
  induction es generalizing i with
  | nil => exact nomatch h
  | cons e es ih =>
    rw [position_cons] at h
    split_ifs at h
    · rw [← Option.some.inj h]
      exact Nat.succ_pos _
    · obtain ⟨j, hj, rfl⟩ := Option.map_eq_some_iff.mp h
      exact Nat.succ_lt_succ (ih hj)

/-- The function registered under a name. -/
def contents : List (Entry w) → CString → Option (FuncPtr w)
  | [], _ => none
  | e :: es, name => if e.name.chars = name.chars then some e.func else contents es name

theorem contents_eq_none {es : List (Entry w)} {name : CString} (h : position es name = none) :
    contents es name = none := by
  induction es with
  | nil => rfl
  | cons e es ih =>
    rw [position_cons] at h
    rw [contents]
    split_ifs at h ⊢ with heq
    exact ih (by simpa using h)

theorem contents_position {es : List (Entry w)} {name : CString} {i : Nat}
    (h : position es name = some i) :
    contents es name = some (es.get ⟨i, position_lt h⟩).func := by
  induction es generalizing i with
  | nil => exact nomatch h
  | cons e es ih =>
    have h' := h
    rw [position_cons] at h'
    rw [contents]
    split_ifs at h' ⊢ with heq
    · obtain rfl := Option.some.inj h'
      rfl
    · obtain ⟨j, hj, rfl⟩ := Option.map_eq_some_iff.mp h'
      exact ih hj

theorem contents_append_singleton (es : List (Entry w)) (e : Entry w)
    (h : position es e.name = none) (name : CString) :
    contents (es ++ [e]) name =
      if name.chars = e.name.chars then some e.func else contents es name := by
  induction es with
  | nil => simp [contents, eq_comm]
  | cons d es ih =>
    rw [position_cons] at h
    have hd : d.name.chars ≠ e.name.chars := by
      intro heq
      rw [if_pos heq] at h
      exact nomatch h
    rw [if_neg hd, Option.map_eq_none_iff] at h
    rw [List.cons_append, contents, contents, ih h]
    by_cases heq : d.name.chars = name.chars
    · rw [if_pos heq, if_pos heq, if_neg (fun h => hd (heq.trans h))]
    · rw [if_neg heq, if_neg heq]

/-- The entries with another function at position `i`. -/
def setFunc (func : FuncPtr w) : List (Entry w) → Nat → List (Entry w)
  | [], _ => []
  | e :: es, 0 => { e with func := func } :: es
  | e :: es, i + 1 => e :: setFunc func es i

theorem setFunc_length (func : FuncPtr w) (es : List (Entry w)) (i : Nat) :
    (setFunc func es i).length = es.length := by
  induction es generalizing i with
  | nil => rfl
  | cons e es ih =>
    cases i with
    | zero => rfl
    | succ i => rw [setFunc, List.length_cons, List.length_cons, ih]

theorem nameList_setFunc (func : FuncPtr w) (es : List (Entry w)) (i : Nat) :
    nameList (setFunc func es i) = nameList es := by
  induction es generalizing i with
  | nil => rfl
  | cons e es ih =>
    cases i with
    | zero => rfl
    | succ i => exact congrArg (e.name.bytes ++ ·) (ih i)

theorem contents_setFunc {es : List (Entry w)} {name : CString} {i : Nat} (func : FuncPtr w)
    (h : position es name = some i) (name' : CString) :
    contents (setFunc func es i) name' =
      if name'.chars = name.chars then some func else contents es name' := by
  induction es generalizing i with
  | nil => exact nomatch h
  | cons e es ih =>
    rw [position_cons] at h
    split_ifs at h with heq
    · obtain rfl := Option.some.inj h
      rw [setFunc, contents, contents]
      by_cases hname : name'.chars = name.chars
      · rw [if_pos hname, if_pos (heq.trans hname.symm)]
      · have hne : e.name.chars ≠ name'.chars := fun h => hname (h.symm.trans heq)
        rw [if_neg hname, if_neg hne, if_neg hne]
    · obtain ⟨j, hj, rfl⟩ := Option.map_eq_some_iff.mp h
      rw [setFunc, contents, contents, ih hj]
      by_cases hname : e.name.chars = name'.chars
      · rw [if_pos hname, if_pos hname, if_neg (fun h => heq (hname.trans h))]
      · rw [if_neg hname, if_neg hname]

/-- The table around the function at position `i`. -/
theorem table_split (es : List (Entry w)) {i : Nat} (hi : i < es.length) :
    ∃ front back, front.length = i * w ∧ table es = front ++ (es.get ⟨i, hi⟩).func.bytes ++ back ∧
      ∀ func : FuncPtr w, table (setFunc func es i) = front ++ func.bytes ++ back := by
  induction es generalizing i with
  | nil => exact absurd hi (Nat.not_lt_zero i)
  | cons e es ih =>
    cases i with
    | zero => exact ⟨[], table es, by simp, by simp [table], fun func => by simp [table, setFunc]⟩
    | succ i =>
      obtain ⟨front, back, hlen, htable, hset⟩ := ih (Nat.lt_of_succ_lt_succ hi)
      refine ⟨e.func.bytes ++ front, back, ?_, ?_, fun func => ?_⟩
      · rw [List.length_append, e.func.size, hlen, Nat.add_mul, Nat.one_mul, Nat.add_comm]
      · have hcons : table (e :: es) = e.func.bytes ++ table es := by simp [table]
        rw [hcons, htable]
        simp
      · have hcons : table (setFunc func (e :: es) (i + 1)) =
            e.func.bytes ++ table (setFunc func es i) := by simp [table, setFunc]
        rw [hcons, hset]
        simp

namespace FuncRegistry

variable {reg : FuncRegistry w} {es : List (Entry w)} {gap tail : List UInt8} {call : SetCall w}

/-- The buffer holds the entries: their count, their names with the end mark, unused bytes, the
functions, and the unused part of the table. -/
structure Layout (reg : FuncRegistry w) (es : List (Entry w)) (gap tail : List UInt8) : Prop where
  buffer : reg.buffer =
    UInt8.ofNat es.length :: (nameList es ++ 0 :: (gap ++ (table es ++ tail)))
  funcs : reg.funcs = (nameList es).length + gap.length + 2
  table : es.length * w + tail.length = reg.maxFunctions * w
  count : es.length ≤ reg.maxFunctions

theorem length_le_nameList (es : List (Entry w)) : es.length ≤ (nameList es).length := by
  induction es with
  | nil => exact Nat.le_refl 0
  | cons e es ih =>
    have hcons : (nameList (e :: es)).length = e.name.chars.length + 1 + (nameList es).length := by
      rw [nameList, List.flatMap_cons, List.length_append, CString.bytes, List.length_append]
      rfl
    rw [hcons, List.length_cons]
    omega

theorem Layout.scanNames (h : Layout reg es gap tail) (name : CString) :
    reg.scanNames name = some (match position es name with
      | some i => .found i
      | none => .listEnd es.length (0 :: (gap ++ (Crt.table es ++ tail)))) := by
  have hfuel : es.length < reg.buffer.length := by
    have hle := length_le_nameList es
    rw [h.buffer]
    simp only [List.length_cons, List.length_append]
    omega
  unfold FuncRegistry.scanNames
  rw [h.buffer, List.drop_one, List.tail_cons, ← h.buffer,
    scan_nameList es name _ _ 0 hfuel, Nat.zero_add]
  cases position es name with
  | none => rfl
  | some i => simp

/-- Reading function `i` of the table. -/
theorem Layout.load_func (h : Layout reg es gap tail) {i : Nat} (hi : i < es.length) :
    load reg.buffer (reg.funcs + i * w) w = some (es.get ⟨i, hi⟩).func.bytes := by
  obtain ⟨front, back, hlen, htable, -⟩ := table_split es hi
  have hbuffer : reg.buffer = (UInt8.ofNat es.length :: (nameList es ++ 0 :: (gap ++ front))) ++
      (es.get ⟨i, hi⟩).func.bytes ++ (back ++ tail) := by
    rw [h.buffer, htable]
    simp
  rw [hbuffer]
  apply load_append
  · rw [h.funcs]
    simp only [List.length_cons, List.length_append]
    omega
  · exact (FuncPtr.size _).symm

theorem Layout.getByIndex (h : Layout reg es gap tail) {i : Nat} (hi : i < es.length) :
    reg.getByIndex i = some (if es.length % 256 ≤ i then .error .functionIndexInvalid
      else .ok (es.get ⟨i, hi⟩).func.bytes) := by
  have hhead : reg.buffer.head? = some (UInt8.ofNat es.length) := by rw [h.buffer, List.head?_cons]
  unfold FuncRegistry.getByIndex
  simp only [hhead, h.load_func hi, Option.bind_eq_bind, Option.bind_some, ge_iff_le,
    UInt8.toNat_ofNat']
  show (if es.length % 256 ≤ i then _ else _) = _
  split_ifs
  · rfl
  · rfl

/-- What `Lookup` and `GetByIndex` find while the count fits its byte. -/
theorem Layout.find (h : Layout reg es gap tail) (hcount : es.length < 256) (name : CString) :
    reg.find name = some (match contents es name with
      | some func => .ok func.bytes
      | none => .error .functionNameNotFound) := by
  unfold FuncRegistry.find lookup
  rw [h.scanNames name]
  cases hpos : position es name with
  | none => simp [contents_eq_none hpos]
  | some i =>
    have hi := position_lt hpos
    have hmod : i % 2 ^ 16 = i := Nat.mod_eq_of_lt (by omega)
    have hget := h.getByIndex hi
    rw [Nat.mod_eq_of_lt hcount, if_neg (by omega)] at hget
    simp only [Option.bind_eq_bind, Option.bind_some, contents_position hpos]
    rw [hmod, hget]

/-- The entries that may be added to the list, and the fit the code misses: the end mark of the list
needs a byte too. -/
def Meets (reg : FuncRegistry w) (call : SetCall w) : Prop :=
  match reg.scanNames call.name with
  | some (.listEnd idx cursor) =>
    let remaining := reg.funcs - (reg.buffer.length - cursor.length)
    idx < reg.maxFunctions → call.name.chars.length + 1 ≤ remaining →
      idx < 255 ∧ call.name.chars.length + 1 < remaining
  | _ => True

theorem set_found {i : Nat} (h : Layout reg es gap tail) (hpos : position es call.name = some i) :
    if call.override = false then reg.set call = some ⟨reg, .error .functionAlreadyDefined, 0⟩
    else ∃ reg', reg.set call = some ⟨reg', .ok (), 0⟩ ∧
      Layout reg' (setFunc call.func es i) gap tail := by
  have hscan := h.scanNames call.name
  rw [hpos] at hscan
  split_ifs with hover
  · simp [FuncRegistry.set, hscan, hover]
  · obtain ⟨front, back, hlen, htable, hset⟩ := table_split es (position_lt hpos)
    have hstore : store reg.buffer (reg.funcs + i * w) call.func.bytes =
        some ((UInt8.ofNat es.length :: (nameList es ++ 0 :: (gap ++ front))) ++ call.func.bytes ++
          (back ++ tail)) := by
      have hbuffer : reg.buffer = (UInt8.ofNat es.length :: (nameList es ++ 0 :: (gap ++ front))) ++
          (es.get ⟨i, position_lt hpos⟩).func.bytes ++ (back ++ tail) := by
        rw [h.buffer, htable]
        simp
      rw [hbuffer]
      apply store_append
      · rw [h.funcs]
        simp only [List.length_cons, List.length_append]
        omega
      · rw [call.func.size, FuncPtr.size]
    refine ⟨_, by simp only [FuncRegistry.set, hscan, hover, hstore, Option.bind_eq_bind,
      Option.bind_some]; rfl, ?_⟩
    refine ⟨?_, ?_, ?_, ?_⟩
    · rw [setFunc_length, nameList_setFunc, hset]
      simp
    · rw [nameList_setFunc]
      exact h.funcs
    · rw [setFunc_length]
      exact h.table
    · rw [setFunc_length]
      exact h.count

/-- Where the name list ends. -/
theorem Layout.regNamePtr (h : Layout reg es gap tail) :
    reg.buffer.length - (0 :: (gap ++ (Crt.table es ++ tail))).length =
      (nameList es).length + 1 := by
  rw [h.buffer]
  simp only [List.length_cons, List.length_append]
  omega

theorem set_full (h : Layout reg es gap tail) (hpos : position es call.name = none)
    (hfull : ¬ (es.length < reg.maxFunctions ∧ call.name.chars.length ≤ gap.length)) :
    reg.set call = some ⟨reg, .error .functionRegistryFull, 0⟩ := by
  have hscan := h.scanNames call.name
  rw [hpos] at hscan
  have hfuncs := h.funcs
  simp only [FuncRegistry.set, hscan, Option.bind_eq_bind, Option.bind_some, h.regNamePtr]
  rw [if_neg (by omega), if_pos (by omega)]

/-- The name and the new end mark, written into the gap. -/
theorem Layout.store_name (h : Layout reg es gap tail)
    (hlen : call.name.chars.length < gap.length) :
    ∃ bytes, store reg.buffer ((nameList es).length + 1) call.name.bytes = some bytes ∧
      store bytes ((nameList es).length + 1 + call.name.chars.length + 1) [0] =
        some (UInt8.ofNat es.length :: (nameList es ++ call.name.bytes ++
          0 :: (gap.drop (call.name.chars.length + 1) ++ (Crt.table es ++ tail)))) := by
  have hbytes : call.name.bytes.length = call.name.chars.length + 1 := by simp [CString.bytes]
  -- the gap, cut behind the name
  obtain ⟨used, mark, rest, hgap, hused, hrest⟩ : ∃ used mark rest, gap = used ++ mark :: rest ∧
      used.length = call.name.chars.length ∧ gap.drop (call.name.chars.length + 1) = rest := by
    refine ⟨gap.take call.name.chars.length, gap.get ⟨_, hlen⟩, _, ?_, ?_, rfl⟩
    · simp
    · rw [List.length_take]
      omega
  rw [hrest]
  have hbuffer : reg.buffer = (UInt8.ofNat es.length :: nameList es) ++ (0 :: used) ++
      (mark :: rest ++ (Crt.table es ++ tail)) := by
    rw [h.buffer, hgap]
    simp
  refine ⟨(UInt8.ofNat es.length :: nameList es) ++ call.name.bytes ++
    (mark :: rest ++ (Crt.table es ++ tail)), ?_, ?_⟩
  · rw [hbuffer]
    apply store_append
    · simp
    · rw [hbytes, List.length_cons, hused]
  · have hre : (UInt8.ofNat es.length :: nameList es) ++ call.name.bytes ++
        (mark :: rest ++ (Crt.table es ++ tail)) =
        (UInt8.ofNat es.length :: (nameList es ++ call.name.bytes)) ++ [mark] ++
          (rest ++ (Crt.table es ++ tail)) := by simp
    have hpos : (nameList es).length + 1 + call.name.chars.length + 1 =
        (UInt8.ofNat es.length :: (nameList es ++ call.name.bytes)).length := by
      simp only [List.length_cons, List.length_append, hbytes]
      omega
    have hone : ([0] : List UInt8).length = [mark].length := rfl
    rw [hre, store_append _ _ _ hpos hone]
    simp

/-- The function, written behind the table. -/
theorem Layout.store_func (h : Layout reg es gap tail) (hn : es.length < reg.maxFunctions)
    (front : List UInt8) (func : FuncPtr w) (hfront : front.length = reg.funcs) :
    store (front ++ (Crt.table es ++ tail)) (reg.funcs + es.length * w) func.bytes =
      some (front ++ (Crt.table es ++ func.bytes ++ tail.drop w)) := by
  have htable := h.table
  have hw : w ≤ tail.length := by
    have hmul : (es.length + 1) * w ≤ reg.maxFunctions * w := Nat.mul_le_mul_right w hn
    rw [Nat.add_mul, Nat.one_mul] at hmul
    omega
  have hre : front ++ (Crt.table es ++ tail) =
      (front ++ Crt.table es) ++ tail.take w ++ tail.drop w := by
    rw [List.append_assoc _ (tail.take w), List.take_append_drop, List.append_assoc]
  rw [hre, store_append _ _ _ (by rw [List.length_append, hfront, table_length]) (by
    rw [func.size, List.length_take]
    omega)]
  simp

/-- A new name that leaves room for the end mark is appended. -/
theorem set_new (h : Layout reg es gap tail) (hpos : position es call.name = none)
    (hn : es.length < reg.maxFunctions) (hlen : call.name.chars.length < gap.length) :
    ∃ reg' namesEnd, reg.set call = some ⟨reg', .ok (), namesEnd⟩ ∧ namesEnd ≤ reg.funcs ∧
      Layout reg' (es ++ [⟨call.name, call.nonempty, call.func⟩])
        (gap.drop (call.name.chars.length + 1)) (tail.drop w) := by
  have hscan := h.scanNames call.name
  rw [hpos] at hscan
  have hfuncs := h.funcs
  have htable := h.table
  have hbytes : call.name.bytes.length = call.name.chars.length + 1 := by simp [CString.bytes]
  obtain ⟨bytes, hstore₁, hstore₂⟩ := h.store_name hlen
  have hstore₃ := h.store_func hn (UInt8.ofNat es.length :: (nameList es ++ call.name.bytes ++
    0 :: gap.drop (call.name.chars.length + 1))) call.func (by
      simp only [List.length_cons, List.length_append, hbytes, List.length_drop]
      omega)
  simp only [List.cons_append, List.append_assoc] at hstore₂ hstore₃
  refine ⟨{ reg with buffer := (UInt8.ofNat es.length + 1) :: (nameList es ++ (call.name.bytes ++
      0 :: (gap.drop (call.name.chars.length + 1) ++ (Crt.table es ++ (call.func.bytes ++
        tail.drop w))))) }, (nameList es).length + 1 + call.name.chars.length + 2, ?_, ?_, ?_⟩
  · simp only [FuncRegistry.set, hscan, Option.bind_eq_bind, Option.bind_some, h.regNamePtr]
    rw [if_neg (by omega), if_neg (by omega)]
    simp only [hstore₁, hstore₂, hstore₃, Option.bind_some, List.head?_cons]
    rw [store_eq_some (by simp)]
    simp
  · omega
  · refine ⟨?_, ?_, ?_, ?_⟩
    · have hcount : UInt8.ofNat (es ++ [(⟨call.name, call.nonempty, call.func⟩ : Entry w)]).length =
          UInt8.ofNat es.length + 1 := by
        rw [List.length_append, List.length_singleton, UInt8.ofNat_add]
        rfl
      rw [hcount]
      simp [nameList, Crt.table]
    · have hlist : (nameList (es ++ [⟨call.name, call.nonempty, call.func⟩])).length =
          (nameList es).length + (call.name.chars.length + 1) := by
        rw [← hbytes]
        simp [nameList]
      rw [hlist, List.length_drop]
      show reg.funcs = _
      omega
    · rw [List.length_append, List.length_singleton, Nat.add_mul, Nat.one_mul, List.length_drop]
      show _ = reg.maxFunctions * w
      have hmul : (es.length + 1) * w ≤ reg.maxFunctions * w := Nat.mul_le_mul_right w hn
      rw [Nat.add_mul, Nat.one_mul] at hmul
      omega
    · rw [List.length_append, List.length_singleton]
      exact hn

/-- A name that leaves no room for the end mark: the mark is written into the table. -/
theorem set_exact (h : Layout reg es gap tail) (hpos : position es call.name = none)
    (hn : es.length < reg.maxFunctions) (hlen : call.name.chars.length = gap.length)
    {outcome : SetOutcome w} (hset : reg.set call = some outcome) :
    reg.funcs < outcome.namesEnd := by
  have hscan := h.scanNames call.name
  rw [hpos] at hscan
  have hfuncs := h.funcs
  simp only [FuncRegistry.set, hscan, Option.bind_eq_bind, Option.bind_some, h.regNamePtr] at hset
  rw [if_neg (by omega), if_neg (by omega)] at hset
  obtain ⟨bytes₁, -, hset⟩ := Option.bind_eq_some_iff.mp hset
  obtain ⟨bytes₂, -, hset⟩ := Option.bind_eq_some_iff.mp hset
  obtain ⟨bytes₃, -, hset⟩ := Option.bind_eq_some_iff.mp hset
  obtain ⟨numFuncs, -, hset⟩ := Option.bind_eq_some_iff.mp hset
  obtain ⟨bytes₄, -, hset⟩ := Option.bind_eq_some_iff.mp hset
  rw [← Option.some.inj hset]
  show reg.funcs < (nameList es).length + 1 + call.name.chars.length + 2
  omega

/-- The registry is the map `m`. -/
def IsMap (reg : FuncRegistry w) (m : CString → Option (FuncPtr w)) : Prop :=
  ∀ name, reg.find name = some (match m name with
    | some func => .ok func.bytes
    | none => .error .functionNameNotFound)

/-- The map after a call with this result. -/
def record (m : CString → Option (FuncPtr w)) (call : SetCall w) :
    Except RegistryError Unit → CString → Option (FuncPtr w)
  | .ok _, name => if name.chars = call.name.chars then some call.func else m name
  | .error _, name => m name

/-- Along the calls the registry is the map of the last successful ones, no access leaves the buffer,
and the name list stays below the function table. -/
def MapAlong (reg : FuncRegistry w) (m : CString → Option (FuncPtr w)) : List (SetCall w) → Prop
  | [] => reg.IsMap m
  | call :: calls => reg.IsMap m ∧ ∃ outcome, reg.set call = some outcome ∧
    outcome.namesEnd ≤ reg.funcs ∧
    outcome.registry.MapAlong (record m call outcome.result) calls

def RunMeets (reg : FuncRegistry w) : List (SetCall w) → Prop
  | [] => True
  | call :: calls => reg.Meets call ∧
    ∀ outcome, reg.set call = some outcome → outcome.registry.RunMeets calls

theorem Layout.isMap (h : Layout reg es gap tail) (hcount : es.length < 256)
    {m : CString → Option (FuncPtr w)} (hm : ∀ name, m name = contents es name) : reg.IsMap m := by
  intro name
  rw [h.find hcount name, hm name]

theorem Layout.meets_iff (h : Layout reg es gap tail) :
    reg.Meets call ↔ (position es call.name = none → es.length < reg.maxFunctions →
      call.name.chars.length ≤ gap.length → es.length < 255 ∧ call.name.chars.length < gap.length) := by
  have hfuncs := h.funcs
  unfold Meets
  rw [h.scanNames call.name]
  cases hpos : position es call.name with
  | some i => simp
  | none =>
    simp only [h.regNamePtr, forall_const]
    have hremaining : reg.funcs - ((nameList es).length + 1) = gap.length + 1 := by omega
    rw [hremaining]
    constructor
    · intro hmeets hn hlen
      have hboth := hmeets hn (by omega)
      omega
    · intro hmeets hn hlen
      have hboth := hmeets hn (by omega)
      omega

/-- With 256 functions the count byte is zero, and no function can be read. -/
theorem Layout.not_isMap (h : Layout reg es gap tail) (hcount : es.length = 256)
    {m : CString → Option (FuncPtr w)} (hm : ∀ name, m name = contents es name) :
    ¬ reg.IsMap m := by
  intro hmap
  have hpos : ∃ name i, position es name = some i := by
    cases es with
    | nil => exact absurd hcount (by simp)
    | cons e es => exact ⟨e.name, 0, by rw [position_cons, if_pos rfl]⟩
  obtain ⟨name, i, hpos⟩ := hpos
  have hi := position_lt hpos
  have hget := h.getByIndex hi
  rw [if_pos (by omega)] at hget
  have hmod : i % 2 ^ 16 = i := Nat.mod_eq_of_lt (by omega)
  have hfind := hmap name
  rw [hm name, contents_position hpos] at hfind
  unfold FuncRegistry.find lookup at hfind
  simp only [h.scanNames name, hpos, Option.bind_eq_bind, Option.bind_some, hmod, hget] at hfind
  exact nomatch hfind

theorem mapAlong_isMap {m : CString → Option (FuncPtr w)} {calls : List (SetCall w)}
    (h : reg.MapAlong m calls) : reg.IsMap m := by
  cases calls with
  | nil => exact h
  | cons call calls => exact h.1

/-- From a registry that holds the entries, the calls keep it a map exactly when every new name fits
together with the end mark and its index fits the count byte. -/
theorem mapAlong_iff {m : CString → Option (FuncPtr w)} (calls : List (SetCall w))
    (h : Layout reg es gap tail) (hcount : es.length < 256) (hm : ∀ name, m name = contents es name) :
    reg.MapAlong m calls ↔ reg.RunMeets calls := by
  induction calls generalizing reg es gap tail m with
  | nil => exact ⟨fun _ => trivial, fun _ => h.isMap hcount hm⟩
  | cons call calls ih =>
    -- a call with outcome `o` that leads to the entries `es'`
    have hstep {o : SetOutcome w} {es' : List (Entry w)} {gap' tail' : List UInt8}
        (hset : reg.set call = some o) (hmeets : reg.Meets call) (hend : o.namesEnd ≤ reg.funcs)
        (h' : Layout o.registry es' gap' tail') (hcount' : es'.length < 256)
        (hm' : ∀ name, record m call o.result name = contents es' name) :
        reg.MapAlong m (call :: calls) ↔ reg.RunMeets (call :: calls) := by
      have hih := ih h' hcount' hm'
      constructor
      · intro halong
        obtain ⟨-, o', hset', -, hrest⟩ := halong
        rw [hset] at hset'
        obtain rfl := Option.some.inj hset'
        refine ⟨hmeets, fun o' hset' => ?_⟩
        rw [hset] at hset'
        obtain rfl := Option.some.inj hset'
        exact hih.mp hrest
      · intro hrun
        exact ⟨h.isMap hcount hm, o, hset, hend, hih.mpr (hrun.2 o hset)⟩
    cases hpos : position es call.name with
    | some i =>
      have hmeets : reg.Meets call := h.meets_iff.mpr fun hnone => by
        rw [hpos] at hnone
        exact nomatch hnone
      have hset := set_found h hpos
      split_ifs at hset with hover
      · exact hstep hset hmeets (Nat.zero_le _) h hcount hm
      · obtain ⟨reg', hset, h'⟩ := hset
        refine hstep hset hmeets (Nat.zero_le _) h' (by rw [setFunc_length]; exact hcount) ?_
        intro name
        rw [contents_setFunc call.func hpos, record, hm name]
    | none =>
      by_cases hfit : es.length < reg.maxFunctions ∧ call.name.chars.length ≤ gap.length
      · obtain ⟨hn, hlen⟩ := hfit
        rcases Nat.lt_or_eq_of_le hlen with hlt | heq
        · obtain ⟨reg', namesEnd, hset, hend, h'⟩ := set_new h hpos hn hlt
          have hm' : ∀ name, record m call (.ok ()) name =
              contents (es ++ [⟨call.name, call.nonempty, call.func⟩]) name := by
            intro name
            rw [contents_append_singleton _ _ hpos, record, hm name]
          by_cases h255 : es.length < 255
          · refine hstep hset (h.meets_iff.mpr fun _ _ _ => ⟨h255, hlt⟩) hend h' ?_ hm'
            rw [List.length_append, List.length_singleton]
            omega
          · -- the count byte wraps
            constructor
            · intro halong
              obtain ⟨-, o', hset', -, hrest⟩ := halong
              rw [hset] at hset'
              obtain rfl := Option.some.inj hset'
              refine absurd (mapAlong_isMap hrest) (h'.not_isMap ?_ hm')
              rw [List.length_append, List.length_singleton]
              omega
            · intro hrun
              exact absurd (h.meets_iff.mp hrun.1 hpos hn hlen).1 h255
        · -- the end mark falls into the table
          constructor
          · intro halong
            obtain ⟨-, o', hset', hend, -⟩ := halong
            exact absurd hend (Nat.not_le_of_gt (set_exact h hpos hn heq hset'))
          · intro hrun
            have hlt := (h.meets_iff.mp hrun.1 hpos hn hlen).2
            omega
      · have hset := set_full h hpos hfit
        refine hstep hset (h.meets_iff.mpr fun _ hn hlen => ?_) (Nat.zero_le _) h hcount hm
        exact absurd ⟨hn, hlen⟩ hfit

theorem create_layout (buffer : List UInt8)
    (hsize : kTvmAverageFuncEntrySizeBytes w ≤ buffer.length) :
    ∃ reg gap tail, create w buffer = some (.ok reg) ∧ Layout reg [] gap tail := by
  have hentry : kTvmAverageFuncEntrySizeBytes w = 11 + w := rfl
  obtain ⟨b₀, b₁, rest, rfl⟩ : ∃ b₀ b₁ rest, buffer = b₀ :: b₁ :: rest := by
    match buffer, hsize with
    | b₀ :: b₁ :: rest, _ => exact ⟨b₀, b₁, rest, rfl⟩
    | [_], hsize => exact absurd hsize (by rw [hentry, List.length_singleton]; omega)
    | [], hsize => exact absurd hsize (by rw [hentry, List.length_nil]; omega)
  simp only [List.length_cons] at hsize
  -- at least one entry fits, and each needs eleven bytes besides its function
  have hmax : (rest.length + 1 + 1) / (11 + w) * w + 11 ≤ rest.length + 2 := by
    have hpos : 1 ≤ (rest.length + 1 + 1) / (11 + w) :=
      (Nat.one_le_div_iff (by omega)).mpr (by rw [← hentry]; exact hsize)
    have hle := Nat.div_mul_le_self (rest.length + 1 + 1) (11 + w)
    rw [Nat.mul_add] at hle
    omega
  refine ⟨⟨0 :: 0 :: rest, rest.length + 1 + 1 - (rest.length + 1 + 1) / (11 + w) * w,
    (rest.length + 1 + 1) / (11 + w)⟩,
    rest.take (rest.length - (rest.length + 1 + 1) / (11 + w) * w),
    rest.drop (rest.length - (rest.length + 1 + 1) / (11 + w) * w), ?_, ?_⟩
  · unfold create
    rw [if_neg (by simp only [List.length_cons]; omega)]
    simp [store, hentry]
  · refine ⟨?_, ?_, ?_, Nat.zero_le _⟩
    · simp [nameList, Crt.table]
    · simp only [nameList, List.flatMap_nil, List.length_nil, List.length_take]
      omega
    · simp only [List.length_nil, List.length_drop]
      omega

/-- A new registry is a map along a sequence of calls exactly when each new name that is accepted
leaves a byte for the end mark and at most 254 functions were there before. -/
theorem func_registry_map_iff (buffer : List UInt8) (calls : List (SetCall w))
    (hsize : kTvmAverageFuncEntrySizeBytes w ≤ buffer.length) :
    ∃ reg, create w buffer = some (.ok reg) ∧
      (reg.MapAlong (fun _ => none) calls ↔ reg.RunMeets calls) := by
  obtain ⟨reg, gap, tail, hcreate, h⟩ := create_layout buffer hsize
  exact ⟨reg, hcreate, mapAlong_iff calls h (by simp) fun _ => rfl⟩

/-- A name of ten characters, then one of nine whose end mark is byte 22, where the table starts. -/
def tenChars : SetCall 8 :=
  ⟨⟨List.replicate 10 97, by decide⟩, by decide, ⟨List.replicate 8 17, rfl⟩, false⟩

def nineChars : SetCall 8 :=
  ⟨⟨List.replicate 9 98, by decide⟩, by decide, ⟨List.replicate 8 34, rfl⟩, false⟩

theorem func_registry_map_two : ∃ reg, create 8 (List.replicate 38 255) = some (.ok reg) ∧
    (reg.MapAlong (fun _ => none) [tenChars, nineChars] ↔ reg.RunMeets [tenChars, nineChars]) :=
  func_registry_map_iff (List.replicate 38 255) [tenChars, nineChars] (by decide)

/-- Both calls succeed, and the first function is found with its low byte cleared. -/
theorem exact_fit_overwrites_table :
    ∃ reg first second, create 8 (List.replicate 38 0) = some (.ok reg) ∧
      reg.set tenChars = some first ∧ first.registry.set nineChars = some second ∧
      second.result = .ok () ∧
      second.registry.find tenChars.name = some (.ok [0, 17, 17, 17, 17, 17, 17, 17]) ∧
      ¬ reg.MapAlong (fun _ => none) [tenChars, nineChars] := by
  refine ⟨⟨List.replicate 38 0, 22, 2⟩,
    ⟨⟨1 :: (List.replicate 10 97 ++ List.replicate 11 0 ++ List.replicate 8 17 ++
      List.replicate 8 0), 22, 2⟩, .ok (), 13⟩,
    ⟨⟨2 :: (List.replicate 10 97 ++ 0 :: (List.replicate 9 98 ++ 0 :: 0 :: (List.replicate 7 17 ++
      List.replicate 8 34))), 22, 2⟩, .ok (), 23⟩, rfl, rfl, rfl, rfl, rfl, ?_⟩
  intro halong
  obtain ⟨-, first, hfirst, -, -, second, hsecond, hend, -⟩ := halong
  obtain rfl : _ = first := Option.some.inj hfirst
  obtain rfl : _ = second := Option.some.inj hsecond
  exact absurd hend (by decide)

end FuncRegistry

end StencilGraph.Crt

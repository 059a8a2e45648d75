import StencilGraph.Relay.CallMap

namespace StencilGraph.Relay
open Framework Relation NodeAutoFusion

/-- A pair of calls, fused, with the replacements of its uses; no call lies between the two. -/
structure Contracts (h hf h' : Heap) (ps A outs : List Nat) (tag : List String) (b a c fc : Nat)
    (m : ReplaceMap) : Prop where
  group : Group h ps b A a c
  fused : Fused h hf ps A outs tag fc
  rewired : Rewired h hf h' ps b a c fc m
  between : ¬ Between (Dep h b) a c ∧ ¬ Between (Dep h b) c a

/-- A result of the group that is not replaced. -/
def Hidden (h : Heap) (replace : Nat → Option Nat) (a c x : Nat) : Prop :=
  replace x = none ∧ (x = a ∨ x = c ∨ ∃ t k, h[x]? = some (.tupleGetItem t k) ∧ (t = a ∨ t = c) ∧
    replace t = none)

/-- The expressions of the rewritten `main`. -/
def Visible (h hf h' : Heap) (replace : Nat → Option Nat) (b a c fc x : Nat) : Prop :=
  (Reach h b x ∧ ¬ Hidden h replace a c x) ∨ x = fc ∨
    hf.length ≤ x ∧ ∃ j, h'[x]? = some (.tupleGetItem fc j)

/-- The expressions that use the group. -/
def Leads (h : Heap) (a c x : Nat) : Prop := Reach h x a ∨ Reach h x c

/-- The visit that rewrites the body of `main`. -/
structure Rewritten (h' : Heap) (m : ReplaceMap) (s : Mutation) (b b' : Nat) : Prop where
  rebuild : Rebuild m.get h' (fun _ => none) s
  body : s.memo b = some b'

variable {h hf h' : Heap} {ps A outs : List Nat} {tag : List String} {a b c fc x y : Nat}
  {m : ReplaceMap}

section Contracts

variable (hC : Contracts h hf h' ps A outs tag b a c fc m)

include hC

/-- The arguments of the fused call do not depend on the group. -/
theorem Contracts.args_apart (hy : y ∈ A) : ¬ Leads h a c y := by
  have hg := hC.group
  have hm := hg.main
  obtain ⟨-, -, hya, hyc, hitem⟩ := hg.outside y hy
  have htop : ∀ g, g = a ∨ g = c → TopCall h b g := by
    rintro g (rfl | rfl)
    · exact ⟨hg.callA, hg.reachA⟩
    · exact ⟨hg.callC, hg.reachC⟩
  obtain ⟨g, hgm, hyg⟩ : ∃ g, (g = a ∨ g = c) ∧ y ∈ GroupOp.callArgs h g := by
    rcases hg.used y hy with hu | hu
    · exact ⟨a, Or.inl rfl, hu⟩
    · exact ⟨c, Or.inr rfl, hu⟩
  have hg' := htop g hgm
  -- the call that computes `y` lies between the two calls if it depends on the group
  have hsource {d e : Nat} (hd : IsCall h d) (hu : Uses h d g) (he : e = a ∨ e = c) (hde : d ≠ e)
      (hr : Reach h d e) : False := by
    have hdep : Dep h b d g := ⟨(hu.topCall hm hg' hd).1, hg', hu⟩
    have hed : TransGen (Dep h b) e d := by
      rcases dep_path_of_reach hm hdep.1 hr (htop e he).1 with heq | hp
      · exact absurd heq hde
      · exact hp
    rcases hgm with rfl | rfl <;> rcases he with rfl | rfl
    · exact dep_acyclic hm _ (hed.tail hdep)
    · exact hC.between.2 ⟨d, hed, .single hdep⟩
    · exact hC.between.1 ⟨d, hed, .single hdep⟩
    · exact dep_acyclic hm _ (hed.tail hdep)
  have hno {e : Nat} (he : e = a ∨ e = c) : ¬ Reach h y e := by
    intro hr
    have hye : y ≠ e := by
      rcases he with rfl | rfl
      · exact hya
      · exact hyc
    rcases arg_cases hm hg'.2 hg'.1 hyg with ⟨name, hv⟩ | hcall | ⟨t, k, hi, ht⟩
    · rcases hr.cases_head with heq | ⟨w, ⟨n, hn, hw⟩, -⟩
      · exact hye heq
      · obtain rfl := Option.some.inj (hv.symm.trans hn)
        simp [Node.deps] at hw
    · exact hsource hcall ⟨y, hyg, Or.inl rfl⟩ he hye hr
    · rcases hr.cases_head with heq | ⟨w, ⟨n, hn, hw⟩, hwe⟩
      · exact hye heq
      · obtain rfl := Option.some.inj (hi.symm.trans hn)
        obtain rfl : w = t := by simpa [Node.deps] using hw
        have hte : w ≠ e := by
          rcases he with rfl | rfl
          · exact (hitem w k hi).1
          · exact (hitem w k hi).2
        exact hsource ht ⟨y, hyg, Or.inr ⟨k, hi⟩⟩ he hte hwe
  rintro (hr | hr)
  · exact hno (Or.inl rfl) hr
  · exact hno (Or.inr rfl) hr

/-- Outside uses of the group are replaced. -/
theorem Contracts.outside_visible (hy : Outside h b a c y) : ¬ Hidden h m.get a c y := by
  have hg := hC.group
  rintro ⟨hrep, hcase⟩
  have hnotcall {k : Nat} (hyk : IsCall h y) (hu : GroupUse h k y) : y = k := by
    obtain ⟨callee, args, hget⟩ := hyk
    rcases hu with heq | ⟨j, hj⟩
    · exact heq
    · simp [hget] at hj
  have hkey {k v : Nat} (hkv : (k, v) ∈ m) : y ≠ k := by
    rintro rfl
    exact ReplaceMap.get_ne_none hkv hrep
  rcases hcase with rfl | rfl | ⟨t, j, hget, ht, hrept⟩
  · obtain ⟨k, v, hkv, hu⟩ := hC.rewired.cover y hy (Or.inl (Or.inl rfl))
    exact hkey hkv (hnotcall hg.callA hu)
  · obtain ⟨k, v, hkv, hu⟩ := hC.rewired.cover y hy (Or.inr (Or.inl rfl))
    exact hkey hkv (hnotcall hg.callC hu)
  · have huse : GroupUse h a y ∨ GroupUse h c y := by
      rcases ht with rfl | rfl
      · exact Or.inl (Or.inr ⟨j, hget⟩)
      · exact Or.inr (Or.inr ⟨j, hget⟩)
    obtain ⟨k, v, hkv, heq | ⟨j', hj'⟩⟩ := hC.rewired.cover y hy huse
    · exact hkey hkv heq
    · obtain ⟨rfl, -⟩ : t = k ∧ j = j' := by simpa [hget] using hj'
      exact ReplaceMap.get_ne_none hkv hrept

end Contracts

/-- A tuple of `main` is its result. -/
theorem tuple_eq_body {fields : List Nat} (hm : Main h ps b) (hx : Reach h b x)
    (hget : h[x]? = some (.tuple fields)) : x = b := by
  rcases hx.cases_tail with heq | ⟨z, hz, n, hn, hdep⟩
  · exact heq
  · have hno (hty : typeOf h x = .tensor) : x = b := by simp [typeOf_tuple hget] at hty
    cases hm.typed hz with
    | var _ name hget' =>
      obtain rfl := Option.some.inj (hget'.symm.trans hn)
      simp [Node.deps] at hdep
    | op _ name outputs args hget' _ hty =>
      obtain rfl := Option.some.inj (hget'.symm.trans hn)
      exact hno (hty x hdep)
    | func _ f args hget' _ _ hty =>
      obtain rfl := Option.some.inj (hget'.symm.trans hn)
      exact hno (hty x hdep)
    | tuple _ fields' hget' _ hty =>
      obtain rfl := Option.some.inj (hget'.symm.trans hn)
      exact hno (hty x hdep)
    | item _ t k n' hget' hi =>
      obtain rfl := Option.some.inj (hget'.symm.trans hn)
      obtain rfl : x = t := by simpa [Node.deps] using hdep
      obtain ⟨callee, args, hc⟩ := hi
      simp [hget] at hc

/-- Functions are closed under what their parts are computed from. -/
theorem InFunc.reach {f : Nat} (hw : Wf h) {n bd : Nat} {qs : List Nat} {ftag : List String}
    (hok : FuncOk h f n qs bd ftag) (hx : InFunc h f x) (hr : Reach h x y) : InFunc h f y := by
  induction hr with
  | refl => exact hx
  | tail _ hd ih =>
    obtain ⟨node, hn, hdep⟩ := hd
    obtain ⟨node', hn', hsub⟩ := inFunc_visited (fun _ => none) hw hok ih rfl
    obtain rfl := Option.some.inj (hn.symm.trans hn')
    refine (hsub _ ?_).1
    cases node with
    | var => simp [Node.deps] at hdep
    | call c args => exact List.mem_append_right _ hdep
    | tuple => exact hdep
    | tupleGetItem => exact hdep
    | function => simp [Node.deps] at hdep

section Contracts

variable (hC : Contracts h hf h' ps A outs tag b a c fc m)

include hC

theorem Contracts.ext : h <+: h' := hC.fused.ext.ext.trans hC.rewired.ext.ext

theorem Contracts.lt (hx : Reach h b x) : x < h.length := (hC.group.main.typed hx).lt

theorem Contracts.get (hx : Reach h b x) : h'[x]? = h[x]? := get_ext_iff hC.ext (hC.lt hx)

theorem Contracts.typed (hx : Reach h b x) : Typed h' (Callable h') (IsCall h') ps x := by
  have hm := hC.group.main
  exact (hm.typed hx).mono hm.wf hC.ext (fun _ _ hf => hf.ext hm.wf hC.ext)
    (fun _ hc => hc.ext hC.ext) (fun _ hp => hp)

theorem Contracts.key {v : Nat} (hrep : m.get x = some v) :
    Reach h b x ∧ (GroupUse h a x ∨ GroupUse h c x) :=
  hC.rewired.key x v (ReplaceMap.mem_of_get hrep)

theorem Contracts.key_leads {v : Nat} (hrep : m.get x = some v) : Leads h a c x := by
  have huse {t : Nat} (hu : GroupUse h t x) : Reach h x t := by
    rcases hu with rfl | ⟨k, hk⟩
    · exact ReflTransGen.refl
    · exact .single ⟨_, hk, by simp [Node.deps]⟩
  exact (hC.key hrep).2.imp huse huse

theorem Contracts.fc_call : ∃ f params body, h'[fc]? = some (.call (.func f) A) ∧
    FuncOk h' f A.length params body tag ∧ f < hf.length ∧ ∀ x, InFunc h' f x → h.length ≤ x := by
  obtain ⟨f, params, body, hcall, hok, hnew⟩ := hC.fused.call
  have he := hC.rewired.ext.ext
  have hflt := lt_of_get hok.node
  exact ⟨f, params, body, get_ext he hcall, hok.ext hC.fused.ext.wf he, hflt,
    fun x hx => hnew x (hx.of_ext hC.fused.ext.wf he hflt)⟩

theorem Contracts.fc_typed : Typed h' (Callable h') (IsCall h') ps fc := by
  have he := hC.rewired.ext.ext
  have hw := hC.fused.ext.wf
  exact (hC.fused.typed hC.group).mono hw he (fun _ _ hf => hf.ext hw he) (fun _ hc => hc.ext he)
    (fun _ hp => hp)

theorem Contracts.not_leads (hx : h.length ≤ x) : ¬ Leads h a c x := by
  have hno {e : Nat} (he : Reach h b e) : ¬ Reach h x e := by
    intro hr
    rcases hr.cases_head with rfl | ⟨w, ⟨n, hn, -⟩, -⟩
    · have := hC.lt he
      omega
    · have := lt_of_get hn
      omega
  rintro (hr | hr)
  · exact hno hC.group.reachA hr
  · exact hno hC.group.reachC hr

theorem Contracts.target_visible {v : Nat} (hrep : m.get x = some v) :
    Visible h hf h' m.get b a c fc v ∧ h.length ≤ v := by
  rcases hC.rewired.target x v (ReplaceMap.mem_of_get hrep) with rfl | ⟨hle, hj⟩
  · exact ⟨Or.inr (Or.inl rfl), hC.fused.new⟩
  · have := hC.fused.ext.ext.length_le
    exact ⟨Or.inr (Or.inr ⟨hle, hj⟩), by omega⟩

/-- What a visible expression that is not replaced is computed from is visible. -/
theorem Contracts.visible_dep {n : Node} (hx : Reach h b x) (hvis : ¬ Hidden h m.get a c x)
    (hrep : m.get x = none) (hn : h[x]? = some n) (hy : y ∈ n.deps) : ¬ Hidden h m.get a c y := by
  have hm := hC.group.main
  cases n with
  | var => simp [Node.deps] at hy
  | call callee args =>
    refine hC.outside_visible (Or.inl ⟨x, ⟨⟨callee, args, hn⟩, hx⟩, ?_, ?_, ?_⟩)
    · rintro rfl
      exact hvis ⟨hrep, Or.inl rfl⟩
    · rintro rfl
      exact hvis ⟨hrep, Or.inr (Or.inl rfl)⟩
    · rw [callArgs_call hn]
      exact hy
  | tuple fields =>
    obtain rfl := tuple_eq_body hm hx hn
    refine hC.outside_visible (Or.inr ?_)
    simp only [retCalls, hn]
    exact hy
  | tupleGetItem t k =>
    obtain rfl : y = t := by simpa [Node.deps] using hy
    have hcall : IsCall h y := by
      cases hm.typed hx with
      | item _ t' k' n' hget hi =>
        obtain ⟨rfl, rfl⟩ : t' = y ∧ k' = k := by simpa [hget] using hn
        exact hi
      | _ => simp_all
    rintro ⟨hrepy, hcase⟩
    rcases hcase with rfl | rfl | ⟨t, j, hget, -, -⟩
    · exact hvis ⟨hrep, Or.inr (Or.inr ⟨y, k, hn, Or.inl rfl, hrepy⟩)⟩
    · exact hvis ⟨hrep, Or.inr (Or.inr ⟨y, k, hn, Or.inr rfl, hrepy⟩)⟩
    · obtain ⟨callee, args, hc⟩ := hcall
      simp [hget] at hc
  | function => simp [Node.deps] at hy

theorem Contracts.body_visible : ¬ Hidden h m.get a c b := by
  have hm := hC.group.main
  obtain ⟨n, hn⟩ := get_of_lt hm.body.lt
  by_cases htuple : ∃ fields, n = .tuple fields
  · obtain ⟨fields, rfl⟩ := htuple
    rintro ⟨-, rfl | rfl | ⟨t, k, hget, -, -⟩⟩
    · obtain ⟨callee, args, hc⟩ := hC.group.callA
      simp [hn] at hc
    · obtain ⟨callee, args, hc⟩ := hC.group.callC
      simp [hn] at hc
    · simp [hn] at hget
  · refine hC.outside_visible (Or.inr ?_)
    unfold retCalls
    rw [hn]
    cases n with
    | tuple fields => exact absurd ⟨fields, rfl⟩ htuple
    | _ => simp

/-- The arguments of the fused call are visible. -/
theorem Contracts.arg_visible (hy : y ∈ A) : Reach h b y ∧ ¬ Hidden h m.get a c y := by
  obtain ⟨hr, -, hya, hyc, hitem⟩ := hC.group.outside y hy
  refine ⟨hr, ?_⟩
  rintro ⟨-, rfl | rfl | ⟨t, k, hget, rfl | rfl, -⟩⟩
  · exact hya rfl
  · exact hyc rfl
  · exact (hitem t k hget).1 rfl
  · exact (hitem t k hget).2 rfl

/-- What lies inside the functions that visible calls apply: parts of old functions, or new objects
of the fused function. -/
theorem Contracts.inside_cases (hx : Inside h' (Visible h hf h' m.get b a c fc) x) :
    (Inside h (Reach h b) x ∧ x < h.length) ∨ h.length ≤ x ∧ x < hf.length ∧ x ≠ fc := by
  obtain ⟨z, f, args, hz, hcall, hin⟩ := hx
  have hm := hC.group.main
  rcases hz with ⟨hz, -⟩ | rfl | ⟨-, j, hj⟩
  · rw [hC.get hz] at hcall
    obtain ⟨qs, body, ftag, hok⟩ := ((hm.typed hz).call hcall).1 f rfl
    have hin' := hin.of_ext hm.wf hC.ext (lt_of_get hok.node)
    exact Or.inl ⟨⟨z, f, args, hz, hcall, hin'⟩, hin'.lt hm.wf hok⟩
  · obtain ⟨f', params, body, hcall', hok, hflt, hnew⟩ := hC.fc_call
    obtain ⟨rfl, -⟩ : f' = f ∧ A = args := by simpa [hcall'] using hcall
    have hle := hin.le hC.rewired.ext.wf
    have := wf_func hC.rewired.ext.wf hcall'
    exact Or.inr ⟨hnew x hin, by omega, by omega⟩
  · simp [hcall] at hj

theorem Contracts.region : Region m.get h' (fun _ => none) (Visible h hf h' m.get b a c fc)
    (Leads h a c) := by
  have hg := hC.group
  have hm := hg.main
  have hlef := hC.fused.ext.ext.length_le
  have hleads {x y : Nat} {n : Node} (hn : h[x]? = some n) (hy : y ∈ n.deps)
      (hl : Leads h a c y) : Leads h a c x := hl.imp (reach_dep hn hy) (reach_dep hn hy)
  refine ⟨?_, ?_, ?_, ?_, ?_, ?_, ?_⟩
  · rintro x (⟨hx, -⟩ | rfl | ⟨-, j, hj⟩)
    · exact (hC.typed hx).not_function
    · exact hC.fc_typed.not_function
    · exact ⟨_, hj, by simp⟩
  · rintro x n y (⟨hx, hvis⟩ | rfl | ⟨-, j, hj⟩) - hrep hn hy
    · rw [hC.get hx] at hn
      exact ⟨Or.inl ⟨hx.tail ⟨n, hn, hy⟩, hC.visible_dep hx hvis hrep hn hy⟩, hleads hn hy⟩
    · obtain ⟨f, params, body, hcall, -, -, -⟩ := hC.fc_call
      obtain rfl := Option.some.inj (hcall.symm.trans hn)
      exact ⟨Or.inl (hC.arg_visible hy), fun hl => absurd hl (hC.args_apart hy)⟩
    · obtain rfl := Option.some.inj (hj.symm.trans hn)
      obtain rfl : y = fc := by simpa [Node.deps] using hy
      exact ⟨Or.inr (Or.inl rfl), fun hl => absurd hl (hC.not_leads hC.fused.new)⟩
  · intro x y _ _ _ hrep
    obtain ⟨h1, h2⟩ := hC.target_visible hrep
    exact ⟨h1, hC.key_leads hrep, hC.not_leads h2⟩
  · intro x fields _ hx
    cases hrep : m.get x with
    | none => rfl
    | some v =>
      obtain ⟨hr, hu⟩ := hC.key hrep
      rw [hC.get hr] at hx
      have hno {t : Nat} (ht : IsCall h t) (hu : GroupUse h t x) : False := by
        obtain ⟨callee, args, hc⟩ := ht
        rcases hu with rfl | ⟨k, hk⟩
        · simp [hx] at hc
        · simp [hx] at hk
      exact (hu.elim (hno hg.callA) (hno hg.callC)).elim
  · intro x y hrep
    exact (hC.rewired.typed x y (ReplaceMap.mem_of_get hrep)).lt
  · rintro z f args (⟨hz, -⟩ | rfl | ⟨-, j, hj⟩) hcall
    · exact ((hC.typed hz).call hcall).1 f rfl
    · exact (hC.fc_typed.call hcall).1 f rfl
    · simp [hcall] at hj
  · intro x hx
    rcases hC.inside_cases hx with ⟨hin, hlt⟩ | ⟨hle, -, -⟩
    · have hapart : ¬ Reach h b x := fun hr => hm.apart x (Or.inr hr) hin
      refine ⟨?_, rfl, ?_⟩
      · cases hrep : m.get x with
        | none => rfl
        | some v => exact absurd (hC.key hrep).1 hapart
      · obtain ⟨z, f, args, hz, hcall, hinf⟩ := hin
        obtain ⟨qs, body, ftag, hok⟩ := ((hm.typed hz).call hcall).1 f rfl
        have hno {e : Nat} (he : Reach h b e) (hr : Reach h x e) : False :=
          hm.apart e (Or.inr he) ⟨z, f, args, hz, hcall, hinf.reach hm.wf hok hr⟩
        rintro (hr | hr)
        · exact hno hg.reachA hr
        · exact hno hg.reachC hr
    · refine ⟨?_, rfl, hC.not_leads hle⟩
      cases hrep : m.get x with
      | none => rfl
      | some v =>
        have := hC.lt (hC.key hrep).1
        omega

theorem Contracts.key_node {v : Nat} (hrep : m.get x = some v) :
    IsCall h' x ∨ ∃ t k, h'[x]? = some (.tupleGetItem t k) := by
  have hnode {t : Nat} (ht : IsCall h t) (hu : GroupUse h t x) :
      IsCall h' x ∨ ∃ t k, h'[x]? = some (.tupleGetItem t k) := by
    rcases hu with rfl | ⟨k, hk⟩
    · exact Or.inl (ht.ext hC.ext)
    · exact Or.inr ⟨t, k, get_ext hC.ext hk⟩
  exact (hC.key hrep).2.elim (hnode hC.group.callA) (hnode hC.group.callC)

theorem Contracts.not_key (hx : h.length ≤ x) : m.get x = none := by
  cases hrep : m.get x with
  | none => rfl
  | some v =>
    have := hC.lt (hC.key hrep).1
    omega

theorem Contracts.closed : Closed m.get h' (Visible h hf h' m.get b a c fc) := by
  refine ⟨fun x n y hx hrep hn hy => (hC.region.dep x n y hx rfl hrep hn hy).1, fun x y _ hrep => ?_⟩
  exact ⟨(hC.target_visible hrep).1, hC.key_node hrep⟩

/-- Projections in `main` and in functions are taken from calls. -/
theorem Contracts.item_call {t k : Nat} (hx : Visible h hf h' m.get b a c fc x ∨
      Inside h' (Visible h hf h' m.get b a c fc) x)
    (hget : h'[x]? = some (.tupleGetItem t k)) : IsCall h' t := by
  have hw := hC.rewired.ext.wf
  rcases hx with (⟨hx, -⟩ | rfl | ⟨-, j, hj⟩) | ⟨z, f, args, hz, hcall, hin⟩
  · cases hC.typed hx with
    | item _ t' k' n hget' hi =>
      obtain ⟨rfl, rfl⟩ : t' = t ∧ k' = k := by simpa [hget'] using hget
      exact hi
    | _ => simp_all
  · obtain ⟨f, params, body, hfc, -⟩ := hC.fc_call
    simp [hget] at hfc
  · obtain ⟨rfl, -⟩ : t = fc ∧ k = j := by simpa [hget] using hj
    obtain ⟨f, params, body, hfc, -⟩ := hC.fc_call
    exact ⟨_, _, hfc⟩
  · obtain ⟨qs, bd, ftag, hok⟩ := hC.region.callable z f args hz hcall
    rcases hin with rfl | ⟨qs', bd', ftag', hnode, hp | hr⟩
    · simp [hok.node] at hget
    · obtain ⟨rfl, -, -⟩ : qs' = qs ∧ bd' = bd ∧ ftag' = ftag := by simpa [hnode] using hok.node
      obtain ⟨name, hv⟩ := hok.vars x hp
      simp [hget] at hv
    · obtain ⟨-, rfl, -⟩ : qs' = qs ∧ bd' = bd ∧ ftag' = ftag := by simpa [hnode] using hok.node
      cases hr.typed hok.body with
      | item _ t' k' n hget' hi =>
        obtain ⟨rfl, rfl⟩ : t' = t ∧ k' = k := by simpa [hget'] using hget
        exact hi
      | _ => simp_all

theorem Contracts.fresher : Fresher m.get h' (fun _ => none)
    (fun x => Visible h hf h' m.get b a c fc x ∨ Inside h' (Visible h hf h' m.get b a c fc) x)
    (fun x => (Visible h hf h' m.get b a c fc x ∨
      Inside h' (Visible h hf h' m.get b a c fc) x) ∧ ¬ IsVar h' x) := by
  have hvis := hC.region.visitable hC.rewired.ext.wf
  refine ⟨fun _ _ => rfl, fun _ hx => hx.1, fun _ hx => hx.2, ?_, ?_⟩
  · intro x y _ hrep
    refine ⟨Or.inl (hC.target_visible hrep).1, ?_⟩
    rcases hC.rewired.target x y (ReplaceMap.mem_of_get hrep) with rfl | ⟨-, j, hj⟩
    · obtain ⟨f, params, body, hfc, -⟩ := hC.fc_call
      exact not_isVar hfc (by simp)
    · exact not_isVar hj (by simp)
  · intro x t k hx hrep hget
    obtain ⟨n, hn, hsub⟩ := hvis.node x hx.1 rfl
    obtain rfl := Option.some.inj (hget.symm.trans hn)
    refine ⟨(hsub t (by simp [visited, hrep])).1, ?_⟩
    obtain ⟨callee, args, hc⟩ := hC.item_call hx.1 hget
    exact not_isVar hc (by simp)

/-- No visible expression lies inside a function that a visible call applies. -/
theorem Contracts.visible_apart (hx : Visible h hf h' m.get b a c fc x) :
    ¬ Inside h' (Visible h hf h' m.get b a c fc) x := by
  intro hin
  have hlef := hC.fused.ext.ext.length_le
  have hnew := hC.fused.new
  rcases hC.inside_cases hin with ⟨hold, hlt⟩ | ⟨hle, hltf, hne⟩
  · rcases hx with ⟨hr, -⟩ | rfl | ⟨hle, -⟩
    · exact hC.group.main.apart x (Or.inr hr) hold
    · omega
    · omega
  · rcases hx with ⟨hr, -⟩ | rfl | ⟨hle', -⟩
    · have := hC.lt hr
      omega
    · exact hne rfl
    · omega

/-- What the rewriting makes of the visible expressions. -/
theorem Contracts.image {V : Type} {I : Interp V} {σ : Env V} {s : Mutation} {r : Nat}
    (hs : Rebuild m.get h' (fun _ => none) s) (hσ : Binds h ps σ)
    (hx : Visible h hf h' m.get b a c fc x) (ht : Typed h' (Callable h') (IsCall h') ps x)
    (hr : s.memo x = some r) :
    Image I h' s (Callable s.heap) (IsCall s.heap) ps σ σ x r := by
  have hreg := hC.region
  have hw := hC.rewired.ext.wf
  have hm := hC.group.main
  have hσ' := hσ.ext hC.ext
  refine hreg.image hw hs (fun _ hx => hx)
    (fun x n y hx hm hrep hn hy => (hreg.dep x n y hx hm hrep hn hy).1) ?_
    (fun _ _ _ hno => by simp at hno) ?_ ?_ hσ'.vars (hσ'.vars.ext hs.ext) hx ht hr
  · intro x y hx hmem hnv hrep
    have hkv := ReplaceMap.mem_of_get hrep
    obtain ⟨hkr, -⟩ := hC.key hrep
    refine ⟨(hreg.key x y hx hmem hnv hrep).1, hC.rewired.typed x y hkv, ?_, ?_⟩
    · rw [hC.rewired.type x y hkv, typeOf_ext hm.wf hC.ext (hC.lt hkr)]
    · rw [hC.rewired.value x y hkv V I σ hσ, value_ext hm.wf hC.ext (hC.lt hkr)]
  · intro x name _ _ hget hp
    have hrep : m.get x = none := by
      cases hrep : m.get x with
      | none => rfl
      | some v =>
        have hno {t : Nat} (ht : IsCall h t) (hu : GroupUse h t x) : False := by
          obtain ⟨callee, args, hc⟩ := ht
          rcases hu with rfl | ⟨k, hk⟩
          · simp [get_ext hC.ext hc] at hget
          · simp [get_ext hC.ext hk] at hget
        exact ((hC.key hrep).2.elim (hno hC.group.callA) (hno hC.group.callC)).elim
    rw [hrep, Option.getD_none]
    exact ⟨typeOf_ext hw hs.ext (lt_of_get hget), .var x name (get_ext hs.ext hget) hp,
      value_ext hw hs.ext (lt_of_get hget) σ⟩
  · intro x t k t' hx _ hrep hget hcall ht'
    cases hrept : m.get t with
    | none => exact isCall_image hs hrept rfl hcall ht'
    | some v =>
      -- a call of tuple type is replaced by the fused call itself
      have hkv := ReplaceMap.mem_of_get hrept
      obtain ⟨htr, -⟩ := hC.key hrept
      have hvfc : v = fc := by
        rcases hC.rewired.target t v hkv with hv | ⟨-, j, hj⟩
        · exact hv
        · have hxr : Reach h b x := by
            rcases hx with ⟨hx, -⟩ | rfl | ⟨-, i, hi⟩
            · exact hx
            · obtain ⟨f, params, body, hfc, -⟩ := hC.fc_call
              simp [hget] at hfc
            · obtain ⟨rfl, -⟩ : t = fc ∧ k = i := by simpa [hget] using hi
              have := hC.lt htr
              have := hC.fused.new
              omega
          rw [hC.get hxr] at hget
          cases hm.typed hxr with
          | item _ t₀ k₀ n hget₀ _ _ hty =>
            obtain ⟨rfl, rfl⟩ : t₀ = t ∧ k₀ = k := by simpa [hget₀] using hget
            have := hC.rewired.type t₀ v hkv
            rw [typeOf_item hj, hty] at this
            simp at this
          | _ => simp_all
      subst hvfc
      obtain ⟨callee, args, hc⟩ := hcall
      have hreb := hs.rebuilt ht' rfl hc
      simp only [Rebuilt, hrept] at hreb
      obtain ⟨f, params, body, hfc, -⟩ := hC.fc_call
      exact isCall_image hs (hC.not_key hC.fused.new) rfl ⟨_, _, hfc⟩ hreb

variable {s : Mutation} {b' : Nat}

theorem Contracts.new_main (hr : Rewritten h' m s b b') : Main s.heap ps b' := by
  have hs := hr.rebuild
  have hg := hC.group
  have hm := hg.main
  have hw := hC.rewired.ext.wf
  have hvis := hC.region.visitable hw
  have hbvis : Visible h hf h' m.get b a c fc b := Or.inl ⟨ReflTransGen.refl, hC.body_visible⟩
  have hb := hr.body
  have himage := hC.image (I := unitInterp) hs (binds_unitEnv hm.vars) hbvis
    (hC.typed ReflTransGen.refl) hb
  have htype : typeOf s.heap b' = typeOf h b :=
    himage.type.trans (typeOf_ext hm.wf hC.ext hm.body.lt)
  have horigin {x : Nat} (hx : Reach s.heap b' x) : ∃ z, Visible h hf h' m.get b a c fc z ∧
      m.get z = none ∧ s.memo z = some x :=
    reach_origin hs hvis (fun z hz => ⟨Or.inl hz, rfl⟩) hC.closed hbvis hb hx
  have hinside {x : Nat} (hx : Inside s.heap (Reach s.heap b') x) : ∃ w,
      Inside h' (Visible h hf h' m.get b a c fc) w ∧ s.memo w = some x := by
    obtain ⟨z', f', args', hz', hcall', hin⟩ := hx
    obtain ⟨z, hz, hrep, hzz'⟩ := horigin hz'
    obtain ⟨n, hn, -⟩ := hC.region.node z hz
    obtain ⟨callee, args, hcall, hcallee, -⟩ := call_origin hs hn rfl hrep hzz' hcall'
    cases callee with
    | op name outputs => simp [SameCallee] at hcallee
    | func f =>
      obtain ⟨f'', hf, heq⟩ := hcallee
      obtain rfl := Callee.func.inj heq
      obtain ⟨w, hw, hwx⟩ := hC.region.inFunc_origin hw hs hz hcall hf hin
      exact ⟨w, ⟨z, f, args, hz, hcall, hw⟩, hwx⟩
  refine ⟨hs.wf, hm.nodup, fun p hp => (hm.vars p hp).ext (hC.ext.trans hs.ext), himage.typed, ?_, ?_⟩
  · rw [htype]
    refine hm.result.imp id fun ⟨fields, hget⟩ => ?_
    obtain ⟨fields', hget', -⟩ := hs.rebuilt hb rfl (get_ext hC.ext hget)
    exact ⟨fields', hget'⟩
  · intro x hx hin
    obtain ⟨w, hwin, hwx⟩ := hinside hin
    have hrepw := (hC.region.inside w hwin).1
    rcases hx with hp | hx
    · obtain ⟨name, hv⟩ := hm.vars x hp
      have hxlt := lt_of_get hv
      by_cases hvw : IsVar h' w
      · obtain rfl := var_image hs hvw hrepw rfl hwx
        rcases hC.inside_cases hwin with ⟨hold, -⟩ | ⟨hle, -, -⟩
        · exact hm.apart x (Or.inl hp) hold
        · omega
      · have := (image_new hs hvis hC.fresher ⟨Or.inr hwin, hvw⟩ hwx).1
        have := hC.ext.length_le
        omega
    · obtain ⟨z, hz, hrep, hzx⟩ := horigin hx
      obtain rfl : z = w := by
        refine image_inj hs hvis hC.fresher (Or.inl hz) (Or.inr hwin) ?_ ?_ hrep hrepw hzx hwx
        · by_cases hvz : IsVar h' z
          · exact Or.inl hvz
          · exact Or.inr ⟨Or.inl hz, hvz⟩
        · by_cases hvw : IsVar h' w
          · exact Or.inl hvw
          · exact Or.inr ⟨Or.inr hwin, hvw⟩
      exact hC.visible_apart hz hwin

/-- The rewritten `main` uses the fused call. -/
def FusedReached (s : Mutation) (fc b' : Nat) : Prop :=
  ∃ r, s.memo fc = some r ∧ Reach s.heap b' r

/-- A replaced expression that is reached leads to the fused call. -/
theorem Contracts.key_reaches {v x' : Nat} (hr : Rewritten h' m s b b') (hrep : m.get x = some v)
    (hx : s.memo x = some x') (hreach : Reach s.heap b' x') : FusedReached s fc b' := by
  have hv := key_image hr.rebuild rfl hrep hx (hC.key_node hrep)
  rcases hC.rewired.target x v (ReplaceMap.mem_of_get hrep) with rfl | ⟨hle, j, hj⟩
  · exact ⟨x', hv, hreach⟩
  · have := hC.fused.ext.ext.length_le
    obtain ⟨r, hfc, hr'⟩ := dep_image hr.rebuild rfl (hC.not_key (by omega)) hv hj
      (y := fc) (by simp [Node.deps])
    exact ⟨r, hfc, hreach.trans hr'⟩

theorem Contracts.use_reaches {x' : Nat} (hr : Rewritten h' m s b b')
    (hvis : ¬ Hidden h m.get a c x) (hu : GroupUse h a x ∨ GroupUse h c x)
    (hx : s.memo x = some x') (hreach : Reach s.heap b' x') : FusedReached s fc b' := by
  cases hrep : m.get x with
  | some v => exact hC.key_reaches hr hrep hx hreach
  | none =>
    obtain ⟨t, k, hget, ht⟩ : ∃ t k, h[x]? = some (.tupleGetItem t k) ∧ (t = a ∨ t = c) := by
      rcases hu with (rfl | ⟨k, hk⟩) | (rfl | ⟨k, hk⟩)
      · exact absurd ⟨hrep, Or.inl rfl⟩ hvis
      · exact ⟨a, k, hk, Or.inl rfl⟩
      · exact absurd ⟨hrep, Or.inr (Or.inl rfl)⟩ hvis
      · exact ⟨c, k, hk, Or.inr rfl⟩
    cases hrept : m.get t with
    | none => exact absurd ⟨hrep, Or.inr (Or.inr ⟨t, k, hget, ht, hrept⟩)⟩ hvis
    | some v =>
      obtain ⟨t', ht', hr'⟩ := dep_image hr.rebuild rfl hrep hx (get_ext hC.ext hget) (y := t)
        (by simp [Node.deps])
      exact hC.key_reaches hr hrept ht' (hreach.trans hr')

/-- Every expression of `main` outside the group is still used, and so is the fused call if a result
of the group was. -/
theorem Contracts.still_reached (hr : Rewritten h' m s b b') (hx : Reach h b x) :
    (GroupUse h a x ∨ GroupUse h c x → FusedReached s fc b') ∧
      (¬ (GroupUse h a x ∨ GroupUse h c x) → ∃ x', s.memo x = some x' ∧ Reach s.heap b' x') := by
  have hg := hC.group
  have hs := hr.rebuild
  induction hx with
  | refl =>
    refine ⟨fun hu => ?_, fun _ => ⟨b', hr.body, ReflTransGen.refl⟩⟩
    exact hC.use_reaches hr hC.body_visible hu hr.body ReflTransGen.refl
  | @tail x y hbx hd ih =>
    obtain ⟨n, hn, hy⟩ := hd
    by_cases hux : GroupUse h a x ∨ GroupUse h c x
    · have hfused := ih.1 hux
      -- below the group: its members again, or an argument of the fused call
      have hcases : (GroupUse h a y ∨ GroupUse h c y) ∨ y ∈ A := by
        have hcall {t : Nat} (ht : IsCall h t) (hxt : x = t) : y ∈ GroupOp.callArgs h t := by
          obtain ⟨callee, args, hget⟩ := ht
          subst hxt
          obtain rfl := Option.some.inj (hget.symm.trans hn)
          rw [callArgs_call hget]
          exact hy
        have hitem {t k : Nat} (hk : h[x]? = some (.tupleGetItem t k)) : y = t := by
          obtain rfl := Option.some.inj (hk.symm.trans hn)
          simpa [Node.deps] using hy
        rcases hux with (hxa | ⟨k, hk⟩) | (hxc | ⟨k, hk⟩)
        · exact Or.inr (hg.argsA y (hcall hg.callA hxa))
        · exact Or.inl (Or.inl (Or.inl (hitem hk)))
        · rcases hg.argsC y (hcall hg.callC hxc) with hA | heq | hk
          · exact Or.inr hA
          · exact Or.inl (Or.inl (Or.inl heq))
          · exact Or.inl (Or.inl (Or.inr hk))
        · exact Or.inl (Or.inr (Or.inl (hitem hk)))
      refine ⟨fun _ => hfused, fun huy => ?_⟩
      obtain ⟨r, hfc, hrr⟩ := hfused
      obtain ⟨f, params, body, hcall, -⟩ := hC.fc_call
      obtain ⟨y', hy', hry⟩ := dep_image hs rfl (hC.not_key hC.fused.new) hfc hcall (y := y)
        (hcases.resolve_left huy)
      exact ⟨y', hy', hrr.trans hry⟩
    · obtain ⟨x', hx', hrx⟩ := ih.2 hux
      have hrep : m.get x = none := by
        cases hrep : m.get x with
        | none => rfl
        | some v => exact absurd (hC.key hrep).2 hux
      have hvis : ¬ Hidden h m.get a c x := by
        rintro ⟨-, rfl | rfl | ⟨t, k, hget, rfl | rfl, -⟩⟩
        · exact hux (Or.inl (Or.inl rfl))
        · exact hux (Or.inr (Or.inl rfl))
        · exact hux (Or.inl (Or.inr ⟨k, hget⟩))
        · exact hux (Or.inr (Or.inr ⟨k, hget⟩))
      obtain ⟨y', hy', hry⟩ := dep_image hs rfl hrep hx' (get_ext hC.ext hn) hy
      refine ⟨fun huy => ?_, fun _ => ⟨y', hy', hrx.trans hry⟩⟩
      exact hC.use_reaches hr (hC.visible_dep hbx hvis hrep hn hy) huy hy' (hrx.trans hry)

/-- The calls of the rewritten `main`: the fused call and the calls outside the group. -/
theorem Contracts.topCall_iff {x' : Nat} (hr : Rewritten h' m s b b') :
    TopCall s.heap b' x' ↔
      ∃ z, s.memo z = some x' ∧ ((TopCall h b z ∧ z ≠ a ∧ z ≠ c) ∨ z = fc) := by
  have hs := hr.rebuild
  have hvis := hC.region.visitable hC.rewired.ext.wf
  have hbvis : Visible h hf h' m.get b a c fc b := Or.inl ⟨ReflTransGen.refl, hC.body_visible⟩
  constructor
  · rintro ⟨⟨callee', args', hcall'⟩, hreach⟩
    obtain ⟨z, hz, hrep, hzx⟩ :=
      reach_origin hs hvis (fun z hz => ⟨Or.inl hz, rfl⟩) hC.closed hbvis hr.body hreach
    obtain ⟨n, hn, -⟩ := hC.region.node z hz
    obtain ⟨callee, args, hcall, -, -⟩ := call_origin hs hn rfl hrep hzx hcall'
    refine ⟨z, hzx, ?_⟩
    rcases hz with ⟨hbz, hhid⟩ | rfl | ⟨-, j, hj⟩
    · rw [hC.get hbz] at hcall
      refine Or.inl ⟨⟨⟨callee, args, hcall⟩, hbz⟩, ?_, ?_⟩
      · rintro rfl
        exact hhid ⟨hrep, Or.inl rfl⟩
      · rintro rfl
        exact hhid ⟨hrep, Or.inr (Or.inl rfl)⟩
    · exact Or.inr rfl
    · simp [hcall] at hj
  · rintro ⟨z, hzx, ⟨⟨hcz, hbz⟩, hza, hzc⟩ | rfl⟩
    · have hnu : ¬ (GroupUse h a z ∨ GroupUse h c z) := by
        obtain ⟨callee, args, hget⟩ := hcz
        rintro ((rfl | ⟨k, hk⟩) | (rfl | ⟨k, hk⟩))
        · exact hza rfl
        · simp [hget] at hk
        · exact hzc rfl
        · simp [hget] at hk
      have hrep : m.get z = none := by
        cases hrep : m.get z with
        | none => rfl
        | some v => exact absurd (hC.key hrep).2 hnu
      obtain ⟨z', hz', hreach⟩ := (hC.still_reached hr hbz).2 hnu
      obtain rfl := Option.some.inj (hz'.symm.trans hzx)
      exact ⟨isCall_image hs hrep rfl (hcz.ext hC.ext) hzx, hreach⟩
    · obtain ⟨r, hfc, hreach⟩ :=
        (hC.still_reached hr hC.group.reachC).1 (Or.inr (Or.inl rfl))
      obtain rfl := Option.some.inj (hfc.symm.trans hzx)
      obtain ⟨f, params, body, hcall, -⟩ := hC.fc_call
      exact ⟨isCall_image hs (hC.not_key hC.fused.new) rfl ⟨_, _, hcall⟩ hzx, hreach⟩

/-- The rewritten `main` computes the same results. -/
theorem Contracts.new_value {V : Type} {I : Interp V} {σ : Env V} (hr : Rewritten h' m s b b')
    (hσ : Binds h ps σ) : value I s.heap σ b' = value I h σ b := by
  have hm := hC.group.main
  have himage := hC.image (I := I) hr.rebuild hσ (Or.inl ⟨ReflTransGen.refl, hC.body_visible⟩)
    (hC.typed ReflTransGen.refl) hr.body
  rw [himage.value, value_ext hm.wf hC.ext hm.body.lt]

end Contracts

end StencilGraph.Relay

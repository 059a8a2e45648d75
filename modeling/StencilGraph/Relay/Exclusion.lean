import StencilGraph.Relay.CallList

namespace StencilGraph.Relay
open Framework Relation

variable {h : Heap} {ps L : List Nat} {b x y : Nat}

namespace NodeAutoFusion

/-- `find_father` and `find_child` collect everything on paths that end. -/
theorem mem_findAll {next : Nat → List Nat} {D : Nat → Prop} {R : Nat → Nat → Prop} {μ : Nat → Nat}
    (hnext : ∀ x, D x → ∀ y, y ∈ next x ↔ R x y) (hlt : ∀ x y, D x → R x y → D y ∧ μ y < μ x)
    (fuel x : Nat) (hx : D x) (hfuel : μ x < fuel) (y : Nat) :
    y ∈ findAll next fuel x ↔ TransGen R x y := by
  induction fuel generalizing x with
  | zero => omega
  | succ fuel ih =>
    rw [findAll, List.mem_append, List.mem_flatMap, hnext x hx y, TransGen.head'_iff]
    constructor
    · rintro (hxy | ⟨z, hz, hzy⟩)
      · exact ⟨y, hxy, ReflTransGen.refl⟩
      · have hxz := (hnext x hx z).mp hz
        obtain ⟨hDz, hμ⟩ := hlt x z hx hxz
        exact ⟨z, hxz, ((ih z hDz (by omega)).mp hzy).to_reflTransGen⟩
    · rintro ⟨z, hxz, hzy⟩
      rcases reflTransGen_iff_eq_or_transGen.mp hzy with rfl | hzy
      · exact Or.inl hxz
      · obtain ⟨hDz, hμ⟩ := hlt x z hx hxz
        exact Or.inr ⟨z, (hnext x hx z).mpr hxz, (ih z hDz (by omega)).mpr hzy⟩

theorem mem_outputs (hm : Main h ps b) (hL : ∀ x, x ∈ L ↔ TopCall h b x) :
    y ∈ outputs h L x ↔ Dep h b x y := by
  unfold outputs
  rw [List.mem_filter, hL]
  simp only [decide_eq_true_eq]
  exact ⟨fun ⟨h1, h2⟩ => (mem_inputs_iff hm h1).mp h2,
    fun hd => ⟨hd.2.1, (mem_inputs_iff hm hd.2.1).mpr hd⟩⟩

theorem mem_fathers (hm : Main h ps b) (hx : TopCall h b x) :
    y ∈ findAll (inputs h) h.length x ↔ TransGen (Dep h b) y x := by
  rw [mem_findAll (D := TopCall h b) (R := Function.swap (Dep h b)) (μ := id)
    (fun x hx y => mem_inputs_iff hm hx) (fun x y hx hxy => ⟨hxy.1, hxy.lt hm⟩) _ x hx
    (hm.typed hx.2).lt, transGen_swap]

theorem mem_children (hm : Main h ps b) (hL : ∀ x, x ∈ L ↔ TopCall h b x) (hx : TopCall h b x) :
    y ∈ findAll (outputs h L) h.length x ↔ TransGen (Dep h b) x y := by
  have hlt {x : Nat} (hx : TopCall h b x) : x < h.length := (hm.typed hx.2).lt
  refine mem_findAll (D := TopCall h b) (μ := fun x => h.length - 1 - x)
    (fun x _ y => mem_outputs hm hL) (fun x y hx hxy => ⟨hxy.2.1, ?_⟩) _ x hx ?_ y
  · have := hxy.lt hm
    have := hlt hxy.2.1
    omega
  · have := hlt hx
    omega

/-- `analysis_exclusion` succeeds and holds exactly the pairs with a call between them. -/
theorem analysisExclusion_spec (hm : Main h ps b) (hL : ∀ x, x ∈ L ↔ TopCall h b x) :
    ∃ exclusion, analysisExclusion h L = some exclusion ∧ ∀ p q, (p, q) ∈ exclusion ↔
      (p = q ∧ TopCall h b p) ∨ Between (Dep h b) p q ∨ Between (Dep h b) q p := by
  have hkeys : ∀ c ∈ L, ∀ d ∈ inputs h c, d ∈ L := by
    intro c hc d hd
    exact (hL d).mpr ((mem_inputs_iff hm ((hL c).mp hc)).mp hd).1
  unfold analysisExclusion buildDepence
  rw [if_pos hkeys]
  refine ⟨_, rfl, fun p q => ?_⟩
  simp only [List.mem_flatMap, List.mem_cons, List.not_mem_nil, or_false, Prod.mk.injEq]
  have hbetween {u v : Nat} : Between (Dep h b) u v ↔ ∃ k ∈ L, u ∈ findAll (inputs h) h.length k ∧
      v ∈ findAll (outputs h L) h.length k := by
    constructor
    · rintro ⟨k, huk, hkv⟩
      have hk : TopCall h b k := by
        obtain ⟨w, -, hw⟩ := TransGen.tail'_iff.mp huk
        exact hw.2.1
      exact ⟨k, (hL k).mpr hk, (mem_fathers hm hk).mpr huk, (mem_children hm hL hk).mpr hkv⟩
    · rintro ⟨k, hk, huk, hkv⟩
      have hk' := (hL k).mp hk
      exact ⟨k, (mem_fathers hm hk').mp huk, (mem_children hm hL hk').mp hkv⟩
  rw [hbetween, hbetween]
  constructor
  · rintro ⟨k, hk, ⟨rfl, rfl⟩ | ⟨u, hu, v, hv, ⟨rfl, rfl⟩ | ⟨rfl, rfl⟩⟩⟩
    · exact Or.inl ⟨rfl, (hL _).mp hk⟩
    · exact Or.inr (Or.inl ⟨k, hk, hu, hv⟩)
    · exact Or.inr (Or.inr ⟨k, hk, hu, hv⟩)
  · rintro (⟨rfl, hp⟩ | ⟨k, hk, hu, hv⟩ | ⟨k, hk, hu, hv⟩)
    · exact ⟨p, (hL p).mpr hp, Or.inl ⟨rfl, rfl⟩⟩
    · exact ⟨k, hk, Or.inr ⟨p, hu, q, hv, Or.inl ⟨rfl, rfl⟩⟩⟩
    · exact ⟨k, hk, Or.inr ⟨q, hu, p, hv, Or.inr ⟨rfl, rfl⟩⟩⟩

end NodeAutoFusion

end StencilGraph.Relay

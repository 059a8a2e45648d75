import StencilGraph.Framework.MemoVisit
import StencilGraph.Plan.Leaves

namespace StencilGraph.Plan
open Framework

variable {τ : Type} (p : Program τ)

/-- The expression whose tokens `GetToken` looks up. -/
abbrev Program.real (e : Nat) : Nat := ignoreOnDevice p.toFunc e

/-- An expression whose visit creates tokens. -/
def Created (e : Nat) : Prop :=
  p.node e = .constant ∨ (∃ args, p.node e = .call args) ∨ ∃ b, p.node e = .onDevice b false

/-- An expression with tokens of its own. -/
def Source (e : Nat) : Prop := Created p e ∨ (p.node e = .var ∧ p.binding e = none)

/-- How the tokens of an expression without tokens of its own come from those of its parts. -/
def Derived (m : Nat → Option (List Nat)) (e : Nat) (l : List Nat) : Prop :=
  match p.node e with
  | .var => ∀ x, p.binding e = some x → m (p.real x) = some l
  | .constant => True
  | .call _ => True
  | .tuple fields => ∃ ls, List.Forall₂ (fun c l => m (p.real c) = some l) fields ls ∧ l = ls.flatten
  | .tupleGetItem t i => ∃ lt token, m (p.real t) = some lt ∧ lt[i]? = some token ∧ l = [token]
  | .letIn _ _ b => m (p.real b) = some l
  | .onDevice _ _ => True

/-- What holds of the maps at every moment of a run. -/
structure Recorded (st : State τ) : Prop where
  derived : ∀ e l, st.tokenMap e = some l → Derived p st.tokenMap e l
  own : ∀ e l, Source p e → st.tokenMap e = some l →
    l.length = width (p.checkedType e) ∧ l.Nodup ∧ ∀ token ∈ l, token < st.arena.length
  disjoint : ∀ e e' l l', Source p e → Source p e' → e ≠ e' → st.tokenMap e = some l →
    st.tokenMap e' = some l' → l.Disjoint l'
  visited : ∀ e ∈ st.visited, (∃ l, st.tokenMap (p.real e) = some l) ∧
    ∀ c ∈ (p.node e).children, c ∈ st.visited
  reach : ∀ e t i l, p.node e = .tupleGetItem t i → st.tokenMap e = some l → Reach p.toFunc e

/-- The token holds the tensor. -/
def Holds (st : State τ) (leaf : Leaf) (token : Nat) : Prop :=
  ∃ l, st.tokenMap leaf.1 = some l ∧ l[leaf.2]? = some token

/-- The recorded tokens hold the tensors of the expression. -/
def HoldsAt (st : State τ) (e : Nat) : Prop :=
  ∀ l, st.tokenMap (p.real e) = some l → List.Forall₂ (Holds st) (p.leaves e) l

/-- The tokens recorded for a projection are those of the field. -/
def SlicedAt (st : State τ) (e : Nat) : Prop :=
  ∀ t i types lt l, p.node e = .tupleGetItem t i → p.checkedType t = .tuple types →
    st.tokenMap (p.real t) = some lt → st.tokenMap e = some l → l = fieldOf types i lt

variable {p} {st : State τ}

theorem real_of_ne {e : Nat} (h : ∀ b isFixed, p.node e ≠ .onDevice b isFixed) : p.real e = e := by
  unfold Program.real ignoreOnDevice
  split
  · rename_i b isFixed hnode
    exact absurd hnode (h b isFixed)
  · rfl

theorem real_onDevice {e b : Nat} {isFixed : Bool} (h : p.node e = .onDevice b isFixed) :
    p.real e = b := by
  unfold Program.real ignoreOnDevice
  rw [h]

theorem real_real (e : Nat) : p.real (p.real e) = p.real e := by
  apply real_of_ne
  intro b isFixed hnode
  cases hnode' : p.node e with
  | onDevice b' isFixed' =>
    rw [real_onDevice hnode'] at hnode
    exact (p.onDevice e b' isFixed' hnode').2 b isFixed hnode
  | _ =>
    rw [real_of_ne (by simp [hnode'])] at hnode
    simp [hnode'] at hnode

theorem holds_own {e : Nat} (hr : Recorded p st) (hs : Source p e) {l : List Nat}
    (hl : st.tokenMap e = some l) : List.Forall₂ (Holds st) (p.own e) l := by
  have hlength := (hr.own e l hs hl).1
  rw [List.forall₂_iff_get]
  refine ⟨(p.length_own e).trans hlength.symm, fun k hk hkl => ⟨l, ?_, ?_⟩⟩
  · simpa [Program.own] using hl
  · simp [Program.own]

/-- The tokens of an expression hold its tensors when those of its parts do. -/
theorem holdsAt_step (hr : Recorded p st) (e : Nat) (ih : ∀ c, c < e → HoldsAt p st c)
    (hsliced : SlicedAt p st e) : HoldsAt p st e := by
  intro l hl
  have hchild (c : Nat) (hc : c ∈ (p.node e).children) : HoldsAt p st c := ih c (p.forward e c hc)
  have hderived := hr.derived _ l hl
  rw [p.leaves_eq]
  cases hnode : p.node e with
  | onDevice b isFixed =>
    apply hchild b (by rw [hnode]; exact List.mem_singleton_self b) l
    have hreal := real_onDevice hnode
    rwa [← hreal, real_real]
  | var =>
    rw [real_of_ne (by simp [hnode])] at hl hderived
    unfold Derived at hderived
    rw [hnode] at hderived
    cases hbound : p.binding e with
    | none => exact holds_own hr (Or.inr ⟨hnode, hbound⟩) hl
    | some x => exact ih x (p.bound e x hbound).1 l (hderived x hbound)
  | constant =>
    rw [real_of_ne (by simp [hnode])] at hl
    exact holds_own hr (Or.inl (Or.inl hnode)) hl
  | call args =>
    rw [real_of_ne (by simp [hnode])] at hl
    exact holds_own hr (Or.inl (Or.inr (Or.inl ⟨args, hnode⟩))) hl
  | tuple fields =>
    rw [real_of_ne (by simp [hnode])] at hderived
    unfold Derived at hderived
    rw [hnode] at hderived hchild
    obtain ⟨ls, hls, rfl⟩ := hderived
    have hall : ∀ c ∈ fields, HoldsAt p st c := hchild
    clear hchild hnode hl ih hsliced
    -- along the fields, one list of tensors and one of tokens for each
    induction hls with
    | nil => exact .nil
    | cons hc _ ihls =>
      exact List.rel_append (hall _ List.mem_cons_self _ hc)
        (ihls fun c hc => hall c (List.mem_cons_of_mem _ hc))
  | tupleGetItem t i =>
    rw [real_of_ne (by simp [hnode])] at hl hderived
    unfold Derived at hderived
    rw [hnode] at hderived
    obtain ⟨lt, token, hlt, -, -⟩ := hderived
    obtain ⟨types, htypes, -⟩ := p.tupleGetItem e t i hnode
    simp only [htypes]
    rw [hsliced t i types lt l hnode htypes hlt hl]
    exact forall₂_fieldOf types i (hchild t (by rw [hnode]; exact List.mem_singleton_self t) lt hlt)
  | letIn v x b =>
    rw [real_of_ne (by simp [hnode])] at hderived
    unfold Derived at hderived
    rw [hnode] at hderived
    exact hchild b (by rw [hnode]; exact List.mem_cons_of_mem _ (List.mem_singleton_self b)) l hderived

theorem holdsAt_of_sliced (hr : Recorded p st) (hsliced : ∀ e, SlicedAt p st e) (e : Nat) :
    HoldsAt p st e := by
  induction e using Nat.strong_induction_on with
  | h e ih => exact holdsAt_step hr e ih (hsliced e)

theorem Holds.unique {leaf : Leaf} {token token' : Nat} (h : Holds st leaf token)
    (h' : Holds st leaf token') : token = token' := by
  obtain ⟨l, hl, htoken⟩ := h
  obtain ⟨l', hl', htoken'⟩ := h'
  obtain rfl := Option.some.inj (hl.symm.trans hl')
  exact Option.some.inj (htoken.symm.trans htoken')

/-- Different tensors are in different tokens. -/
theorem Holds.injective (hr : Recorded p st) {leaf leaf' : Leaf} {token : Nat}
    (hs : Source p leaf.1) (hs' : Source p leaf'.1) (h : Holds st leaf token)
    (h' : Holds st leaf' token) : leaf = leaf' := by
  obtain ⟨l, hl, htoken⟩ := h
  obtain ⟨l', hl', htoken'⟩ := h'
  have hmem := List.mem_of_getElem? htoken
  have hmem' := List.mem_of_getElem? htoken'
  have hfst : leaf.1 = leaf'.1 := by
    by_contra hne
    exact hr.disjoint _ _ l l' hs hs' hne hl hl' hmem hmem'
  rw [← hfst] at hl'
  obtain rfl := Option.some.inj (hl.symm.trans hl')
  apply Prod.ext hfst
  obtain ⟨hlt, hget⟩ := List.getElem?_eq_some_iff.mp htoken
  obtain ⟨hlt', hget'⟩ := List.getElem?_eq_some_iff.mp htoken'
  exact (List.Nodup.getElem_inj_iff (hr.own _ l hs hl).2.1).mp (hget.trans hget'.symm)

variable (p) in
theorem leaves_source (e : Nat) : ∀ leaf ∈ p.leaves e, Source p leaf.1 := by
  have hown (e : Nat) (hs : Source p e) : ∀ leaf ∈ p.own e, Source p leaf.1 := by
    intro leaf hleaf
    obtain ⟨k, -, rfl⟩ := List.mem_map.mp hleaf
    exact hs
  induction e using Nat.strong_induction_on with
  | h e ih =>
    have hchild (c : Nat) (hc : c ∈ (p.node e).children) := ih c (p.forward e c hc)
    rw [p.leaves_eq]
    cases hnode : p.node e with
    | var =>
      cases hbound : p.binding e with
      | none => exact hown e (Or.inr ⟨hnode, hbound⟩)
      | some x => exact ih x (p.bound e x hbound).1
    | constant => exact hown e (Or.inl (Or.inl hnode))
    | call args => exact hown e (Or.inl (Or.inr (Or.inl ⟨args, hnode⟩)))
    | tuple fields =>
      intro leaf hleaf
      obtain ⟨c, hc, hleaf⟩ := List.mem_flatMap.mp hleaf
      exact hchild c (by rw [hnode]; exact hc) leaf hleaf
    | tupleGetItem t i =>
      obtain ⟨types, htypes, htype⟩ := p.tupleGetItem e t i hnode
      simp only [htypes]
      intro leaf hleaf
      apply hchild t (by rw [hnode]; exact List.mem_singleton_self t) leaf
      unfold fieldOf at hleaf
      rw [htype] at hleaf
      exact List.drop_subset _ _ (List.take_subset _ _ hleaf)
    | letIn v x b =>
      exact hchild b (by rw [hnode]; exact List.mem_cons_of_mem _ (List.mem_singleton_self b))
    | onDevice b isFixed => exact hchild b (by rw [hnode]; exact List.mem_singleton_self b)

theorem forall₂_getElem? {α β : Type} {R : α → β → Prop} {xs : List α} {ys : List β}
    (h : List.Forall₂ R xs ys) (i : Nat) :
    (xs[i]? = none ∧ ys[i]? = none) ∨ ∃ x y, xs[i]? = some x ∧ ys[i]? = some y ∧ R x y := by
  induction h generalizing i with
  | nil => exact Or.inl ⟨rfl, rfl⟩
  | cons hxy _ ih =>
    cases i with
    | zero => exact Or.inr ⟨_, _, rfl, rfl, hxy⟩
    | succ i => exact ih i

/-- A plain projection takes the tokens of the field. -/
theorem slicedAt_of_plain (hr : Recorded p st) {e : Nat}
    (hplain : ∀ t i, p.node e = .tupleGetItem t i → HoldsAt p st t ∧ p.Plain e t i) :
    SlicedAt p st e := by
  intro t i types lt l hnode htypes hlt hl
  obtain ⟨hholds, leaf, hleaf, hfield⟩ := hplain t i hnode
  have hderived := hr.derived e l hl
  unfold Derived at hderived
  rw [hnode] at hderived
  obtain ⟨lt', token, hlt', htoken, rfl⟩ := hderived
  obtain rfl := Option.some.inj (hlt.symm.trans hlt')
  have hall := hholds lt hlt
  have hslice := forall₂_fieldOf types i hall
  rw [← p.leaves_tupleGetItem hnode htypes, hfield] at hslice
  cases hr : fieldOf types i lt with
  | nil => simp [hr] at hslice
  | cons token' rest =>
    rw [hr] at hslice
    cases hslice with
    | cons htoken' hrest =>
      cases hrest
      cases forall₂_getElem? hall i with
      | inl h => simp [htoken] at h
      | inr h =>
        obtain ⟨x, y, hx, hy, hxy⟩ := h
        obtain rfl := Option.some.inj (hleaf.symm.trans hx)
        obtain rfl := Option.some.inj (htoken.symm.trans hy)
        rw [hxy.unique htoken']

/-- A projection that takes the tokens of the field is plain. -/
theorem plain_of_slicedAt (hr : Recorded p st) {e t i : Nat} {l : List Nat}
    (hnode : p.node e = .tupleGetItem t i) (hl : st.tokenMap e = some l) (ht : HoldsAt p st t)
    (hsliced : SlicedAt p st e) : p.Plain e t i := by
  obtain ⟨types, htypes, -⟩ := p.tupleGetItem e t i hnode
  have hderived := hr.derived e l hl
  unfold Derived at hderived
  rw [hnode] at hderived
  obtain ⟨lt, token, hlt, htoken, rfl⟩ := hderived
  have hall := ht lt hlt
  have hslice := forall₂_fieldOf types i hall
  rw [← p.leaves_tupleGetItem hnode htypes, ← hsliced t i types lt _ hnode htypes hlt hl] at hslice
  cases forall₂_getElem? hall i with
  | inl h => simp [htoken] at h
  | inr h =>
    obtain ⟨leaf, y, hleaf, hy, hholds⟩ := h
    obtain rfl := Option.some.inj (htoken.symm.trans hy)
    cases hfield : p.leaves e with
    | nil => simp [hfield] at hslice
    | cons leaf' rest =>
      have hmem' : leaf' ∈ p.leaves e := by
        rw [hfield]
        exact List.mem_cons_self
      rw [hfield] at hslice
      cases hslice with
      | cons hholds' hrest =>
        cases hrest
        have hs := leaves_source p t leaf (List.mem_of_getElem? hleaf)
        have hs' := leaves_source p e leaf' hmem'
        have heq := Holds.injective hr hs' hs hholds' hholds
        exact ⟨leaf, hleaf, by rw [hfield, heq]⟩

end StencilGraph.Plan

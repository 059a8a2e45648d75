import Mathlib
import StencilGraph.Plan.StorageAlloca

namespace StencilGraph.Plan

variable {τ α : Type}

/-- The number of tensors of a type. -/
def width (type : Ty τ) : Nat := (flattenTupleType type).length

/-- The number of tensors before a field of a tuple. -/
def offset (types : List (Ty τ)) (i : Nat) : Nat := ((types.take i).map width).sum

/-- The part of a flattened tuple that belongs to a field. -/
def fieldOf (types : List (Ty τ)) (i : Nat) (xs : List α) : List α :=
  match types[i]? with
  | none => []
  | some type => (xs.drop (offset types i)).take (width type)

theorem width_tuple (types : List (Ty τ)) : width (.tuple types) = (types.map width).sum := by
  show (flattenFields types).length = _
  induction types with
  | nil => rfl
  | cons type types ih =>
    rw [flattenFields, List.length_append, ih, List.map_cons, List.sum_cons]
    rfl

theorem offset_add_le (types : List (Ty τ)) (i : Nat) (type : Ty τ) (hi : types[i]? = some type) :
    offset types i + width type ≤ (types.map width).sum := by
  obtain ⟨hlt, rfl⟩ := List.getElem?_eq_some_iff.mp hi
  have hsplit : types = types.take i ++ types[i] :: types.drop (i + 1) := by
    rw [List.getElem_cons_drop, List.take_append_drop]
  have hsum := congrArg (fun l => (List.map width l).sum) hsplit
  simp only [List.map_append, List.map_cons, List.sum_append, List.sum_cons] at hsum
  unfold offset
  omega

theorem length_fieldOf (types : List (Ty τ)) (i : Nat) (type : Ty τ) (xs : List α)
    (hi : types[i]? = some type) (hxs : xs.length = (types.map width).sum) :
    (fieldOf types i xs).length = width type := by
  have hle := offset_add_le types i type hi
  unfold fieldOf
  rw [hi]
  show ((xs.drop (offset types i)).take (width type)).length = _
  rw [List.length_take, List.length_drop, hxs]
  omega

theorem forall₂_fieldOf {β : Type} {R : α → β → Prop} (types : List (Ty τ)) (i : Nat) {xs : List α}
    {ys : List β} (h : List.Forall₂ R xs ys) :
    List.Forall₂ R (fieldOf types i xs) (fieldOf types i ys) := by
  unfold fieldOf
  cases types[i]? with
  | none => exact .nil
  | some type => exact List.forall₂_take _ (List.forall₂_drop _ h)

theorem offset_single (types : List (Ty τ)) (i : Nat) (hi : i ≤ types.length)
    (hsingle : ∀ type ∈ types.take i, width type = 1) : offset types i = i := by
  have hones : (types.take i).map width = List.replicate i 1 := by
    apply List.eq_replicate_iff.mpr
    constructor
    · rw [List.length_map, List.length_take]
      omega
    · intro n hn
      obtain ⟨type, hmem, rfl⟩ := List.mem_map.mp hn
      exact hsingle type hmem
  unfold offset
  rw [hones]
  simp

/-- A field of one tensor after fields of one tensor each is the element at its index. -/
theorem fieldOf_single (types : List (Ty τ)) (i : Nat) (type : Ty τ) (xs : List α)
    (hi : types[i]? = some type) (hsingle : ∀ type ∈ types.take i, width type = 1)
    (hwidth : width type = 1) (x : α) (hx : xs[i]? = some x) : fieldOf types i xs = [x] := by
  obtain ⟨hlt, -⟩ := List.getElem?_eq_some_iff.mp hi
  obtain ⟨hxlt, hxget⟩ := List.getElem?_eq_some_iff.mp hx
  unfold fieldOf
  rw [hi]
  show (xs.drop (offset types i)).take (width type) = [x]
  rw [offset_single types i (Nat.le_of_lt hlt) hsingle, hwidth, List.drop_eq_getElem_cons hxlt, hxget]
  rfl

/-- A tensor of the program: a component of the result of a call, of a parameter or of a constant. -/
abbrev Leaf := Nat × Nat

namespace Program

variable (p : Program τ)

/-- The tensors that an expression creates itself. -/
def own (e : Nat) : List Leaf := (List.range (width (p.checkedType e))).map fun k => (e, k)

/-- The tensors that the value of an expression consists of. -/
def leaves (e : Nat) : List Leaf :=
  match hnode : p.node e with
  | .var =>
    match hbound : p.binding e with
    | none => p.own e
    | some value => leaves value
  | .constant => p.own e
  | .call _ => p.own e
  | .tuple fields => fields.attach.flatMap fun field => leaves field.1
  | .tupleGetItem tuple index =>
    match p.checkedType tuple with
    | .tensor _ => []
    | .tuple types => fieldOf types index (leaves tuple)
  | .letIn _ _ body => leaves body
  | .onDevice body _ => leaves body
termination_by e
decreasing_by
  · exact (p.bound e value hbound).1
  · exact p.forward e field.1 (by rw [hnode]; exact field.2)
  · exact p.forward e tuple (by rw [hnode]; exact List.mem_singleton_self tuple)
  · exact p.forward e body (by rw [hnode]; exact List.mem_cons_of_mem _ (List.mem_singleton_self body))
  · exact p.forward e body (by rw [hnode]; exact List.mem_singleton_self body)

theorem leaves_eq (e : Nat) : p.leaves e =
    match p.node e with
    | .var => (p.binding e).elim (p.own e) p.leaves
    | .constant => p.own e
    | .call _ => p.own e
    | .tuple fields => fields.flatMap p.leaves
    | .tupleGetItem tuple index =>
      match p.checkedType tuple with
      | .tensor _ => []
      | .tuple types => fieldOf types index (p.leaves tuple)
    | .letIn _ _ body => p.leaves body
    | .onDevice body _ => p.leaves body := by
  rw [leaves]
  split <;> rename_i hnode <;> simp only [hnode]
  · split <;> rename_i hbound <;> simp [hbound]
  · rename_i fields
    exact List.flatMap_subtype (fun _ _ => rfl) |>.trans (by simp)

theorem leaves_tupleGetItem {e t i : Nat} {types : List (Ty τ)} (hnode : p.node e = .tupleGetItem t i)
    (htypes : p.checkedType t = .tuple types) : p.leaves e = fieldOf types i (p.leaves t) := by
  rw [leaves_eq, hnode]
  simp only [htypes]

theorem length_own (e : Nat) : (p.own e).length = width (p.checkedType e) := by
  simp [own]

/-- There is one tensor for each tensor of the type. -/
theorem length_leaves (e : Nat) : (p.leaves e).length = width (p.checkedType e) := by
  induction e using Nat.strong_induction_on with
  | h e ih =>
    rw [leaves_eq]
    cases hnode : p.node e with
    | var =>
      cases hbound : p.binding e with
      | none => exact p.length_own e
      | some value =>
        obtain ⟨hlt, -, htype⟩ := p.bound e value hbound
        rw [htype]
        exact ih value hlt
    | constant => exact p.length_own e
    | call args => exact p.length_own e
    | tuple fields =>
      rw [p.tuple e fields hnode, width_tuple, List.map_map]
      have hall : ∀ field ∈ fields, (p.leaves field).length = width (p.checkedType field) := by
        intro field hfield
        exact ih field (p.forward e field (by rw [hnode]; exact hfield))
      show (fields.flatMap p.leaves).length = _
      rw [List.length_flatMap, List.map_congr_left hall]
      rfl
    | tupleGetItem t i =>
      obtain ⟨types, htypes, htype⟩ := p.tupleGetItem e t i hnode
      have hlt : t < e := p.forward e t (by rw [hnode]; exact List.mem_singleton_self t)
      have hlength := ih t hlt
      rw [htypes, width_tuple] at hlength
      simp only [htypes]
      exact length_fieldOf types i _ _ htype hlength
    | letIn v x b =>
      rw [(p.letIn e v x b hnode).2]
      exact ih b (p.forward e b (by rw [hnode]; exact List.mem_cons_of_mem _ (List.mem_singleton_self b)))
    | onDevice b isFixed =>
      rw [(p.onDevice e b isFixed hnode).1]
      exact ih b (p.forward e b (by rw [hnode]; exact List.mem_singleton_self b))

/-- The field is one tensor, and it is the tensor at position `i` of the flattened tuple. -/
def Plain (e t i : Nat) : Prop := ∃ leaf, (p.leaves t)[i]? = some leaf ∧ p.leaves e = [leaf]

/-- When the field and those before it are single tensors, the projection is plain. -/
theorem plain_of_single {e t i : Nat} {types : List (Ty τ)} (hnode : p.node e = .tupleGetItem t i)
    (htypes : p.checkedType t = .tuple types) (hsingle : ∀ type ∈ types.take i, width type = 1)
    (hwidth : width (p.checkedType e) = 1) : p.Plain e t i := by
  obtain ⟨types', htypes', htype⟩ := p.tupleGetItem e t i hnode
  obtain rfl : types = types' := Ty.tuple.inj (htypes.symm.trans htypes')
  obtain ⟨hlt, -⟩ := List.getElem?_eq_some_iff.mp htype
  have hi : i < (p.leaves t).length := by
    have hle := offset_add_le types i _ htype
    rw [offset_single types i (Nat.le_of_lt hlt) hsingle, hwidth] at hle
    rw [length_leaves, htypes, width_tuple]
    omega
  refine ⟨(p.leaves t)[i], List.getElem?_eq_getElem hi, ?_⟩
  rw [p.leaves_tupleGetItem hnode htypes]
  exact fieldOf_single types i _ _ htype hsingle hwidth _ (List.getElem?_eq_getElem hi)

end Program

end StencilGraph.Plan

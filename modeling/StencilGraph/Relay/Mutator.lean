import StencilGraph.Relay.Heap

namespace StencilGraph.Relay

/-- The heap and the memo table of an `ExprMutator`. -/
structure Mutation where
  heap : Heap
  memo : Nat → Option Nat

def Mutation.start (h : Heap) : Mutation := ⟨h, fun _ => none⟩

def Mutation.alloc (s : Mutation) (n : Node) : Nat × Mutation :=
  (s.heap.length, { s with heap := s.heap ++ [n] })

def Mutation.record (s : Mutation) (x r : Nat) : Mutation :=
  { s with memo := Function.update s.memo x (some r) }

/-- Visits a list from left to right. -/
def visitList (f : Nat → Mutation → Option (Nat × Mutation)) :
    List Nat → Mutation → Option (List Nat × Mutation)
  | [], s => some ([], s)
  | x :: xs, s =>
    (f x s).bind fun (r, s) =>
    (visitList f xs s).bind fun (rs, s) => some (r :: rs, s)

def visitCallee (f : Nat → Mutation → Option (Nat × Mutation)) :
    Callee → Mutation → Option (Callee × Mutation)
  | .op name outputs, s => some (.op name outputs, s)
  | .func g, s => (f g s).bind fun (r, s) => some (.func r, s)

/-- `ExprMutator.visit` with replacements: a replaced variable becomes its replacement, a replaced
call or projection becomes the visit of its replacement, every other node is rebuilt. -/
def visit (replace : Nat → Option Nat) : Nat → Nat → Mutation → Option (Nat × Mutation)
  | 0, _, _ => none
  | fuel + 1, x, s =>
    match s.memo x with
    | some r => some (r, s)
    | none =>
      (match s.heap[x]? with
        | none => none
        | some (.var _) => some ((replace x).getD x, s)
        | some (.call callee args) =>
          match replace x with
          | some y => visit replace fuel y s
          | none =>
            (visitCallee (visit replace fuel) callee s).bind fun (callee, s) =>
            (visitList (visit replace fuel) args s).bind fun (args, s) =>
            some (s.alloc (.call callee args))
        | some (.tuple fields) =>
          (visitList (visit replace fuel) fields s).bind fun (fields, s) =>
          some (s.alloc (.tuple fields))
        | some (.tupleGetItem t index) =>
          match replace x with
          | some y => visit replace fuel y s
          | none =>
            (visit replace fuel t s).bind fun (t', s) =>
            if t' = t then some (x, s) else some (s.alloc (.tupleGetItem t' index))
        | some (.function params body tag) =>
          (visitList (visit replace fuel) params s).bind fun (params, s) =>
          (visit replace fuel body s).bind fun (body, s) =>
          some (s.alloc (.function params body tag))).bind fun (r, s) =>
      some (r, s.record x r)

/-- A replacement dictionary; later entries win. -/
abbrev ReplaceMap := List (Nat × Nat)

def ReplaceMap.get (m : ReplaceMap) (x : Nat) : Option Nat := m.reverse.lookup x

/-- Enough fuel for any visit of a heap of this size. -/
def visitFuel (h : Heap) : Nat := 2 * h.length + 2

/-- `ReplaceParams(m).visit(x)`. -/
def replaceParams (m : ReplaceMap) (x : Nat) (h : Heap) : Option (Nat × Heap) :=
  (visit m.get (visitFuel h) x (.start h)).map fun (r, s) => (r, s.heap)

/-- The projections of tuples, replaced by the field. -/
def emitTarget (h : Heap) (x : Nat) : Option Nat :=
  match h[x]? with
  | some (.tupleGetItem t index) =>
    match h[t]? with
    | some (.tuple fields) => fields[index]?
    | _ => none
  | _ => none

/-- `EmitTuple().visit(x)`. -/
def emitTuple (x : Nat) (h : Heap) : Option (Nat × Heap) :=
  (visit (emitTarget h) (visitFuel h) x (.start h)).map fun (r, s) => (r, s.heap)

end StencilGraph.Relay

import Mathlib.Data.List.Dedup
import StencilGraph.Relay.Mutator

namespace StencilGraph.Relay

namespace GroupOp

def alloc (n : Node) (h : Heap) : Nat × Heap := (h.length, h ++ [n])

/-- One argument of a group member: kept when it comes from outside and is new. -/
def addArg (h : Heap) (group : List Nat) (args : List Nat) (arg : Nat) : List Nat :=
  let inside := match h[arg]? with
    | some (.tupleGetItem t _) => decide (t ∈ group)
    | _ => false
  if inside then args
  else if arg ∉ args ∧ arg ∉ group then args ++ [arg]
  else args

def callArgs (h : Heap) (node : Nat) : List Nat :=
  match h[node]? with
  | some (.call _ args) => args
  | _ => []

/-- The arguments the group takes from outside; there are no constants in a stencil program. -/
def initArgs (h : Heap) (group : List Nat) : List Nat :=
  group.foldl (fun args node => (callArgs h node).foldl (addArg h group) args) []

/-- The variables `p0, p1, ...`. -/
def makeParams : Nat → Nat → Heap → List Nat × Heap
  | 0, _, h => ([], h)
  | n + 1, index, h =>
    let (p, h) := alloc (.var ("p" ++ toString index)) h
    let (ps, h) := makeParams n (index + 1) h
    (p :: ps, h)

def castParam (args : List Nat) (expr : Nat) (h : Heap) : Option (List Nat × Nat × Heap) := do
  let (params, h) := makeParams args.length 0 h
  let (expr, h) ← replaceParams (args.zip params) expr h
  some (params, expr, h)

/-- `flatten_func` on a call of a `Function`. -/
def flattenFunc (expr : Nat) (h : Heap) : Option (Nat × Heap) :=
  match h[expr]? with
  | some (.call (.func f) args) =>
    match h[f]? with
    | some (.function params body _) => replaceParams (params.zip args) body h
    | _ => none
  | _ => none

/-- Whether `expr.op` is a `Function`; `none` when `expr` has no `op`. -/
def callsFunction (h : Heap) (expr : Nat) : Option Bool :=
  match h[expr]? with
  | some (.call (.func _) _) => some true
  | some (.call (.op _ _) _) => some false
  | _ => none

/-- `flatten_func` where the callee is a `Function`, else the expression itself. -/
def flattenCall (expr : Nat) (h : Heap) : Option (Nat × Heap) := do
  if ← callsFunction h expr then flattenFunc expr h else some (expr, h)

/-- `TupleGetItem(expr, 0), ..., TupleGetItem(expr, n - 1)`. -/
def makeItems (expr : Nat) : Nat → Nat → Heap → List Nat × Heap
  | 0, _, h => ([], h)
  | n + 1, index, h =>
    let (x, h) := alloc (.tupleGetItem expr index) h
    let (xs, h) := makeItems expr n (index + 1) h
    (x :: xs, h)

/-- The tensors of an expression. -/
def tensors (expr : Nat) (h : Heap) : List Nat × Heap :=
  match typeOf h expr with
  | .tuple n => makeItems expr n 0 h
  | .tensor => ([expr], h)

def tensorTuple (first second : Nat) (h : Heap) : Nat × Heap :=
  let (xs, h) := tensors first h
  let (ys, h) := tensors second h
  alloc (.tuple (xs ++ ys)) h

def parallelFlatten (first second : Nat) (h : Heap) : Option (Nat × Heap) := do
  let (first, h) ← flattenCall first h
  let (second, h) ← flattenCall second h
  some (tensorTuple first second h)

def specialSerialFlatten (func1 func2 : Nat) (h : Heap) : Option (Nat × Heap) := do
  let (newFunc1, newFunc2, h) ← (do
    if ← callsFunction h func1 then
      let (newFunc1, h) ← flattenFunc func1 h
      -- the memo table is seeded with the flattened producer
      let (newFunc2, s) ← visit (fun _ => none) (visitFuel h) func2
        ((Mutation.start h).record func1 newFunc1)
      some (newFunc1, newFunc2, s.heap)
    else some (func1, func2, h))
  let (newFunc2, h) ← flattenCall newFunc2 h
  some (tensorTuple newFunc1 newFunc2 h)

/-- One round of the loop over the arguments in `serial_flatten`. -/
def serialArg (params : List Nat) (acc : ReplaceMap × Heap) (arg : Nat) :
    Option (ReplaceMap × Heap) :=
  let (globalReplace, h) := acc
  if arg ∈ params then some acc
  else match h[arg]? with
  | some (.tupleGetItem tupleValue _) => do
    if ← callsFunction h tupleValue then
      if (globalReplace.get tupleValue).isSome then some acc
      else
        let (newTuple, h) ← flattenFunc tupleValue h
        some (globalReplace ++ [(tupleValue, newTuple)], h)
    else some acc
  | _ => do
    if ← callsFunction h arg then
      let (body, h) ← flattenFunc arg h
      some (globalReplace ++ [(arg, body)], h)
    else some acc

def serialFlatten (expr : Nat) (params : List Nat) (h : Heap) : Option (Nat × Heap) :=
  match h[expr]? with
  | some (.call _ args) => do
    let (globalReplace, h) ← args.foldlM (serialArg params) ([], h)
    let (expr, h) ← if globalReplace.isEmpty then some (expr, h)
      else replaceParams globalReplace expr h
    flattenCall expr h
  | _ => none

/-- The producers among the arguments of a call. -/
def argSources (h : Heap) (args : List Nat) : List Nat :=
  args.map fun (arg : Nat) => match h[arg]? with
    | some (.tupleGetItem t _) => t
    | _ => arg

def flattenExpr (expr : Nat) (params : List Nat) (h : Heap) : Option (Nat × Heap) := do
  let (expr, h) ← match h[expr]? with
    | some (.tuple [first, second]) =>
      match h[second]? with
      | some (.call _ args) =>
        if first ∈ argSources h args then specialSerialFlatten first second h
        else parallelFlatten first second h
      | _ => none
    | some (.tuple _) => none
    | _ => serialFlatten expr params h
  emitTuple expr h

/-- The names of the stencils in a call. -/
def tagNames (h : Heap) (call : Nat) : Option (List String) :=
  match h[call]? with
  | some (.call (.op name _) _) => some [name]
  | some (.call (.func f) _) =>
    match h[f]? with
    | some (.function _ _ tag) => some tag
    | _ => none
  | _ => none

/-- `sorted(set(fuse_tag))`. -/
def fuseTag (names : List String) : List String := names.dedup.mergeSort (fun a b => decide (a ≤ b))

/-- `GroupOp.fuse`; returns the call of the fused function. -/
def fuse (group output : List Nat) (h : Heap) : Option (Nat × Heap) := do
  let args := initArgs h group
  let (retExpr, h) ← match output with
    | [] => none
    | [_] => group.getLast?.map fun r => (r, h)
    | _ => some (alloc (.tuple output) h)
  let (params, retExpr, h) ← castParam args retExpr h
  let (retExpr, h) ← flattenExpr retExpr params h
  let names ← group.mapM (tagNames h)
  let (func, h) := alloc (.function params retExpr (fuseTag names.flatten)) h
  some (alloc (.call (.func func) args) h)

end GroupOp

end StencilGraph.Relay

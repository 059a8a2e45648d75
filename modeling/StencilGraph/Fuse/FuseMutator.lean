import Mathlib.Logic.Function.Basic
import StencilGraph.Framework.Traced

namespace StencilGraph.Fuse.FuseMutator
open Framework

/-- An operator with the attributes that the mutator asks for. -/
structure Operator where
  id : Nat
  nonComputational : Bool
  stopFusion : Bool
  reshapeOp : Bool
  deriving DecidableEq, Repr

/-- What a call calls: an operator, or the function in another expression. -/
inductive Callee where
  | op (op : Operator)
  | expr (r : Nat)
  deriving DecidableEq, Repr

inductive ExprKind where
  -- whether the type annotation is a tensor type
  | var (tensor : Bool)
  | constant
  | call (callee : Callee) (args : List Nat)
  | tuple (fields : List Nat)
  | tupleGetItem (tupleValue : Nat) (index : Nat)
  | function (params : List Nat) (body : Nat) (primitive : Bool)
  deriving DecidableEq, Repr

def Callee.children : Callee → List Nat
  | .op _ => []
  | .expr r => [r]

def ExprKind.children : ExprKind → List Nat
  | .var _ => []
  | .constant => []
  | .call callee args => callee.children ++ args
  | .tuple fields => fields
  | .tupleGetItem tupleValue _ => [tupleValue]
  | .function params body _ => params ++ [body]

/-- The expressions of a function in the order of their construction, the function itself last. -/
structure Heap where
  kind : Nat → ExprKind
  -- whether the checked type is a tensor type
  tensorTyped : Nat → Bool
  root : Nat

/-- The map `gmap_` from an expression to the root of its group, and `root_ref`. -/
structure GroupMap where
  group : Nat → Option Nat
  rootRef : Nat → Nat

/-- An expression of the result. The objects that the mutator builds carry a number, so that two of
them are the same object only when their numbers agree. -/
inductive NewExpr where
  | old (r : Nat)
  | param (group index : Nat) (tensor : Bool)
  | call (id : Nat) (op : Operator) (args : List NewExpr)
  -- the call of the primitive function of a group
  | fused (id group : Nat) (body : NewExpr) (arguments : List NewExpr) (reshapeOnly : Bool)
  | function (id : Nat) (params : List NewExpr) (body : NewExpr)

/-- `same_as`. -/
def NewExpr.sameAs : NewExpr → NewExpr → Bool
  | .old r, .old r' => r = r'
  | .param g i _, .param g' i' _ => g = g' ∧ i = i'
  | .call id _ _, .call id' _ _ => id = id'
  | .fused id _ _ _ _, .fused id' _ _ _ _ => id = id'
  | .function id _ _, .function id' _ _ => id = id'
  | _, _ => false

inductive Error where
  | keyError
  | assertionError
  | attributeError
  | indexError
  deriving DecidableEq, Repr

structure State where
  memoMap : Nat → Option NewExpr
  -- the arguments of each group with their parameters
  ginfo : Nat → List (NewExpr × NewExpr)
  next : Nat

/-- The log has one entry for each recursive visit: the expression that makes it and the one visited. -/
abbrev M := Traced State (Nat × Nat) Error

def newObject (make : Nat → NewExpr) : M NewExpr := do
  let s ← Traced.get
  Traced.set { s with next := s.next + 1 }
  pure (make s.next)

section Reshape

variable (h : Heap)

mutual

/-- `CheckReshapeOnly`, from the flag `reshape_only` before to the flag after. A call of a function has
no `get_attr`. -/
def checkReshapeOnly : NewExpr → Bool → Option Bool
  | .old r, reshapeOnly =>
    match h.kind r with
    | .var tensor => some (reshapeOnly && tensor)
    | _ => some reshapeOnly
  | .param _ _ tensor, reshapeOnly => some (reshapeOnly && tensor)
  | .call _ op args, reshapeOnly =>
    if reshapeOnly && op.reshapeOp then checkReshapeArgs args true else some false
  | .fused _ _ _ _ _, _ => none
  | .function _ params body, reshapeOnly => do
    let reshapeOnly ← checkReshapeArgs params reshapeOnly
    checkReshapeOnly body reshapeOnly

def checkReshapeArgs : List NewExpr → Bool → Option Bool
  | [], reshapeOnly => some reshapeOnly
  | arg :: args, reshapeOnly => do
    let reshapeOnly ← checkReshapeOnly arg reshapeOnly
    checkReshapeArgs args reshapeOnly

end

end Reshape

section Mutator

variable (h : Heap) (gmap : GroupMap) (linkParams : Bool)

def getOrAllocParam (group : Nat) (expr : NewExpr) (tensor : Bool) : M NewExpr := do
  let s ← Traced.get
  match (s.ginfo group).find? fun known => known.1.sameAs expr with
  | some known => pure known.2
  | none =>
    let var := NewExpr.param group (s.ginfo group).length tensor
    Traced.set { s with ginfo := Function.update s.ginfo group (s.ginfo group ++ [(expr, var)]) }
    pure var

def isConstant : NewExpr → Bool
  | .old r => h.kind r = .constant
  | _ => false

/-- `MakeNewFunction`. -/
def makeNewFunction (group : Nat) (body : NewExpr) : M NewExpr := do
  let reshapeOnly ← Traced.require (checkReshapeOnly h body true) .attributeError
  let s ← Traced.get
  newObject fun id => .fused id group body ((s.ginfo group).map Prod.fst) reshapeOnly

section Recursion

-- the method `visit`, and the method `rewrite` that `MixedModeMutator.visit_*` calls
variable (visit rewrite : Nat → M NewExpr)

/-- `GetNewArguments`, for the arguments of the expression `r`. -/
def getNewArguments (r : Nat) (args : List Nat) (currentGroup : Nat) : M (List NewExpr) :=
  Traced.traverse (fun arg => do
    let argGroup ← Traced.require (gmap.group arg) .keyError
    Traced.tell (r, arg)
    let newArg ← visit arg
    if currentGroup ≠ argGroup ∧ ¬ (linkParams ∧ isConstant h newArg) then
      getOrAllocParam currentGroup newArg (h.tensorTyped arg)
    else pure newArg) args

/-- `super().visit_call` and `super().visit_tuple` in the mutator: `MixedModeMutator` rewrites. -/
def superVisit (r arg : Nat) : M NewExpr := do
  Traced.tell (r, arg)
  rewrite arg

def rewriteCall (r : Nat) (callee : Callee) (args : List Nat) : M NewExpr :=
  match callee with
  | .op op =>
    if op.nonComputational then superVisit rewrite r r
    else do
      let retGroup ← Traced.require (gmap.group r) .assertionError
      if op.stopFusion then
        match args with
        | [] => Traced.raise .indexError
        | arg :: _ => superVisit rewrite r arg
      else
        let newArgs ← getNewArguments h gmap linkParams visit r args retGroup
        let newCall ← newObject fun id => .call id op newArgs
        if gmap.rootRef retGroup = r then makeNewFunction h retGroup newCall else pure newCall
  | .expr _ => superVisit rewrite r r

/-- `rewrite_tuple`; `with_fields` reads `virtual_device`, which a Python tuple node does not have. -/
def rewriteTuple (r : Nat) (fields : List Nat) : M NewExpr := do
  let retGroup ← Traced.require (gmap.group r) .keyError
  if gmap.rootRef retGroup = r then superVisit rewrite r r
  else
    let _ ← getNewArguments h gmap linkParams visit r fields retGroup
    Traced.raise .attributeError

/-- `rewrite_tuple_getitem` reads `tuple_get.tuple`, an attribute that does not exist. -/
def rewriteTupleGetitem (r : Nat) : M NewExpr := do
  let _ ← Traced.require (gmap.group r) .keyError
  Traced.raise .attributeError

def visitFunction (r : Nat) (params : List Nat) (body : Nat) (primitive : Bool) : M NewExpr :=
  if primitive then pure (.old r)
  else do
    let newParams ← Traced.traverse (fun param => do
      Traced.tell (r, param)
      visit param) params
    Traced.tell (r, body)
    let newBody ← visit body
    newObject fun id => .function id newParams newBody

/-- The method that `ExprFunctor.visit` calls for the class of the expression. -/
def dispatch (r : Nat) : M NewExpr :=
  match h.kind r with
  | .var _ => pure (.old r)
  | .constant => pure (.old r)
  | .function params body primitive => visitFunction visit r params body primitive
  | _ => rewrite r

end Recursion

def remember (r : Nat) (res : NewExpr) : M NewExpr := do
  let s ← Traced.get
  Traced.set { s with memoMap := Function.update s.memoMap r (some res) }
  pure res

mutual

/-- `ExprFunctor.visit`. -/
def visit : Nat → Nat → M NewExpr
  | 0, _ => Traced.timeout
  | depth + 1, r => do
    let s ← Traced.get
    match s.memoMap r with
    | some res => pure res
    | none => dispatch h (visit depth) (rewrite depth) r >>= remember r

/-- `MixedModeMutator.rewrite`. -/
def rewrite : Nat → Nat → M NewExpr
  | 0, _ => Traced.timeout
  | depth + 1, r =>
    match h.kind r with
    | .call callee args =>
      rewriteCall h gmap linkParams (visit depth) (rewrite depth) r callee args
    | .tuple fields => rewriteTuple h gmap linkParams (visit depth) (rewrite depth) r fields
    | .tupleGetItem _ _ => rewriteTupleGetitem gmap r
    -- rewrite_default returns what ExprMutator makes of the expression
    | _ => pure (.old r)

end

def initial : State := ⟨fun _ => none, fun _ => [], 0⟩

/-- `Transform_` after the groups are computed, with a bound on the depth of the recursion. -/
def transform (depth : Nat) : Ran State (Nat × Nat) Error NewExpr :=
  visit h gmap linkParams depth h.root initial

end Mutator

end StencilGraph.Fuse.FuseMutator

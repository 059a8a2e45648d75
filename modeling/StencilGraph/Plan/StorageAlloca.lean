import Mathlib.Logic.Function.Basic
import Mathlib.Tactic.Common

namespace StencilGraph.Plan

/-- A tensor type, or a tuple of types. -/
inductive Ty (τ : Type) where
  | tensor (ttype : τ)
  | tuple (fields : List (Ty τ))

mutual

/-- `FlattenTupleType`: the tensor types of a type, from left to right. -/
def flattenTupleType {τ : Type} : Ty τ → List τ
  | .tensor ttype => [ttype]
  | .tuple fields => flattenFields fields

def flattenFields {τ : Type} : List (Ty τ) → List τ
  | [] => []
  | field :: fields => flattenTupleType field ++ flattenFields fields

end

/-- An expression, with its subexpressions by their numbers in the heap. The callee of a call is never
visited by the planner. -/
inductive Expr where
  | var
  | constant
  | call (args : List Nat)
  | tuple (fields : List Nat)
  | tupleGetItem (tuple index : Nat)
  | letIn (var value body : Nat)
  -- a call of on_device, and whether it fixes the device of its body
  | onDevice (body : Nat) (isFixed : Bool)
  deriving DecidableEq

/-- The subexpressions that are evaluated for an expression. -/
def Expr.children : Expr → List Nat
  | .var => []
  | .constant => []
  | .call args => args
  | .tuple fields => fields
  | .tupleGetItem t _ => [t]
  | .letIn _ value body => [value, body]
  | .onDevice body _ => [body]

/-- A Relay function. Every object is in the heap once, however often it is used. -/
structure Func (τ : Type) where
  node : Nat → Expr
  checkedType : Nat → Ty τ
  params : List Nat
  body : Nat

structure StorageToken (τ : Type) where
  ttype : τ
  refCounter : Nat
  deriving DecidableEq

/-- The maps of the visitor. A token is named by its place in the arena. -/
structure State (τ : Type) where
  tokenMap : Nat → Option (List Nat)
  -- the keys of visit_counter_
  visited : List Nat
  arena : List (StorageToken τ)

namespace State

variable {τ : Type}

def empty : State τ := ⟨fun _ => none, [], []⟩

/-- `token_map_[e] = tokens`. -/
def record (st : State τ) (e : Nat) (tokens : List Nat) : State τ :=
  { st with tokenMap := Function.update st.tokenMap e (some tokens) }

/-- `tok->ref_counter += 1` for each of the tokens. -/
def charge (st : State τ) (tokens : List Nat) : State τ :=
  { st with arena := tokens.foldl (fun arena token => arena.modify token
      fun tok => { tok with refCounter := tok.refCounter + 1 }) st.arena }

/-- The expression is counted as visited. -/
def mark (st : State τ) (e : Nat) : State τ := { st with visited := e :: st.visited }

end State

section Visitor

variable {τ : Type} (f : Func τ)

def ignoreOnDevice (e : Nat) : Nat :=
  match f.node e with
  | .onDevice body _ => body
  | _ => e

/-- `CreateToken` of `StorageAllocaInit`: one new token for each tensor of the type. -/
def createToken (e : Nat) (st : State τ) : Option (State τ) :=
  match st.tokenMap e with
  | some _ => none
  | none =>
    let types := flattenTupleType (f.checkedType e)
    let tokens := List.range' st.arena.length types.length
    let created := types.map fun ttype => { ttype := ttype, refCounter := 0 : StorageToken τ }
    some (State.record { st with arena := st.arena ++ created } e tokens)

section Visit

-- VisitExpr on the subexpressions
variable (visit : Nat → State τ → Option (State τ))

def getToken (e : Nat) (st : State τ) : Option (List Nat × State τ) := do
  let st ← visit e st
  let st ← visit (ignoreOnDevice f e) st
  let tokens ← st.tokenMap (ignoreOnDevice f e)
  some (tokens, st)

def visitArgs (args : List Nat) (st : State τ) : Option (State τ) :=
  args.foldlM (fun st arg => do
    let (tokens, st) ← getToken f visit arg st
    some (st.charge tokens)) st

def visitCall (e : Nat) (args : List Nat) (st : State τ) : Option (State τ) := do
  let st ← createToken f e st
  visitArgs f visit args st

def visitFields (fields : List Nat) (st : List Nat × State τ) : Option (List Nat × State τ) :=
  fields.foldlM (fun st field => do
    let (tokens, st') ← getToken f visit field st.2
    some (st.1 ++ tokens, st')) st

def visitTuple (e : Nat) (fields : List Nat) (st : State τ) : Option (State τ) := do
  let (tokens, st) ← visitFields f visit fields ([], st)
  some (st.record e tokens)

def visitTupleGetItem (e tuple index : Nat) (st : State τ) : Option (State τ) := do
  let (tokens, st) ← getToken f visit tuple st
  let token ← tokens[index]?
  some (st.record e [token])

/-- `PreVisitLetBinding_` for the variable of a let, and `PostVisitLet_` for the let itself. -/
def visitAlias (e value : Nat) (st : State τ) : Option (State τ) := do
  let (tokens, st) ← getToken f visit value st
  some (st.record e tokens)

/-- A block of lets: all bindings, then the body of the last one, then the lets from the inside out. -/
def visitLet : Nat → Nat → State τ → Option (State τ)
  | 0, _, _ => none
  | fuel + 1, e, st =>
    match f.node e with
    | .letIn var value body => do
      let st ← visitAlias f visit var value st
      let st ← visitLet fuel body st
      visitAlias f visit e body st
    | _ => visit e st

end Visit

/-- `VisitExpr`: each expression is visited once. -/
def visitExpr : Nat → Nat → State τ → Option (State τ)
  | 0, _, _ => none
  | fuel + 1, e, st =>
    if e ∈ st.visited then some st
    else do
      let st ←
        match f.node e with
        | .var => some st
        | .constant => createToken f e st
        | .call args => visitCall f (visitExpr fuel) e args st
        | .tuple fields => visitTuple f (visitExpr fuel) e fields st
        | .tupleGetItem tuple index => visitTupleGetItem f (visitExpr fuel) e tuple index st
        | .letIn _ _ _ => visitLet f (visitExpr fuel) (fuel + 1) e st
        | .onDevice body true => visitExpr fuel body st
        | .onDevice body false => visitCall f (visitExpr fuel) e [body] st
      some (st.mark e)

/-- `Run`: the tokens of the parameters, of the body, and the body's tokens stay alive. -/
def run : Option (State τ) := do
  let st ← f.params.foldlM (fun st param => createToken f param st) .empty
  let (tokens, st) ← getToken f (visitExpr f (f.body + 1)) f.body st
  some (st.charge tokens)

end Visitor

section Scope

variable {τ : Type}

/-- The variable is used in the expression and not bound there. -/
inductive Free (f : Func τ) : Nat → Nat → Prop
  | var (v : Nat) : f.node v = .var → Free f v v
  | child (e c v : Nat) : c ∈ (f.node e).children →
    (∀ w x b, f.node e = .letIn w x b → v ≠ w ∨ c = x) → Free f c v → Free f e v

/-- The expression is the body of the function or a subexpression of it. -/
inductive Reach (f : Func τ) : Nat → Prop
  | body : Reach f f.body
  | child (e c : Nat) : Reach f e → c ∈ (f.node e).children → Reach f c

end Scope

/-- A function that is well typed and well scoped. The heap is numbered from the leaves up, so that a
variable has a larger number than the value bound to it. -/
structure Program (τ : Type) extends Func τ where
  -- the value of a variable bound by a let
  binding : Nat → Option Nat
  forward : ∀ e, ∀ c ∈ (node e).children, c < e
  bound : ∀ v x, binding v = some x → x < v ∧ node v = .var ∧ checkedType v = checkedType x
  letIn : ∀ e v x b, node e = .letIn v x b → binding v = some x ∧ checkedType e = checkedType b
  tuple : ∀ e fields, node e = .tuple fields → checkedType e = .tuple (fields.map checkedType)
  tupleGetItem : ∀ e t i, node e = .tupleGetItem t i →
    ∃ types, checkedType t = .tuple types ∧ types[i]? = some (checkedType e)
  onDevice : ∀ e b isFixed, node e = .onDevice b isFixed →
    checkedType e = checkedType b ∧ ∀ b' isFixed', node b ≠ .onDevice b' isFixed'
  param : ∀ v ∈ params, node v = .var ∧ binding v = none
  nodup : params.Nodup
  closed : ∀ v, Free toFunc body v → v ∈ params

end StencilGraph.Plan

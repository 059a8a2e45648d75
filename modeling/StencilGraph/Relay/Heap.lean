import Mathlib.Algebra.Order.Ring.Int
import Mathlib.Logic.Function.Basic
import Mathlib.Logic.Relation
import Mathlib.Order.Nat
import Mathlib.Tactic.Common

namespace StencilGraph.Relay

/-- What a call applies: a stencil operator, named by its tag, or a fused `Function`. -/
inductive Callee where
  | op (name : String) (outputs : Nat)
  | func (f : Nat)
  deriving DecidableEq, Repr

inductive Node where
  | var (name : String)
  | call (callee : Callee) (args : List Nat)
  | tuple (fields : List Nat)
  | tupleGetItem (tupleValue : Nat) (index : Nat)
  | function (params : List Nat) (body : Nat) (tag : List String)
  deriving DecidableEq, Repr

def Callee.refs : Callee → List Nat
  | .op _ _ => []
  | .func f => [f]

/-- The expressions a node takes its value from. -/
def Node.deps : Node → List Nat
  | .call _ args => args
  | .tuple fields => fields
  | .tupleGetItem tupleValue _ => [tupleValue]
  | _ => []

/-- All objects a node refers to. -/
def Node.refs : Node → List Nat
  | .var _ => []
  | .call callee args => callee.refs ++ args
  | .tuple fields => fields
  | .tupleGetItem tupleValue _ => [tupleValue]
  | .function params body _ => params ++ [body]

/-- Objects in the order of their construction; an object is named by its position, and objects are
compared by identity. -/
abbrev Heap := List Node

/-- Objects refer to earlier objects. -/
def Wf (h : Heap) : Prop := ∀ (x : Nat) (n : Node), h[x]? = some n → ∀ y ∈ n.refs, y < x

theorem deps_subset_refs {n : Node} {y : Nat} (h : y ∈ n.deps) : y ∈ n.refs := by
  cases n <;> simp_all [Node.deps, Node.refs]

/-- The checked type of an expression. -/
inductive Ty where
  | tensor
  | tuple (n : Nat)
  deriving DecidableEq, Repr

def Ty.width : Ty → Nat
  | .tensor => 1
  | .tuple n => n

@[simp] def typeFuel (h : Heap) : Nat → Nat → Ty
  | 0, _ => .tensor
  | fuel + 1, x =>
    match h[x]? with
    | some (.call (.op _ outputs) _) => if outputs = 1 then .tensor else .tuple outputs
    | some (.call (.func f) _) =>
      match h[f]? with
      | some (.function _ body _) => typeFuel h fuel body
      | _ => .tensor
    | some (.tuple fields) => .tuple fields.length
    | _ => .tensor

/-- The type `InferType` computes. -/
def typeOf (h : Heap) (x : Nat) : Ty := typeFuel h (x + 1) x

/-- A meaning of the stencil operators as total functions on tensors. -/
structure Interp (V : Type) where
  apply : String → Nat → List V → List V
  length_apply : ∀ name outputs vs, (apply name outputs vs).length = outputs

/-- Values given to some expressions; a tensor is a list of length one. -/
abbrev Env (V : Type) := Nat → Option (List V)

def bindParams {V : Type} (params : List Nat) (vals : List (List V)) : Env V :=
  fun x => (params.zip vals).lookup x

@[simp] def valueFuel {V : Type} (I : Interp V) (h : Heap) : Nat → Env V → Nat → List V
  | 0, _, _ => []
  | fuel + 1, σ, x =>
    match σ x with
    | some v => v
    | none =>
      match h[x]? with
      | some (.call (.op name outputs) args) =>
        I.apply name outputs (args.flatMap (valueFuel I h fuel σ))
      | some (.call (.func f) args) =>
        match h[f]? with
        | some (.function params body _) =>
          valueFuel I h fuel (bindParams params (args.map (valueFuel I h fuel σ))) body
        | _ => []
      | some (.tuple fields) => fields.flatMap (valueFuel I h fuel σ)
      | some (.tupleGetItem t index) => ((valueFuel I h fuel σ t)[index]?).toList
      | _ => []

/-- The value of an expression; a call of a `Function` binds its parameters to its arguments. -/
def value {V : Type} (I : Interp V) (h : Heap) (σ : Env V) (x : Nat) : List V :=
  valueFuel I h (x + 1) σ x

/-- A module with its `main` function. -/
structure Module where
  heap : Heap
  main : Nat

/-- The results of `main` on a list of input tensors. -/
def Module.run {V : Type} (I : Interp V) (m : Module) (inputs : List V) : List V :=
  match m.heap[m.main]? with
  | some (.function params body _) =>
    value I m.heap (bindParams params (inputs.map fun v => [v])) body
  | _ => []

end StencilGraph.Relay

import StencilGraph.Framework.MemoVisit
import StencilGraph.Fuse.GraphPartitioner

namespace StencilGraph.Fuse
open Framework

/-- A dimension of a shape, up to structural equality. -/
inductive Dim where
  | intImm (value : Int)
  | any
  | var (id : Nat)
  deriving DecidableEq, Repr

inductive Ty where
  | tensor (shape : List Dim)
  | tuple (fields : List Ty)

def Ty.isTensor : Ty → Bool
  | .tensor _ => true
  | .tuple _ => false

/-- `IsDynamic`: some dimension of a tensor in the type is not an integer. -/
def Ty.isDynamic : Ty → Bool
  | .tensor shape => shape.any fun d => match d with
    | .intImm _ => false
    | _ => true
  | .tuple fields => fields.attach.any fun ⟨t, _⟩ => t.isDynamic

inductive DType where
  | int32
  | int64
  | float32
  | float64
  | bool
  | other
  deriving DecidableEq, Repr

/-- A registered operator with its `TOpPattern`. -/
structure RelayOp where
  id : Nat
  pattern : OpPattern
  deriving DecidableEq, Repr

inductive ExprNode where
  | var
  | constant (ndim : Nat) (dtype : DType)
  | call (op : RelayOp) (args : List Ref) (dataDependent : Bool)
  | tuple (fields : List Ref)
  | tupleGetItem (tupleValue : Ref) (index : Nat)
  deriving DecidableEq, Repr

def ExprNode.children : ExprNode → List Ref
  | .var => []
  | .constant _ _ => []
  | .call _ args _ => args
  | .tuple fields => fields
  | .tupleGetItem tupleValue _ => [tupleValue]

structure Expr where
  node : ExprNode
  checkedType : Ty

/-- The expressions of a function in the order of their construction. -/
structure ExprHeap where
  exprs : List Expr
  params : List Ref
  body : Ref
  compiler : Bool

namespace ExprHeap

variable (f : ExprHeap)

def node (r : Ref) : ExprNode := (f.exprs[r]?.map Expr.node).getD .var

def checkedType (r : Ref) : Ty := (f.exprs[r]?.map Expr.checkedType).getD (.tuple [])

def children (r : Ref) : List Ref := (f.node r).children

/-- What type inference records at an expression. -/
def TypedAt (r : Ref) : Prop :=
  match f.node r with
  | .var => True
  | .constant _ _ => (f.checkedType r).isTensor = true
  | .call _ _ _ => True
  | .tuple fields => f.checkedType r = .tuple (fields.map f.checkedType)
  | .tupleGetItem t index => ∃ tys ty, f.checkedType t = .tuple tys ∧ tys[index]? = some ty ∧
    f.checkedType r = ty

end ExprHeap

/-- A well-typed function of variables, constants, operator calls, tuples and projections. -/
structure RelayFunction extends ExprHeap where
  children_lt : ∀ r, ∀ c ∈ toExprHeap.children r, c < r
  params_lt : ∀ p ∈ params, p < exprs.length
  params_var : ∀ p ∈ params, toExprHeap.node p = .var
  body_lt : body < exprs.length
  typed : ∀ r, r < exprs.length → toExprHeap.TypedAt r

/-- The keys of `node_map`. -/
inductive Key where
  | function
  | op (id : Nat)
  | expr (r : Ref)
  deriving DecidableEq, Repr

/-- What an edge can point to: the graph node of a key, or the Python builtin `tuple`. -/
inductive Target where
  | node (key : Key)
  | builtinTuple
  deriving DecidableEq, Repr

structure GraphNode where
  ref : Option Key
  index : Nat
  externRef : Bool
  pattern : OpPattern
  outputs : List (Target × OpPattern)
  deriving DecidableEq, Repr

structure Graph where
  nodeMap : Key → Option GraphNode
  postDfsOrder : List Key

namespace Graph

def empty : Graph := ⟨fun _ => none, []⟩

/-- `Update`; `none` as parent marks an external reference. -/
def update (g : Graph) (key : Key) (parent : Option Target) (pattern : OpPattern) : Graph :=
  let current := (g.nodeMap key).getD ⟨none, 0, false, .nonFusable, []⟩
  let current := match parent with
    | some p => { current with outputs := current.outputs ++ [(p, pattern)] }
    | none => { current with externRef := true }
  { g with nodeMap := Function.update g.nodeMap key (some current) }

def addNode (g : Graph) (key : Key) : Option Graph :=
  match g.nodeMap key with
  | none => none
  | some node =>
    if node.ref ≠ none then none
    else some
      { nodeMap := Function.update g.nodeMap key
          (some { node with ref := some key, index := g.postDfsOrder.length })
        postDfsOrder := g.postDfsOrder ++ [key] }

/-- `node_map[key].pattern = pattern`, after the assertion that the key is present. -/
def setPattern (g : Graph) (key : Key) (pattern : OpPattern) : Option Graph :=
  match g.nodeMap key with
  | none => none
  | some node =>
    some { g with nodeMap := Function.update g.nodeMap key (some { node with pattern }) }

/-- The nodes in post-DFS order. -/
def nodes (g : Graph) : List (Option GraphNode) := g.postDfsOrder.map g.nodeMap

end Graph

namespace Creator

variable (f : ExprHeap)

def opPattern (r : Ref) (op : RelayOp) (dataDependent : Bool) : OpPattern :=
  if (f.checkedType r).isDynamic ∧ dataDependent then .nonFusable else op.pattern

/-- An edge of a broadcast call between equal shapes is element-wise. -/
def edgePattern (r arg : Ref) (opPattern : OpPattern) : OpPattern :=
  match f.checkedType arg, f.checkedType r with
  | .tensor argShape, .tensor shape =>
    if opPattern = .broadcast ∧ argShape = shape then .elemWise else opPattern
  | _, _ => opPattern

/-- `visit_call` up to the visit of the operator and the arguments. -/
def enterCall (r : Ref) (op : RelayOp) (args : List Ref) (dataDependent : Bool) (g : Graph) :
    Option Graph := do
  let pattern := opPattern f r op dataDependent
  let g ← g.setPattern (.expr r) pattern
  let g := g.update (.op op.id) none .nonFusable
  some (args.foldl (fun g arg =>
    g.update (.expr arg) (some (.node (.expr r))) (edgePattern f r arg pattern)) g)

/-- `visit_tuple` up to the visit of the fields, with the parent it gives to the edges. -/
def enterTuple (parent : Target) (r : Ref) (fields : List Ref) (g : Graph) : Option Graph := do
  let g ← g.setPattern (.expr r) .tuple
  some (fields.foldl (fun g field =>
    if (f.checkedType field).isTensor then g.update (.expr field) (some parent) .injective
    else g.update (.expr field) none .nonFusable) g)

/-- The C++ `VisitExpr_` of a projection up to the visit of the tuple. -/
def enterTupleGetItem (r tuple : Ref) (g : Graph) : Option Graph :=
  match f.checkedType tuple with
  | .tensor _ => none
  | .tuple fields =>
    if fields.any fun ty => !ty.isTensor then some (g.update (.expr tuple) none .nonFusable)
    else do
      let g ← g.setPattern (.expr r) .injective
      some (g.update (.expr tuple) (some (.node (.expr r))) .injective)

/-- The C++ methods before they visit the children. -/
def cppEnter (r : Ref) (g : Graph) : Option Graph :=
  match f.node r with
  | .var => some g
  | .constant _ _ => some g
  | .call op args dataDependent => enterCall f r op args dataDependent g
  | .tuple fields => enterTuple f (.node (.expr r)) r fields g
  | .tupleGetItem tuple _ => enterTupleGetItem f r tuple g

/-- The Python methods before they visit the children. `visit_tuple` passes the builtin `tuple` as
parent; `visit_tuple_getitem` reads `op.tuple`, an attribute that does not exist. -/
def pyEnter (r : Ref) (g : Graph) : Option Graph :=
  match f.node r with
  | .var => some g
  | .constant _ _ => some g
  | .call op args dataDependent => enterCall f r op args dataDependent g
  | .tuple fields => enterTuple f .builtinTuple r fields g
  | .tupleGetItem _ _ => none

def isSimpleConst : DType → Bool
  | .other => false
  | _ => true

/-- What the methods do after the children; the visit of an operator does nothing. -/
def leave (r : Ref) (g : Graph) : Option Graph :=
  match f.node r with
  | .constant ndim dtype => do
    let g ← g.addNode (.expr r)
    g.setPattern (.expr r) (if ndim = 0 ∧ isSimpleConst dtype then .elemWise else .nonFusable)
  | _ => g.addNode (.expr r)

def visitor (enter : Ref → Graph → Option Graph) : Visitor Graph where
  children := f.children
  enter := enter
  leave := leave f

/-- `visit_function` up to the visit of the parameters and the body. -/
def enterFunction (g : Graph) : Graph :=
  (f.params.foldl (fun g p => g.update (.expr p) none .nonFusable) g).update (.expr f.body) none
    .nonFusable

/-- `Prepare` on a function. -/
def prepare (enter : Ref → Graph → Option Graph) : Option Graph :=
  let g := Graph.empty.update .function none .nonFusable
  if f.compiler then some g
  else ((visitor f enter).visitAll f.exprs.length (f.params ++ [f.body]) ([], enterFunction f g)).map
    Prod.snd

def cppCreate : Option Graph := prepare f (cppEnter f)

def pyCreate : Option Graph := prepare f (pyEnter f)

end Creator

/-- An edge as the partitioner reads it, through `link.node.index`. -/
def Graph.edge (g : Graph) (e : Target × OpPattern) : Option Edge :=
  match e.1 with
  | .node key => (g.nodeMap key).map fun n => ⟨n.index, e.2⟩
  | .builtinTuple => none

def Graph.forwardNode (g : Graph) (key : Key) : Option Node :=
  match key, g.nodeMap key with
  | .expr r, some n => (n.outputs.mapM g.edge).map fun outputs => ⟨r, n.externRef, n.pattern, outputs⟩
  | _, _ => none

/-- The graph with its edges resolved to indices. -/
def Graph.forwardGraph (g : Graph) : Option ForwardGraph :=
  (g.postDfsOrder.mapM g.forwardNode).map ForwardGraph.mk

/-- The groups both passes compute for a function. -/
def fuseGroups (d : Dialect) (create : Option Graph) (optLevel maxFuseDepth : Int) : Option Groups := do
  let g ← create
  let fg ← g.forwardGraph
  GraphPartitioner.partition d fg optLevel maxFuseDepth

end StencilGraph.Fuse

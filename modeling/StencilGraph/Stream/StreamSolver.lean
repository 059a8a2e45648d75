import Mathlib.Data.List.Infix
import StencilGraph.Relay.NodeAutoFusion

namespace StencilGraph.Stream
open Framework Relay

namespace GetCallNode

/-- `ExprVisitor` also visits the operator of a call, before its arguments. -/
def children (h : Heap) (x : Nat) : List Nat :=
  match h[x]? with
  | some n => n.refs
  | none => []

/-- `visit_call` appends the call before it visits its parts. -/
def visitor (h : Heap) : Visitor (List Nat) where
  children := children h
  enter x callList := some (if BuildGraph.isCall h x then callList ++ [x] else callList)
  leave _ callList := some callList

def getCallList (h : Heap) (expr : Nat) : Option (List Nat) :=
  ((visitor h).visit (expr + 1) expr ([], [])).map Prod.snd

end GetCallNode

/-- `text.split("_")`. -/
def splitUnderscore (text : String) : List String := (text.toList.splitOn '_').map String.ofList

/-- The text of the tag that `GroupOp.fuse` writes. -/
def fuseTagText (names : List String) : String := "fuse_" ++ "_".intercalate names

namespace StreamSolver

/-- `call.op.attrs["tag"]`; `none` is the exception for an operator. -/
def opTag (h : Heap) (call : Nat) : Option String :=
  match h[call]? with
  | some (.call (.func f) _) =>
    match h[f]? with
    | some (.function _ _ names) => some (fuseTagText names)
    | _ => none
  | _ => none

/-- `call.attrs.tag`; `none` is the exception for a call of a function. -/
def attrsTag (h : Heap) (call : Nat) : Option String :=
  match h[call]? with
  | some (.call (.op name _) _) => some ("stencil_" ++ name)
  | _ => none

/-- `stencil_name_list` of a fused call. -/
def stencilNames (h : Heap) (call : Nat) : List String :=
  match opTag h call with
  | some tag => if "fuse".toList <:+: tag.toList then (splitUnderscore tag).tail else []
  | none => []

def hasName (h : Heap) (name : String) (cc : Nat) : Bool :=
  match attrsTag h cc with
  | some tag => (splitUnderscore tag).getLast? = some name
  | none => false

/-- `for cc in call_list: if ...: call_list.remove(cc)`: the loop reads the next index of the list
it has just shortened. -/
def removeLoop (found : Nat → Bool) : Nat → Nat → List Nat → List Nat
  | 0, _, callList => callList
  | fuel + 1, i, callList =>
    match callList[i]? with
    | none => callList
    | some cc => removeLoop found fuel (i + 1) (if found cc then callList.erase cc else callList)

def removeNamed (h : Heap) (callList : List Nat) (name : String) : List Nat :=
  removeLoop (hasName h name) callList.length 0 callList

/-- The outer loop, over the same list. -/
def removeFused (h : Heap) : Nat → Nat → List Nat → List Nat
  | 0, _, callList => callList
  | fuel + 1, i, callList =>
    match callList[i]? with
    | none => callList
    | some call =>
      removeFused h fuel (i + 1) ((stencilNames h call).foldl (removeNamed h) callList)

structure Graph where
  nodes : List Nat
  input : Nat → List Nat
  output : Nat → List Nat

def inputs (h : Heap) (callList : List Nat) (node : Nat) : List Nat :=
  (GroupOp.callArgs h node).filterMap fun (arg : Nat) =>
    if arg ∈ callList then some arg
    else match h[arg]? with
      | some (.tupleGetItem t _) => some t
      | _ => none

def outputs (h : Heap) (callList : List Nat) (node : Nat) : List Nat :=
  callList.flatMap fun c => ((inputs h callList c).filter (· = node)).map fun _ => c

/-- `build_graph`; `none` is the `KeyError` for a producer outside the list. -/
def buildGraph (h : Heap) (expr : Nat) : Option Graph := do
  let callList ← GetCallNode.getCallList h expr
  let callList := removeFused h callList.length 0 callList
  if ∀ c ∈ callList, ∀ d ∈ inputs h callList c, d ∈ callList then
    some ⟨callList, inputs h callList, outputs h callList⟩
  else none

/-- A dependence graph in the order of its keys. -/
abbrev DepenceGraph := List (Nat × NodeAutoFusion.Depence)

/-- `build_depence`; no path is longer than the heap. -/
def buildDepence (h : Heap) (graph : Graph) : DepenceGraph :=
  graph.nodes.map fun node => (node,
    ⟨(NodeAutoFusion.findAll graph.input h.length node).dedup,
      (NodeAutoFusion.findAll graph.output h.length node).dedup⟩)

def isStencilNode (h : Heap) (node : Nat) : Bool :=
  match h[node]? with
  | some (.call (.op _ _) _) => true
  | _ => match opTag h node with
    | some tag => "fuse".toList <:+: tag.toList
    | none => false

/-- The calls without inputs, and the graph without them. -/
def findMaxForThisLevel (h : Heap) (graph : DepenceGraph) : List Nat × DepenceGraph :=
  let listResult := (graph.filter fun node =>
    isStencilNode h node.1 && node.2.input.all fun element => !isStencilNode h element).map Prod.fst
  (listResult, (graph.filter fun node => node.1 ∉ listResult).map fun node =>
    (node.1, ⟨node.2.input.filter (· ∉ listResult), []⟩))

/-- The loop of `solve`; `none` when it does not end within `fuel` rounds. -/
def solveLoop (h : Heap) (inputNodeNumber : Nat) :
    Nat → List (List Nat) → DepenceGraph → Option (List (List Nat))
  | 0, _, _ => none
  | fuel + 1, streamlist, g =>
    if streamlist.flatten.length = inputNodeNumber then some streamlist
    else
      let (l, g) := findMaxForThisLevel h g
      solveLoop h inputNodeNumber fuel (streamlist ++ [l]) g

def solve (fuel : Nat) (h : Heap) (expr : Nat) : Option (List (List Nat)) := do
  let graph ← buildGraph h expr
  solveLoop h graph.nodes.length fuel [] (buildDepence h graph)

end StreamSolver

end StencilGraph.Stream

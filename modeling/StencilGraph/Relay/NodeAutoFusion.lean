import StencilGraph.Framework.MemoVisit
import StencilGraph.Relay.GroupOp

namespace StencilGraph.Relay
open Framework

namespace BuildGraph

/-- What `BuildGraph` visits below a node: never the operator of a call. -/
def children (h : Heap) (x : Nat) : List Nat :=
  match h[x]? with
  | some (.function params body _) => params ++ [body]
  | some n => n.deps
  | none => []

def isCall (h : Heap) (x : Nat) : Bool :=
  match h[x]? with
  | some (.call _ _) => true
  | _ => false

/-- `visit_call` appends the call before it visits the arguments. -/
def visitor (h : Heap) : Visitor (List Nat) where
  children := children h
  enter x callList := some (if isCall h x then callList ++ [x] else callList)
  leave _ callList := some callList

/-- The loop `while isinstance(tuple_value, TupleGetItem)`. -/
def stripItems (h : Heap) : Nat → Nat → Nat
  | 0, x => x
  | fuel + 1, x =>
    match h[x]? with
    | some (.tupleGetItem t _) => stripItems h fuel t
    | _ => x

/-- The calls a call takes its arguments from. -/
def depends (h : Heap) (call : Nat) : List Nat :=
  (GroupOp.callArgs h call).filterMap fun (a : Nat) => match h[a]? with
    | some (.call _ _) => some a
    | some (.tupleGetItem t _) => some (stripItems h h.length t)
    | _ => none

/-- One pass over the dependence graph. -/
def topoRound (graph : List (Nat × List Nat)) (sorted : List Nat) : List Nat :=
  graph.foldl (fun sorted (node, depend) =>
    if node ∉ sorted ∧ ∀ d ∈ depend, d ∈ sorted then sorted ++ [node] else sorted) sorted

def topoSort (graph : List (Nat × List Nat)) : Nat → List Nat → Option (List Nat)
  | 0, sorted => if sorted.length < graph.length then none else some sorted
  | fuel + 1, sorted =>
    if sorted.length < graph.length then topoSort graph fuel (topoRound graph sorted)
    else some sorted

def getCallList (h : Heap) (expr : Nat) : Option (List Nat) := do
  let (_, callList) ← (visitor h).visit (expr + 1) expr ([], [])
  let graph := callList.map fun call => (call, depends h call)
  let sorted ← topoSort graph graph.length []
  if (∀ c ∈ callList, c ∈ sorted) ∧ ∀ c ∈ sorted, c ∈ callList then some sorted else none

end BuildGraph

namespace NodeAutoFusion

/-- The call an argument is computed by, with the expression that uses it. -/
def source (h : Heap) (arg : Nat) : Option Nat :=
  match h[arg]? with
  | some (.call _ _) => some arg
  | some (.tupleGetItem t _) => some t
  | _ => none

/-- `graph[call]["input"]`. -/
def inputs (h : Heap) (call : Nat) : List Nat :=
  ((GroupOp.callArgs h call).filterMap (source h)).dedup

/-- `graph[call]["output"]`. -/
def outputs (h : Heap) (callList : List Nat) (call : Nat) : List Nat :=
  callList.filter fun c => call ∈ inputs h c

/-- `find_father` and `find_child`: direct neighbours, then the neighbours' own. -/
def findAll (next : Nat → List Nat) : Nat → Nat → List Nat
  | 0, _ => []
  | fuel + 1, node => next node ++ (next node).flatMap (findAll next fuel)

structure Depence where
  input : List Nat
  output : List Nat

/-- `build_depence`; `none` is the `KeyError` for an argument outside the list. -/
def buildDepence (h : Heap) (callList : List Nat) : Option (Nat → Depence) :=
  if ∀ c ∈ callList, ∀ d ∈ inputs h c, d ∈ callList then
    some fun c => ⟨findAll (inputs h) h.length c, findAll (outputs h callList) h.length c⟩
  else none

def analysisExclusion (h : Heap) (callList : List Nat) : Option (List (Nat × Nat)) := do
  let graph ← buildDepence h callList
  some (callList.flatMap fun call => (call, call) ::
    (graph call).input.flatMap fun parent => (graph call).output.flatMap fun child =>
      [(parent, child), (child, parent)])

/-- The score of a pair; `size` is the number of elements of a tensor. -/
def score (h : Heap) (size : Nat → Nat) (exclusion : List (Nat × Nat)) (call other : Nat) : Int :=
  if (call, other) ∈ exclusion then -1
  else
    let callArgs := (GroupOp.callArgs h call).dedup
    let otherArgs := (GroupOp.callArgs h other).dedup
    let inputSet := callArgs.filter (· ∈ otherArgs)
    let itemOf (c : Nat) (a : Nat) : Bool := match h[a]? with
      | some (.tupleGetItem t _) => decide (t = c)
      | _ => false
    let stencilSet :=
      if call ∈ otherArgs then [call]
      else if other ∈ callArgs then [other]
      else (callArgs.filter (itemOf other) ++ otherArgs.filter (itemOf call)).dedup
    ((inputSet.map fun t => size t * 1).sum + (stencilSet.map fun t => size t * 2).sum : Nat)

/-- The first pair with the largest score. -/
def findFusePair (score : Nat → Nat → Int) (callList : List Nat) : Option (Nat × Nat) × Int :=
  callList.foldl (fun best call1 => callList.foldl (fun best call2 =>
    if score call1 call2 > best.2 then (some (call1, call2), score call1 call2) else best) best)
    (none, -1)

/-- `get_args`: the calls used by a call, with the expressions that use them. -/
def getArgs (h : Heap) (call : Nat) : List (Nat × Nat) :=
  (GroupOp.callArgs h call).filterMap fun arg => (source h arg).map fun node => (node, arg)

/-- The returned expressions. -/
def retCalls (h : Heap) (body : Nat) : List Nat :=
  match h[body]? with
  | some (.tuple fields) => fields
  | _ => [body]

/-- The uses of calls outside the pair, global results included. -/
def otherArgs (h : Heap) (callList : List Nat) (body call1 call2 : Nat) : List (Nat × Nat) :=
  (callList.filter fun c => c ≠ call1 ∧ c ≠ call2).flatMap (getArgs h) ++
    (retCalls h body).map fun ret => ((source h ret).getD ret, ret)

def usesOf (other : List (Nat × Nat)) (call : Nat) : List Nat :=
  ((other.filter fun u => u.1 = call).map Prod.snd).dedup

/-- Producer and consumer: the producer is an output only if it is used elsewhere. -/
def serialOutputs (other : List (Nat × Nat)) (producer consumer : Nat) : List (Nat × List Nat) :=
  if producer ∈ other.map Prod.fst then
    [(producer, usesOf other producer), (consumer, usesOf other consumer)]
  else [(consumer, usesOf other consumer)]

/-- The group in its fusion order and its outputs with their uses. -/
def groupOutputs (h : Heap) (callList : List Nat) (body call1 call2 : Nat) :
    List Nat × List (Nat × List Nat) :=
  let other := otherArgs h callList body call1 call2
  if call2 ∈ (getArgs h call1).map Prod.fst then
    ([call2, call1], serialOutputs other call2 call1)
  else if call1 ∈ (getArgs h call2).map Prod.fst then
    ([call1, call2], serialOutputs other call1 call2)
  else ([call1, call2], [(call1, usesOf other call1), (call2, usesOf other call2)])

/-- The projections that replace the uses of one output of several results. -/
def mapUses (fused offset : Nat) : List Nat → ReplaceMap × Heap → Option (ReplaceMap × Heap)
  | [], acc => some acc
  | var :: vars, (m, h) =>
    match h[var]? with
    | some (.tupleGetItem _ index) =>
      let (x, h) := GroupOp.alloc (.tupleGetItem fused (offset + index)) h
      mapUses fused offset vars (m ++ [(var, x)], h)
    | _ => none

/-- The replacements for several outputs. -/
def mapOutputs (fused : Nat) :
    List (Nat × List Nat) → Nat → ReplaceMap × Heap → Option (ReplaceMap × Heap)
  | [], _, acc => some acc
  | (out, uses) :: rest, offset, (m, h) =>
    match typeOf h out with
    | .tensor =>
      let (x, h) := GroupOp.alloc (.tupleGetItem fused offset) h
      mapOutputs fused rest (offset + 1) (m ++ [(out, x)], h)
    | .tuple n => do
      let acc ← mapUses fused offset uses (m, h)
      mapOutputs fused rest (offset + n) acc

def relayCallMap (fused : Nat) (outputs : List (Nat × List Nat)) (h : Heap) :
    Option (ReplaceMap × Heap) :=
  match outputs with
  | [(out, _)] => some ([(out, fused)], h)
  | _ => mapOutputs fused outputs 0 ([], h)

/-- `fusion_call2call`; `InferType` changes no expression. -/
def fusionCall2Call (pair : Nat × Nat) (m : Module) (callList : List Nat) : Option Module :=
  match m.heap[m.main]? with
  | some (.function _ body _) => do
    let (group, outputs) := groupOutputs m.heap callList body pair.1 pair.2
    let (fused, h) ← GroupOp.fuse group (outputs.map Prod.fst) m.heap
    let (callMap, h) ← relayCallMap fused outputs h
    let (main, h) ← replaceParams callMap m.main h
    some ⟨h, main⟩
  | _ => none

/-- What the loop reads from outside the module: tensor sizes and the stencils with an `if`. -/
structure Program where
  size : Heap → Nat → Nat
  hasIf : String → Bool

/-- The exclusions of a step: the analysis and every call whose stencil has an `if`. -/
def exclusions (p : Program) (h : Heap) (callList : List Nat) : Option (List (Nat × Nat)) := do
  let exclusion ← analysisExclusion h callList
  let branching := callList.filter fun (c : Nat) => match h[c]? with
    | some (.call (.op name _) _) => p.hasIf name
    | _ => false
  some (exclusion ++ branching.flatMap fun call => callList.flatMap fun other =>
    [(call, other), (other, call)])

/-- One round of the loop of `fuse`: the fused module, or `none` when no pair is left. -/
def fuseStep (p : Program) (m : Module) : Option (Option Module) := do
  let callList ← BuildGraph.getCallList m.heap m.main
  let exclusion ← exclusions p m.heap callList
  match findFusePair (score m.heap (p.size m.heap) exclusion) callList with
  | (none, _) => some none
  | (some pair, _) => (fusionCall2Call pair m callList).map some

/-- The loop of `fuse`, which also stops after 30 steps; `fuseSteps` counts the rounds before. -/
def fuseLoop (p : Program) : Nat → Nat → Module → Option Module
  | 0, _, _ => none
  | fuel + 1, fuseSteps, m => do
    match ← fuseStep p m with
    | none => some m
    | some m => if fuseSteps + 1 ≥ 30 then some m else fuseLoop p fuel (fuseSteps + 1) m

def fuse (p : Program) (m : Module) : Option Module := fuseLoop p 31 0 m

end NodeAutoFusion

end StencilGraph.Relay

import StencilGraph.Framework.UnionFind
import StencilGraph.Fuse.ForwardGraph

namespace StencilGraph.Fuse
open Framework

/-- The `Group` records; group `i` belongs to the node at index `i`. -/
structure Groups where
  parent : Parents
  pattern : Nat → OpPattern
  rootRef : Nat → Ref
  anchorRef : Nat → Option Ref
  numNodes : Nat → Nat

/-- Where the two implementations differ: the effect of merging two complex groups and the width of
`num_nodes`. -/
structure Dialect where
  fatal : Bool
  wrap : Nat → Nat

namespace Dialect

/-- The port only prints a message, and its integers do not overflow. -/
def python : Dialect := ⟨false, id⟩

/-- `LOG(FATAL)` aborts, and `num_nodes` is a `uint32_t`. -/
def cpp : Dialect := ⟨true, fun x => x % 2 ^ 32⟩

end Dialect

namespace GraphPartitioner

/-- Runs `f` over a list until it answers false; `none` is a failed assertion. -/
def allM {α σ : Type} (f : α → σ → Option (Bool × σ)) : List α → σ → Option (Bool × σ)
  | [], s => some (true, s)
  | x :: xs, s => do
    let (ok, s) ← f x s
    if ok then allM f xs s else some (false, s)

/-- `FindRoot` on the group of node `i`. -/
def groupRoot (n i : Nat) (gs : Groups) : Nat × Groups :=
  let (root, parent) := findRoot n i gs.parent
  (root, { gs with parent })

/-- `_CheckPath_`; the state is `visited_` and the groups. -/
def checkPath_ (g : ForwardGraph) (sink : Nat) (fcond : OpPattern → Bool → Bool) :
    Nat → Nat → List Nat × Groups → Option (Bool × List Nat × Groups)
  | 0, _, _ => none
  | fuel + 1, src, (visited, gs) =>
    if src ∈ visited then some (true, visited, gs)
    else
      let (gnode, gs) := groupRoot g.size src gs
      if !fcond (gs.pattern gnode) (src = sink) then some (false, src :: visited, gs)
      else if src = sink then some (true, src :: visited, gs)
      else allM (fun link => checkPath_ g sink fcond fuel link.node) (g.outputs src)
        (src :: visited, gs)

def checkPath (g : ForwardGraph) (src sink : Nat) (fcond : OpPattern → Bool → Bool) (gs : Groups) :
    Option (Bool × Groups) :=
  if g.externRef src ∨ src = sink then none
  else do
    let (ok, _, gs) ← allM (fun link => checkPath_ g sink fcond g.size link.node) (g.outputs src)
      ([], gs)
    some (ok, gs)

def combinePattern (d : Dialect) (lhs rhs : OpPattern) : Option OpPattern :=
  if d.fatal ∧ lhs > .broadcast ∧ rhs > .broadcast then none
  else if lhs > rhs then some lhs
  else some rhs

def mergeFromTo (d : Dialect) (n child parent : Nat) (gs : Groups) : Option Groups :=
  let (child, gs) := groupRoot n child gs
  let (parent, gs) := groupRoot n parent gs
  if child = parent then some gs
  else
    let gs := { gs with
      numNodes := Function.update gs.numNodes parent
        (d.wrap (gs.numNodes parent + gs.numNodes child))
      parent := Function.update gs.parent child (some parent) }
    match gs.anchorRef child with
    | none => some gs
    | some ref =>
      if gs.anchorRef parent ≠ none then none
      else do
        let pattern ← combinePattern d (gs.pattern child) (gs.pattern parent)
        some { gs with
          anchorRef := Function.update gs.anchorRef parent (some ref)
          pattern := Function.update gs.pattern parent pattern }

/-- `CommitFuse_`; the state is `visited_` and the groups. -/
def commitFuse_ (d : Dialect) (g : ForwardGraph) (sink : Nat) :
    Nat → Nat → List Nat × Groups → Option (List Nat × Groups)
  | 0, _, _ => none
  | fuel + 1, src, (visited, gs) =>
    if src = sink then some (visited, gs)
    else if src ∈ visited then some (visited, gs)
    else do
      let gs ← mergeFromTo d g.size src sink gs
      (g.outputs src).foldlM (fun s link => commitFuse_ d g sink fuel link.node s)
        (src :: visited, gs)

def commitFuse (d : Dialect) (g : ForwardGraph) (src sink : Nat) (gs : Groups) : Option Groups :=
  if src = sink then none
  else do
    let (_, gs) ← commitFuse_ d g sink (g.size + 1) src ([], gs)
    some gs

/-- `CountNodesUptoSink_`; returns the sum and `visited_`. -/
def countNodesUptoSink_ (d : Dialect) (g : ForwardGraph) (numNodes : Nat → Nat) (sink : Nat) :
    Nat → Nat → List Nat → Option (Nat × List Nat)
  | 0, _, _ => none
  | fuel + 1, src, visited =>
    if src = sink ∨ src ∈ visited then some (0, visited)
    else
      (g.outputs src).foldlM (fun (total, visited) link => do
        let (count, visited) ← countNodesUptoSink_ d g numNodes sink fuel link.node visited
        some (d.wrap (total + count), visited)) (numNodes src, src :: visited)

def countFusedNodesWithNewChild (d : Dialect) (g : ForwardGraph) (child domParent : Nat)
    (gs : Groups) : Option (Nat × Groups) :=
  if child = domParent then none
  else do
    let (target, gs) := groupRoot g.size domParent gs
    let (count, _) ← countNodesUptoSink_ d g gs.numNodes domParent (g.size + 1) child []
    some (gs.numNodes target + count, gs)

def initGroup (g : ForwardGraph) : Groups where
  parent _ := none
  pattern := g.pattern
  rootRef := g.ref
  anchorRef i := if g.pattern i = .outEWiseFusable then some (g.ref i) else none
  numNodes _ := 1

/-- `if CheckPath(src, sink, fcond): CommitFuse(src, sink)`. -/
def fuseAlong (d : Dialect) (g : ForwardGraph) (src sink : Nat) (fcond : OpPattern → Bool → Bool)
    (gs : Groups) : Option Groups := do
  let (ok, gs) ← checkPath g src sink fcond gs
  if ok then commitFuse d g src sink gs else some gs

def allInjective (kind : OpPattern) (_ : Bool) : Bool := kind ≤ .injective

def allBroadcast (kind : OpPattern) (_ : Bool) : Bool := kind ≤ .broadcast

/-- The sink of a broadcast chain may already belong to an anchored group. -/
def injectiveUptoAnchor (kind : OpPattern) (isSink : Bool) : Bool :=
  if !isSink then kind ≤ .injective
  else kind ≤ .broadcast ∨ kind = .commReduce ∨ kind = .injective ∨ kind = .outEWiseFusable

/-- Phase 2 of the loop body: fuse injective ops into intermediate tuples. -/
def fuseIntoTuple (d : Dialect) (g : ForwardGraph) (nid domParent : Nat) (gs : Groups) :
    Option Groups :=
  if gs.pattern nid > .injective then some gs
  else
    let (domRoot, gs) := groupRoot g.size domParent gs
    if gs.pattern domRoot = .tuple then some gs
    else if gs.pattern domParent = .tuple ∧ gs.pattern domRoot ≤ .injective then
      fuseAlong d g nid domParent allInjective gs
    else some gs

/-- The choice on the pattern of the current group in phases 0 and 1. -/
def fuseByPattern (d : Dialect) (g : ForwardGraph) (phase nid domParent : Nat)
    (domPattern : OpPattern) (gs : Groups) : Option Groups :=
  if gs.pattern nid = .outEWiseFusable then
    if phase ≠ 0 then some gs
    else if domPattern = .elemWise then fuseAlong d g nid domParent allBroadcast gs
    else some gs
  else if gs.pattern nid ≤ .broadcast then
    if domPattern ≤ .injective ∨ domPattern = .commReduce then
      fuseAlong d g nid domParent injectiveUptoAnchor gs
    else some gs
  else if gs.pattern nid = .injective ∨ gs.pattern nid = .tuple then
    if phase ≠ 1 then some gs
    else fuseAlong d g nid domParent allInjective gs
  else if gs.pattern nid = .commReduce then some gs
  else none

/-- The loop body below the depth limit. -/
def fuseNode (d : Dialect) (g : ForwardGraph) (phase nid domParent : Nat) (domPattern : OpPattern)
    (gs : Groups) : Option Groups :=
  if phase = 2 then fuseIntoTuple d g nid domParent gs
  else
    let (root, gs) := groupRoot g.size nid gs
    let (domRoot, gs) := groupRoot g.size domParent gs
    if root = domRoot then some gs
    else if gs.pattern domParent = .tuple then some gs
    else fuseByPattern d g phase nid domParent domPattern gs

/-- The body of the loop of `RunFuse`. -/
def runFuseNode (d : Dialect) (g : ForwardGraph) (tree : DomTree) (maxFuseDepth : Int) (phase : Nat)
    (gs : Groups) (nid : Nat) : Option Groups := do
  let domNode ← tree nid
  if gs.pattern nid = .nonFusable then some gs
  else match domNode.parent with
  | none => some gs
  | some domParent =>
    if g.externRef nid then none
    else do
      let (count, gs) ← countFusedNodesWithNewChild d g nid domParent gs
      if (count : Int) > maxFuseDepth then some gs
      else fuseNode d g phase nid domParent domNode.pattern gs

def runFuse (d : Dialect) (g : ForwardGraph) (tree : DomTree) (maxFuseDepth : Int) (gs : Groups)
    (phase : Nat) : Option Groups :=
  (List.range g.size).foldlM (runFuseNode d g tree maxFuseDepth phase) gs

def partition (d : Dialect) (g : ForwardGraph) (optLevel maxFuseDepth : Int) : Option Groups :=
  if optLevel = 0 then some (initGroup g)
  else do
    let tree ← DominatorTree.postDom g
    [0, 1, 2].foldlM (runFuse d g tree maxFuseDepth) (initGroup g)

end GraphPartitioner

end StencilGraph.Fuse

import Mathlib.Algebra.Order.Ring.Int
import Mathlib.Logic.Relation
import Mathlib.Order.Nat
import Mathlib.Tactic.Common

namespace StencilGraph.Fuse

/-- Operator patterns in the order of their numeric codes. -/
inductive OpPattern where
  | elemWise
  | broadcast
  | injective
  | commReduce
  | outEWiseFusable
  | tuple
  | nonFusable
  deriving DecidableEq, Repr

/-- `kElemWise = 0`, ..., `kTuple = 7`, `kOpaque = 8`. -/
def OpPattern.code : OpPattern → Nat
  | .elemWise => 0
  | .broadcast => 1
  | .injective => 2
  | .commReduce => 3
  | .outEWiseFusable => 4
  | .tuple => 7
  | .nonFusable => 8

instance : LE OpPattern := ⟨fun a b => a.code ≤ b.code⟩
instance : LT OpPattern := ⟨fun a b => a.code < b.code⟩
instance (a b : OpPattern) : Decidable (a ≤ b) := inferInstanceAs (Decidable (a.code ≤ b.code))
instance (a b : OpPattern) : Decidable (a < b) := inferInstanceAs (Decidable (a.code < b.code))

/-- Expressions are compared as objects. -/
abbrev Ref := Nat

/-- The forward edge to the node at index `node` of `post_dfs_order`. -/
structure Edge where
  node : Nat
  pattern : OpPattern
  deriving DecidableEq, Repr

structure Node where
  ref : Ref
  externRef : Bool
  pattern : OpPattern
  outputs : List Edge
  deriving DecidableEq, Repr

/-- The nodes in post-DFS order. -/
structure ForwardGraph where
  postDfsOrder : List Node
  deriving DecidableEq, Repr

namespace ForwardGraph

variable (g : ForwardGraph)

def size : Nat := g.postDfsOrder.length

def outputs (i : Nat) : List Edge := (g.postDfsOrder[i]?.map Node.outputs).getD []

def externRef (i : Nat) : Bool := (g.postDfsOrder[i]?.map Node.externRef).getD false

def pattern (i : Nat) : OpPattern := (g.postDfsOrder[i]?.map Node.pattern).getD .nonFusable

def ref (i : Nat) : Ref := (g.postDfsOrder[i]?.map Node.ref).getD 0

/-- `j` consumes `i`. -/
def Consumes (i j : Nat) : Prop := ∃ e ∈ g.outputs i, e.node = j

/-- `s` is reached from `i` by output edges without passing through `p`. -/
inductive Avoids (p : Nat) : Nat → Nat → Prop where
  | here (i : Nat) (h : i ≠ p) : Avoids p i i
  | next (i j s : Nat) (h : i ≠ p) (e : g.Consumes i j) (t : Avoids p j s) : Avoids p i s

end ForwardGraph

/-- In post-DFS order every output edge goes to a later node. -/
structure IndexedForwardGraph extends ForwardGraph where
  forward : ∀ i, ∀ e ∈ toForwardGraph.outputs i, i < e.node ∧ e.node < toForwardGraph.size

namespace IndexedForwardGraph

variable (g : IndexedForwardGraph)

theorem consumes_lt {i j : Nat} (h : g.Consumes i j) : i < j ∧ j < g.size := by
  obtain ⟨e, he, rfl⟩ := h
  exact g.forward i e he

/-- Induction from the last node backwards. -/
theorem backward_induction {motive : Nat → Prop}
    (step : ∀ i, (∀ j, g.Consumes i j → motive j) → motive i) (i : Nat) : motive i := by
  have key : ∀ k i, g.size ≤ i + k → motive i := by
    intro k
    induction k with
    | zero =>
      intro i hi
      apply step
      intro j hj
      have := g.consumes_lt hj
      omega
    | succ k ih =>
      intro i hi
      apply step
      intro j hj
      have := g.consumes_lt hj
      exact ih j (by omega)
  exact key g.size i (by omega)

end IndexedForwardGraph

/-- Dominator-tree nodes are addressed by the index of their graph node. -/
structure DomNode where
  parent : Option Nat
  depth : Nat
  pattern : OpPattern
  deriving DecidableEq, Repr

/-- `nodes` of `DominatorTree`; entries are filled from the last index down. -/
abbrev DomTree := Nat → Option DomNode

namespace DominatorTree

def combinePattern (lhs rhs : OpPattern) : OpPattern := if lhs > rhs then lhs else rhs

/-- The loop of `LeastCommonAncestor` on two nodes; `none` when a node is missing or the fuel ends. -/
def leastCommonAncestor (tree : DomTree) :
    Nat → Option Nat → Option Nat → OpPattern → Option (Option Nat × OpPattern)
  | 0, _, _, _ => none
  | fuel + 1, lhs, rhs, edgePattern =>
    if lhs = rhs then some (lhs, edgePattern)
    else
      match lhs, rhs with
      | none, _ => some (none, edgePattern)
      | _, none => some (none, edgePattern)
      | some l, some r => do
        let ln ← tree l
        let rn ← tree r
        if ln.depth < rn.depth then
          leastCommonAncestor tree fuel lhs rn.parent (combinePattern edgePattern rn.pattern)
        else if rn.depth < ln.depth then
          leastCommonAncestor tree fuel ln.parent rhs (combinePattern edgePattern ln.pattern)
        else
          leastCommonAncestor tree fuel ln.parent rn.parent
            (combinePattern (combinePattern edgePattern ln.pattern) rn.pattern)

/-- One round of the loop over the remaining output edges. -/
def lcaStep (tree : DomTree) (fuel : Nat) (acc : Option Nat × OpPattern) (link : Edge) :
    Option (Option Nat × OpPattern) := do
  let _ ← tree link.node
  let r ← leastCommonAncestor tree fuel acc.1 (some link.node) acc.2
  some (r.1, combinePattern r.2 link.pattern)

/-- `LeastCommonAncestor` of a list of edges. -/
def leastCommonAncestorList (tree : DomTree) (fuel : Nat) (inputNodes : List Edge)
    (edgePattern : OpPattern) : Option (Option Nat × OpPattern) :=
  match inputNodes with
  | [] => some (none, edgePattern)
  | link :: links => do
    let _ ← tree link.node
    links.foldlM (lcaStep tree fuel) (some link.node, combinePattern edgePattern link.pattern)

def getNode (tree : DomTree) (g : ForwardGraph) (i : Nat) : Option DomNode :=
  if g.externRef i then some ⟨none, 1, .nonFusable⟩
  else do
    let r ← leastCommonAncestorList tree (2 * g.size + 1) (g.outputs i) .elemWise
    match r.1 with
    | none => some ⟨none, 1, r.2⟩
    | some p => do
      let pn ← tree p
      some ⟨some p, pn.depth + 1, r.2⟩

/-- The entries of the indices `size - k, ..., size - 1`. -/
def postDomFrom (g : ForwardGraph) : Nat → Option DomTree
  | 0 => some (fun _ => none)
  | k + 1 => do
    let tree ← postDomFrom g k
    let node ← getNode tree g (g.size - (k + 1))
    some (Function.update tree (g.size - (k + 1)) (some node))

def postDom (g : ForwardGraph) : Option DomTree := postDomFrom g g.size

end DominatorTree

end StencilGraph.Fuse

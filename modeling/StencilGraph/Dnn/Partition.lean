import Mathlib.Logic.Relation
import Mathlib.Tactic.Common

namespace StencilGraph.Dnn

inductive MappingType where
  | oneToOne
  | oneToMany
  | manyToMany
  | reorganize
  | shuffle
  | tuple
  | opaqueType
  | parallel
  deriving DecidableEq, Repr

/-- `DNNFusion.fuseable`. -/
def fuseable (firstOp secondOp : MappingType) : Bool :=
  !(firstOp ∈ [.oneToMany, .manyToMany] ∧ secondOp ∈ [.manyToMany])

/-- `DNNFusion.fuse_table`. -/
def fuseTable (firstOp secondOp : MappingType) : MappingType :=
  if firstOp = .oneToOne then secondOp
  else if firstOp ∈ [.oneToMany, .manyToMany] then firstOp
  else if secondOp ∈ [.oneToMany, .manyToMany] then secondOp
  else if secondOp = .reorganize then .reorganize
  else firstOp

/-- The calls of a dataflow graph in post-DFS order, with the arguments of each call and the
`DFOpPattern` of its operator. An argument is built before the call. -/
structure CallGraph where
  calls : List Nat
  args : Nat → List Nat
  pattern : Nat → MappingType
  nodup : calls.Nodup
  args_lt : ∀ c, ∀ a ∈ args c, a < c

variable (g : CallGraph)

/-- The entry of `build_depends` for a call, one for each argument in the group. -/
def CallGraph.dependsIn (group : List Nat) (c : Nat) : List Nat := (g.args c).filter (· ∈ group)

def buildDepends (callGroup : List Nat) : List (Nat × List Nat) :=
  callGroup.map fun c => (c, g.dependsIn callGroup c)

/-- `depend_relations.pop(node)`, and `depends.remove(node)` for each other entry, which removes one
occurrence. -/
def popNode (relations : List (Nat × List Nat)) (node : Nat) : List (Nat × List Nat) :=
  (relations.filter fun entry => entry.1 ≠ node).map fun entry => (entry.1, entry.2.erase node)

/-- The calls without open dependences. -/
def addNodes (relations : List (Nat × List Nat)) : List Nat :=
  (relations.filter fun entry => entry.2 = []).map Prod.fst

/-- The loop of `topo_sort`. -/
def topoLoop : Nat → List (Nat × List Nat) → List Nat → Option (List Nat)
  | _, [], newCallGroup => some newCallGroup
  | 0, _ :: _, _ => none
  | fuel + 1, entry :: relations, newCallGroup =>
    let nodes := addNodes (entry :: relations)
    topoLoop fuel (nodes.foldl popNode (entry :: relations)) (newCallGroup ++ nodes)

def topoSort (fuel : Nat) (callGroup : List Nat) : Option (List Nat) :=
  topoLoop fuel (buildDepends g callGroup) []

/-- The loop of `get_all_ancestor`. -/
def ancestorLoop (depends : Nat → List Nat) : Nat → List Nat → List Nat → Option (List Nat)
  | _, [], ancestors => some ancestors
  | 0, _ :: _, _ => none
  | fuel + 1, node :: unvisited, ancestors =>
    ancestorLoop depends fuel (unvisited ++ depends node) (node :: ancestors)

/-- The dependences among all calls, `depends_relation`. -/
def CallGraph.depends (c : Nat) : List Nat := g.dependsIn g.calls c

def getAllAncestor (fuel node : Nat) : Option (List Nat) := ancestorLoop g.depends fuel [node] []

/-- The group that is being grown. -/
structure SubGroup where
  members : List Nat
  pattern : MappingType
  candNodes : List Nat
  unfusedNodes : List Nat

structure State where
  callGroup : List Nat
  partialGroup : List (List Nat)
  subGroup : Option SubGroup

inductive Stop where
  | outOfFuel
  | valueError
  deriving DecidableEq

/-- The new candidates after a call was taken into the group. -/
def pushCands (callGroup depends candNodes : List Nat) : List Nat :=
  depends.foldl (fun cands cand =>
    if cand ∈ callGroup ∧ cand ∉ cands then cands ++ [cand] else cands) candNodes

/-- An iteration over a candidate. -/
def visitCand (fuel : Nat) (st : State) (sub : SubGroup) (node : Nat) (cands : List Nat) :
    Except Stop State :=
  if fuseable (g.pattern node) sub.pattern then
    if node ∈ sub.unfusedNodes then .ok { st with subGroup := some { sub with candNodes := cands } }
    else if node ∈ st.callGroup then
      let callGroup := st.callGroup.erase node
      let sub := { sub with
        members := sub.members ++ [node]
        pattern := fuseTable (g.pattern node) sub.pattern
        candNodes := pushCands callGroup (g.depends node) cands }
      .ok { st with callGroup := callGroup, subGroup := some sub }
    -- call_group.remove(node)
    else .error .valueError
  else
    match getAllAncestor g fuel node with
    | none => .error .outOfFuel
    | some ancestors =>
      let sub := { sub with candNodes := cands, unfusedNodes := sub.unfusedNodes ++ ancestors }
      .ok { st with subGroup := some sub }

/-- One step of the two loops: the start of a group, a candidate, or the end of a group. -/
def step (fuel : Nat) (st : State) : Except Stop State :=
  match st.subGroup with
  | none =>
    match st.callGroup.getLast? with
    | none => .ok st
    | some last =>
      let sub := ⟨[last], g.pattern last, g.depends last, []⟩
      .ok { st with callGroup := st.callGroup.erase last, subGroup := some sub }
  | some sub =>
    match sub.candNodes with
    | node :: cands => visitCand g fuel st sub node cands
    | [] =>
      match topoSort g fuel sub.members with
      | none => .error .outOfFuel
      | some group =>
        .ok { st with partialGroup := st.partialGroup ++ [group], subGroup := none }

def State.finished (st : State) : Bool := st.subGroup.isNone && st.callGroup.isEmpty

def run (fuel : Nat) : Nat → State → Except Stop (List (List Nat))
  | 0, _ => .error .outOfFuel
  | steps + 1, st =>
    if st.finished then .ok st.partialGroup
    else
      match step g fuel st with
      | .error e => .error e
      | .ok st => run fuel steps st

def start (callGroup : List Nat) : State := ⟨callGroup, [], none⟩

/-- `DNNFusion.partition`, with a bound on the rounds of each loop. -/
def partition (fuel : Nat) : Except Stop (List (List Nat)) :=
  match topoSort g fuel g.calls with
  | none => .error .outOfFuel
  | some callGroup => run g fuel fuel (start callGroup)

end StencilGraph.Dnn

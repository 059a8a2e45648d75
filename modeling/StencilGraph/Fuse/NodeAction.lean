import StencilGraph.Fuse.PartitionClosed

namespace StencilGraph.Fuse.GraphPartitioner
open Framework

/-- What an iteration of `RunFuse` decides: nothing, or to try `CommitFuse(nid, sink)` under a test of
the path. -/
abbrev Action := Option (Nat × (OpPattern → Bool → Bool))

/-- Phase 2: into intermediate tuples. -/
def tupleAction (g : ForwardGraph) (nid domParent : Nat) (gs : Groups) : Groups × Action :=
  if gs.pattern nid > .injective then (gs, none)
  else
    let (domRoot, gs) := groupRoot g.size domParent gs
    if gs.pattern domRoot = .tuple then (gs, none)
    else if gs.pattern domParent = .tuple ∧ gs.pattern domRoot ≤ .injective then
      (gs, some (domParent, allInjective))
    else (gs, none)

/-- Phases 0 and 1; `none` is the assertion of the last branch. -/
def patternAction (phase domParent : Nat) (pattern domPattern : OpPattern) : Option Action :=
  if pattern = .outEWiseFusable then
    if phase ≠ 0 then some none
    else if domPattern = .elemWise then some (some (domParent, allBroadcast))
    else some none
  else if pattern ≤ .broadcast then
    if domPattern ≤ .injective ∨ domPattern = .commReduce then
      some (some (domParent, injectiveUptoAnchor))
    else some none
  else if pattern = .injective ∨ pattern = .tuple then
    if phase ≠ 1 then some none
    else some (some (domParent, allInjective))
  else if pattern = .commReduce then some none
  else none

def fuseAction (g : ForwardGraph) (phase nid domParent : Nat) (domPattern : OpPattern)
    (gs : Groups) : Option (Groups × Action) :=
  if phase = 2 then some (tupleAction g nid domParent gs)
  else
    let (root, gs) := groupRoot g.size nid gs
    let (domRoot, gs) := groupRoot g.size domParent gs
    if root = domRoot then some (gs, none)
    else if gs.pattern domParent = .tuple then some (gs, none)
    else (patternAction phase domParent (gs.pattern nid) domPattern).map fun action => (gs, action)

def nodeAction (d : Dialect) (g : ForwardGraph) (tree : DomTree) (maxFuseDepth : Int) (phase : Nat)
    (gs : Groups) (nid : Nat) : Option (Groups × Action) := do
  let domNode ← tree nid
  if gs.pattern nid = .nonFusable then some (gs, none)
  else match domNode.parent with
  | none => some (gs, none)
  | some domParent =>
    if g.externRef nid then none
    else do
      let (count, gs) ← countFusedNodesWithNewChild d g nid domParent gs
      if (count : Int) > maxFuseDepth then some (gs, none)
      else fuseAction g phase nid domParent domNode.pattern gs

/-- Carrying out a decision. -/
def act (d : Dialect) (g : ForwardGraph) (nid : Nat) : Groups × Action → Option Groups
  | (gs, none) => some gs
  | (gs, some (sink, fcond)) => fuseAlong d g nid sink fcond gs

theorem fuseIntoTuple_eq (d : Dialect) (g : ForwardGraph) (nid domParent : Nat) (gs : Groups) :
    fuseIntoTuple d g nid domParent gs = act d g nid (tupleAction g nid domParent gs) := by
  unfold fuseIntoTuple tupleAction
  split
  · rfl
  · simp only
    split
    · rfl
    · split <;> rfl

theorem fuseByPattern_eq (d : Dialect) (g : ForwardGraph) (phase nid domParent : Nat)
    (domPattern : OpPattern) (gs : Groups) : fuseByPattern d g phase nid domParent domPattern gs =
      (patternAction phase domParent (gs.pattern nid) domPattern).bind
        fun action => act d g nid (gs, action) := by
  unfold fuseByPattern patternAction
  repeat' split
  all_goals rfl

/-- An iteration decides and then carries out its decision. -/
theorem runFuseNode_eq (d : Dialect) (g : ForwardGraph) (tree : DomTree) (maxFuseDepth : Int)
    (phase : Nat) (gs : Groups) (nid : Nat) : runFuseNode d g tree maxFuseDepth phase gs nid =
      (nodeAction d g tree maxFuseDepth phase gs nid).bind (act d g nid) := by
  have hnode (domParent : Nat) (domPattern : OpPattern) (gs : Groups) :
      fuseNode d g phase nid domParent domPattern gs =
        (fuseAction g phase nid domParent domPattern gs).bind (act d g nid) := by
    unfold fuseNode fuseAction
    split
    · exact fuseIntoTuple_eq d g nid domParent gs
    · simp only
      split
      · rfl
      · split
        · rfl
        · rw [fuseByPattern_eq, Option.bind_map]
          rfl
  unfold runFuseNode nodeAction
  cases tree nid with
  | none => rfl
  | some domNode =>
    simp only [Option.bind_eq_bind, Option.bind_some]
    split
    · rfl
    · cases domNode.parent with
      | none => rfl
      | some domParent =>
        simp only
        split
        · rfl
        · cases countFusedNodesWithNewChild d g nid domParent gs with
          | none => rfl
          | some counted =>
            simp only [Option.bind_some]
            split
            · rfl
            · exact hnode domParent domNode.pattern counted.2

section Spec

variable {gs : Groups}

theorem tupleAction_spec (g : ForwardGraph) (hf : Forest g.size gs.parent) (nid domParent : Nat) :
    Compressed g.size gs (tupleAction g nid domParent gs).1 ∧
      ∀ sink fcond, (tupleAction g nid domParent gs).2 = some (sink, fcond) →
        sink = domParent ∧ SafeTest fcond (gs.pattern nid) := by
  obtain ⟨-, hcomp⟩ := groupRoot_spec hf domParent
  unfold tupleAction
  split
  · exact ⟨Compressed.refl hf, fun _ _ h => by cases h⟩
  · rename_i hinj
    have hne : gs.pattern nid ≠ .outEWiseFusable := by
      intro hout
      rw [hout] at hinj
      exact hinj (by decide)
    simp only
    split
    · exact ⟨hcomp, fun _ _ h => by cases h⟩
    · split
      · refine ⟨hcomp, fun sink fcond h => ?_⟩
        obtain ⟨rfl, rfl⟩ := Prod.mk.inj (Option.some.inj h)
        exact ⟨rfl, safe_allInjective hne⟩
      · exact ⟨hcomp, fun _ _ h => by cases h⟩

/-- The assertion of the last branch holds, and the tests are safe. -/
theorem patternAction_spec (phase domParent : Nat) {pattern : OpPattern} (domPattern : OpPattern)
    (hp : pattern ≠ .nonFusable) :
    ∃ action, patternAction phase domParent pattern domPattern = some action ∧
      ∀ sink fcond, action = some (sink, fcond) → sink = domParent ∧ SafeTest fcond pattern := by
  have hnothing : ∃ action : Action, some none = some action ∧
      ∀ sink fcond, action = some (sink, fcond) → sink = domParent ∧ SafeTest fcond pattern :=
    ⟨none, rfl, fun _ _ h => by cases h⟩
  have htest {fcond : OpPattern → Bool → Bool} (hsafe : SafeTest fcond pattern) :
      ∃ action : Action, some (some (domParent, fcond)) = some action ∧
        ∀ sink fcond, action = some (sink, fcond) → sink = domParent ∧ SafeTest fcond pattern := by
    refine ⟨_, rfl, fun sink fcond' h => ?_⟩
    obtain ⟨rfl, rfl⟩ := Prod.mk.inj (Option.some.inj h)
    exact ⟨rfl, hsafe⟩
  unfold patternAction
  by_cases hout : pattern = .outEWiseFusable
  · simp only [hout, if_true]
    split
    · exact hout ▸ hnothing
    · split
      · exact hout ▸ htest (safe_allBroadcast _)
      · exact hout ▸ hnothing
  · simp only [hout, if_false]
    split
    · split
      · exact htest (safe_injectiveUptoAnchor hout)
      · exact hnothing
    · split
      · split
        · exact hnothing
        · exact htest (safe_allInjective hout)
      · rename_i hb hi
        have hcomm : pattern = .commReduce := by
          revert hb hi hout hp
          cases pattern <;> decide
        rw [if_pos hcomm]
        exact hnothing

variable (g : IndexedForwardGraph) {tree : DomTree}

/-- An iteration only compresses paths before it decides, and what it decides is safe. -/
theorem nodeAction_spec (d : Dialect) (hb : DominatorTree.Built g.toForwardGraph 0 tree)
    (maxFuseDepth : Int) (phase nid : Nat) (hn : nid < g.size) (hc : Closed g.toForwardGraph gs) :
    ∃ gs₁ action, nodeAction d g.toForwardGraph tree maxFuseDepth phase gs nid = some (gs₁, action) ∧
      Compressed g.size gs gs₁ ∧ ∀ sink fcond, action = some (sink, fcond) →
        tree.up nid = some sink ∧ SafeTest fcond (gs₁.pattern nid) ∧
        ∃ count gs₂, countFusedNodesWithNewChild d g.toForwardGraph nid sink gs = some (count, gs₂) ∧
          (count : Int) ≤ maxFuseDepth := by
  obtain ⟨dn, hdn⟩ := hb.levelled.filled nid (Nat.zero_le _) hn
  have hup := DominatorTree.up_of_node hdn
  unfold nodeAction
  simp only [hdn, Option.bind_eq_bind, Option.bind_some]
  split
  · exact ⟨gs, none, rfl, Compressed.refl hc.forest, fun _ _ h => by cases h⟩
  · rename_i hop
    cases hpar : dn.parent with
    | none => exact ⟨gs, none, rfl, Compressed.refl hc.forest, fun _ _ h => by cases h⟩
    | some domParent =>
      rw [hpar] at hup
      have hext := ((hb.chosen nid (Nat.zero_le _) hn).dom domParent hup).1
      have hne : nid ≠ domParent := (hb.levelled.forest nid domParent hup).1.ne
      obtain ⟨count, gs₁, hcount, hcomp, -⟩ :=
        countFusedNodesWithNewChild_spec g d hc nid domParent hne hn
      simp only [hext, Bool.false_eq_true, if_false, hcount, Option.bind_some]
      split
      · exact ⟨gs₁, none, rfl, hcomp, fun _ _ h => by cases h⟩
      · rename_i hmax
        unfold fuseAction
        split
        · obtain ⟨hcomp', hsafe⟩ := tupleAction_spec g.toForwardGraph hcomp.forest nid domParent
          generalize tupleAction g.toForwardGraph nid domParent gs₁ = decided at hcomp' hsafe
          refine ⟨decided.1, decided.2, rfl, hcomp.trans hcomp', fun sink fcond h => ?_⟩
          obtain ⟨rfl, htest⟩ := hsafe sink fcond h
          rw [hcomp'.pattern]
          exact ⟨hup, htest, count, gs₁, hcount, Int.not_lt.mp hmax⟩
        · obtain ⟨-, hcomp₁⟩ := groupRoot_spec hcomp.forest nid
          obtain ⟨-, hcomp₂⟩ := groupRoot_spec hcomp₁.forest domParent
          have hcomp' := (hcomp.trans hcomp₁).trans hcomp₂
          simp only
          split
          · exact ⟨_, none, rfl, hcomp', fun _ _ h => by cases h⟩
          · split
            · exact ⟨_, none, rfl, hcomp', fun _ _ h => by cases h⟩
            · rw [← hcomp'.pattern] at hop
              obtain ⟨action, haction, hsafe⟩ := patternAction_spec phase domParent dn.pattern hop
              refine ⟨_, action, by rw [haction]; rfl, hcomp', fun sink fcond h => ?_⟩
              obtain ⟨rfl, htest⟩ := hsafe sink fcond h
              exact ⟨hup, htest, count, gs₁, hcount, Int.not_lt.mp hmax⟩

end Spec

end StencilGraph.Fuse.GraphPartitioner

import StencilGraph.Plan.BaseVisitor

namespace StencilGraph.Plan

/-- A tensor type. A dimension that is not a constant has no value. -/
structure TensorType where
  shape : List (Option Int)
  bits : Nat
  lanes : Nat
  deriving DecidableEq

def divRoundUp (size wordSize : Nat) : Nat := (size + wordSize - 1) / wordSize

/-- One dimension of the shape, which must be known and not negative. -/
def scaleSize (size : Nat) (dim : Option Int) : Option Nat := do
  let pval ← dim
  if pval < 0 then none else some (size * pval.toNat)

/-- The memory requirement of a token of the type. -/
def getMemorySize (ttype : TensorType) : Option Nat := do
  let size ← ttype.shape.foldlM scaleSize 1
  some (size * divRoundUp (ttype.bits * ttype.lanes) 8)

/-- `StorageToken`. There is no storage id and no device before the token is allocated. -/
structure Storage (δ : Type) where
  ttype : TensorType
  refCounter : Int
  maxBytes : Nat
  virtualDevice : Option δ
  storageId : Option Nat
  deriving DecidableEq

/-- The tokens, and what is known about the blocks of memory behind them. -/
structure Pool (δ : Type) where
  arena : Nat → Storage δ
  -- free_, in the order of the sizes
  free : List (Nat × Nat)
  -- data_
  data : List Nat

-- the scale of the rough match
def matchRange : Nat := 16

namespace Pool

variable {δ : Type}

def modify (pool : Pool δ) (tok : Nat) (f : Storage δ → Storage δ) : Pool δ :=
  { pool with arena := Function.update pool.arena tok (f (pool.arena tok)) }

/-- A token becomes a block of its own. -/
def alloc (prototype size : Nat) (device : δ) (pool : Pool δ) : Pool δ :=
  { pool.modify prototype fun tok =>
      { tok with maxBytes := size, virtualDevice := device, storageId := some pool.data.length }
    with data := pool.data ++ [prototype] }

/-- A block of the free list is used for another token. -/
def reuse (prototype size tok : Nat) (free : List (Nat × Nat)) (pool : Pool δ) : Option (Nat × Pool δ) :=
  if (pool.arena tok).refCounter = 0 then
    let refCounter := (pool.arena prototype).refCounter
    some (tok, { pool with free := free }.modify tok fun tok =>
      { tok with maxBytes := max size tok.maxBytes, refCounter := refCounter })
  else none

/-- `Request`: a free block on the device, of a size that is not too far from the requested one. First
the larger ones, from the smallest up, then the smaller ones, from the largest down. -/
def request [DecidableEq δ] (prototype : Nat) (device : δ) (pool : Pool δ) : Option (Nat × Pool δ) := do
  let size ← getMemorySize (pool.arena prototype).ttype
  let isCompatible (entry : Nat × Nat) : Bool := (pool.arena entry.2).virtualDevice = some device
  let larger (entry : Nat × Nat) : Bool :=
    size ≤ entry.1 && entry.1 ≤ size * matchRange && isCompatible entry
  let smaller (entry : Nat × Nat) : Bool :=
    size / matchRange ≤ entry.1 && entry.1 < size && isCompatible entry
  match pool.free.find? larger with
  | some entry => pool.reuse prototype size entry.2 (pool.free.eraseP larger)
  | none =>
    match pool.free.reverse.find? smaller with
    | some entry => pool.reuse prototype size entry.2 (pool.free.reverse.eraseP smaller).reverse
    | none => some (prototype, pool.alloc prototype size device)

/-- A token that is never given back. -/
def pin (prototype : Nat) (device : δ) (pool : Pool δ) : Option (Nat × Pool δ) := do
  let size ← getMemorySize (pool.arena prototype).ttype
  some (prototype, (pool.alloc prototype size device).modify prototype fun tok =>
    { tok with refCounter := tok.refCounter + 1 })

/-- The free list is a multimap: an entry comes after those of its size. -/
def checkForRelease (pool : Pool δ) (tok : Nat) : Option (Pool δ) :=
  if (pool.arena tok).storageId = none ∨ (pool.arena tok).refCounter < 0 then none
  else if (pool.arena tok).refCounter = 0 then
    let entry := ((pool.arena tok).maxBytes, tok)
    some { pool with free := pool.free.orderedInsert (fun entry entry' => entry.1 < entry'.1) entry }
  else some pool

/-- An argument has been read. -/
def release (pool : Pool δ) (tok : Nat) : Option (Pool δ) :=
  (pool.modify tok fun tok => { tok with refCounter := tok.refCounter - 1 }).checkForRelease tok

end Pool

/-- The state of the second pass. -/
structure Allocation (δ : Type) extends Pool δ where
  tokenMap : Nat → Option (List Nat)
  visited : List Nat

namespace Allocation

variable {δ : Type}

def record (e : Nat) (tokens : List Nat) (st : Allocation δ) : Allocation δ :=
  { st with tokenMap := Function.update st.tokenMap e (some tokens) }

def mark (e : Nat) (st : Allocation δ) : Allocation δ := { st with visited := e :: st.visited }

def charge (tokens : List Nat) (st : Allocation δ) : Allocation δ :=
  { st with toPool := tokens.foldl (fun pool tok => pool.modify tok fun tok =>
    { tok with refCounter := tok.refCounter + 1 }) st.toPool }

/-- The maps of the base visitor. -/
def maps (st : Allocation δ) : State TensorType := ⟨st.tokenMap, st.visited, []⟩

end Allocation

/-- What the second pass knows of a function besides its expressions. -/
structure Lowered (δ : Type) extends Func TensorType where
  virtualDevice : Nat → δ
  -- a call of a lowered function that only reshapes its argument
  reshapeOnly : Nat → Bool
  -- the tokens of the first pass
  prototype : Nat → Option (List Nat)

namespace Lowered

variable {δ : Type} [DecidableEq δ] (f : Lowered δ)

/-- The tokens of an expression, one for each prototype. -/
def takeTokens (take : Nat → Pool δ → Option (Nat × Pool δ)) (prototypes : List Nat)
    (st : List Nat × Pool δ) : Option (List Nat × Pool δ) :=
  prototypes.foldlM (fun st prototype => do
    let (tok, pool) ← take prototype st.2
    some (st.1 ++ [tok], pool)) st

/-- `CreateToken`. The prototypes are on the device of the expression, where the first pass put them. -/
def createToken (canRealloc : Bool) (e : Nat) (st : Allocation δ) : Option (Allocation δ) :=
  match st.tokenMap e with
  | some _ => none
  | none => do
    let prototypes ← f.prototype e
    let device := f.virtualDevice e
    let take (prototype : Nat) (pool : Pool δ) : Option (Nat × Pool δ) :=
      if canRealloc then pool.request prototype device else pool.pin prototype device
    let (tokens, pool) ← takeTokens take prototypes ([], st.toPool)
    some (Allocation.record e tokens { st with toPool := pool })

/-- The result of a call is kept where its argument is. -/
def reuseInputToken (e token : Nat) (st : Allocation δ) : Option (Allocation δ) :=
  match st.tokenMap e, f.prototype e with
  | none, some [prototype] =>
    let refCounter := (st.arena prototype).refCounter
    some (Allocation.record e [token] { st with toPool := st.toPool.modify token fun tok =>
      { tok with refCounter := tok.refCounter + refCounter } })
  | _, _ => none

/-- The arguments of a call of a lowered function. -/
def arguments (e : Nat) : List Nat :=
  match f.node e with
  | .call [tuple] =>
    match f.node tuple with
    | .tuple fields => fields
    | _ => []
  | _ => []

def createOutput (e : Nat) (args : List Nat) (st : Allocation δ) : Option (Allocation δ) :=
  if f.reshapeOnly e then
    if (f.arguments e).length = 1 then do
      let token ← args[0]?
      f.reuseInputToken e token st
    else none
  else f.createToken true e st

def visitCall (visit : Nat → Allocation δ → Option (Allocation δ)) (e : Nat) (args : List Nat)
    (st : Allocation δ) : Option (Allocation δ) := do
  let (args, st) ← BaseVisitor.getTokens Allocation.maps f.toFunc visit args ([], st)
  let st ← f.createOutput e args st
  let outputs ← st.tokenMap e
  -- an output that nothing reads is free at once
  let pool ← outputs.foldlM Pool.checkForRelease st.toPool
  let pool ← args.foldlM Pool.release pool
  some { st with toPool := pool }

/-- `StorageAllocator` as a subclass of the base visitor. -/
def allocator : BaseVisitor TensorType (Allocation δ) where
  maps := Allocation.maps
  record := Allocation.record
  mark := Allocation.mark
  createToken := f.createToken false
  visitCall := f.visitCall
  charge := Allocation.charge

end Lowered

section Plan

variable {δ : Type}

/-- The tokens as the first pass leaves them. -/
def initialArena (arena : List (StorageToken TensorType)) (tok : Nat) : Storage δ :=
  match arena[tok]? with
  | some tok => ⟨tok.ttype, tok.refCounter, 0, none, none⟩
  | none => ⟨⟨[], 0, 0⟩, 0, 0, none, none⟩

/-- `Plan`: both passes. -/
def plan [DecidableEq δ] (f : Func TensorType) (virtualDevice : Nat → δ)
    (reshapeOnly : Nat → Bool) : Option (Allocation δ) := do
  let st ← run f
  let lowered : Lowered δ := ⟨f, virtualDevice, reshapeOnly, st.tokenMap⟩
  lowered.allocator.run f ⟨⟨initialArena st.arena, [], []⟩, fun _ => none, []⟩

end Plan

end StencilGraph.Plan

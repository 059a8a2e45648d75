import StencilGraph.Arith.Expr
import StencilGraph.Arith.IntOperator

namespace StencilGraph.Arith
open Framework

/-- The number that represents +inf. -/
def kPosInf : Int := 9223372036854775807

/-- The number that represents -inf. -/
def kNegInf : Int := -9223372036854775807

/-- A bound that a caller may give: numbers from `kNegInf`, which is -inf, to `kPosInf`, +inf. -/
structure ConstIntBound where
  minValue : Int
  maxValue : Int
  min_ge : kNegInf ≤ minValue
  max_le : maxValue ≤ kPosInf

namespace ConstIntBoundAnalyzer

/-- The checks that can fail; a shift count outside the width of the type is undefined. -/
inductive Check where
  | updateConflict
  | divideByZero
  | modByZero
  | floordivByZero
  | floormodByZero
  | oppositeInf
  | zeroDivisor
  | undefinedShift
  | scopeSize
  deriving DecidableEq, Repr

structure Entry where
  minValue : Int
  maxValue : Int
  deriving DecidableEq, Repr

def Entry.isConst (e : Entry) (value : Int) : Bool :=
  e.minValue = e.maxValue ∧ e.minValue = value

/-- Additional bound info about an expression. -/
structure BoundInfo where
  expr : PrimExpr
  bound : Entry

def makeBound (minValue maxValue : Int) : Entry where
  minValue := if minValue = kPosInf then minValue - 1 else minValue
  maxValue := if maxValue = kNegInf then maxValue + 1 else maxValue

def union (a b : Entry) : Entry := ⟨min a.minValue b.minValue, max a.maxValue b.maxValue⟩

def intersect (a b : Entry) : Entry := ⟨max a.minValue b.minValue, min a.maxValue b.maxValue⟩

/-- Everything a type can represent. -/
def everything (dt : DataType) : Entry :=
  if dt.isInt = false ∧ dt.isUInt = false then makeBound kNegInf kPosInf
  else
    let vbits := dt.bits - (if dt.isInt then 1 else 0)
    { minValue := if dt.isUInt then 0 else if vbits ≥ 63 then kNegInf else -2^vbits
      maxValue := if vbits ≥ 63 then kPosInf else 2^vbits - 1 }

def infAwareAdd (x y : Int) : Except Check Int :=
  if x = kPosInf then if y = kNegInf then .error .oppositeInf else .ok kPosInf
  else if x = kNegInf then if y = kPosInf then .error .oppositeInf else .ok kNegInf
  else if y = kPosInf ∨ y = kNegInf then .ok y
  else if willOverflowAdd x y kNegInf kPosInf then .ok (if x > 0 then kPosInf else kNegInf)
  else .ok (x + y)

def infAwareMul (x y : Int) : Except Check Int :=
  if willOverflowMul x y kNegInf kPosInf = false then .ok (x * y)
  else if (x > 0 ∧ y > 0) ∨ (x < 0 ∧ y < 0) then .ok kPosInf
  else .ok kNegInf

/-- `InfAwareDiv` and `InfAwareFloorDiv`, which differ in the division of finite values. -/
def infAwareQuotient (quotient : Int → Int → Int) (x y : Int) : Except Check Int :=
  if y = 0 then .error .zeroDivisor
  else if x = kPosInf ∨ x = kNegInf then .ok (if y > 0 then x else -x)
  else .ok (int64 (quotient x y))

def infAwareDiv : Int → Int → Except Check Int := infAwareQuotient Int.tdiv

def infAwareFloorDiv : Int → Int → Except Check Int := infAwareQuotient floordiv

def infAwareRightShift (x y : Int) : Except Check Int :=
  if x = kPosInf ∨ x = kNegInf then .ok x
  else if 0 ≤ y ∧ y < 64 then .ok (x.shiftRight y.toNat)
  else .error .undefinedShift

/-- The boundary of an operation that is monotonic in each argument. -/
def binaryOpBoundary (a b : Entry) (op : Int → Int → Except Check Int) : Except Check Entry := do
  let v1 ← op a.minValue b.minValue
  let v2 ← op a.maxValue b.maxValue
  let v3 ← op a.minValue b.maxValue
  let v4 ← op a.maxValue b.minValue
  .ok ⟨min (min (min v1 v2) v3) v4, max (max (max v1 v2) v3) v4⟩

def handleDivision (a b : Entry) (dt : DataType) (op : Int → Int → Except Check Int) :
    Except Check Entry :=
  if b.minValue ≤ 0 ∧ 0 ≤ b.maxValue ∧ dt.isInt then do
    -- the range of the divisor is cut at 0
    let bNeg := if b.minValue < 0 then makeBound b.minValue (-1) else everything dt
    let bPos := if b.maxValue > 0 then makeBound 1 b.maxValue else everything dt
    let eNeg ← binaryOpBoundary a bNeg op
    let ePos ← binaryOpBoundary a bPos op
    .ok (makeBound (min eNeg.minValue ePos.minValue) (max eNeg.maxValue ePos.maxValue))
  else if b.minValue = 0 ∧ dt.isUInt then binaryOpBoundary a (makeBound 1 b.maxValue) op
  else binaryOpBoundary a b op

def visitAdd (a b : Entry) : Except Check Entry := do
  let minValue ← infAwareAdd a.minValue b.minValue
  let maxValue ← infAwareAdd a.maxValue b.maxValue
  .ok ⟨minValue, maxValue⟩

def visitSub (a b : Entry) : Except Check Entry := do
  let minValue ← infAwareAdd a.minValue (int64 (-b.maxValue))
  let maxValue ← infAwareAdd a.maxValue (int64 (-b.minValue))
  .ok ⟨minValue, maxValue⟩

def visitMod (dt : DataType) (a b : Entry) : Except Check Entry :=
  if b.minValue > 0 then do
    let bMaxCap ← infAwareAdd b.maxValue (-1)
    if a.minValue ≥ 0 then
      if a.maxValue < b.minValue then .ok a
      else .ok (makeBound 0 (min a.maxValue bMaxCap))
    else .ok (makeBound (max a.minValue (-bMaxCap)) (min (max a.maxValue 0) bMaxCap))
  else if b.isConst 0 then .error .modByZero
  else .ok (everything dt)

def visitFloorMod (dt : DataType) (a b : Entry) : Except Check Entry :=
  if b.minValue > 0 then do
    let bMaxCap ← infAwareAdd b.maxValue (-1)
    if a.minValue ≥ 0 then
      if a.maxValue < b.minValue then .ok a
      else .ok (makeBound 0 (min a.maxValue bMaxCap))
    else .ok (makeBound 0 bMaxCap)
  else if b.isConst 0 then .error .floormodByZero
  else do
    let bMinCap ← infAwareAdd b.minValue 1
    let bMaxCap ← infAwareAdd b.maxValue (-1)
    .ok (intersect (makeBound (min 0 bMinCap) (max 0 bMaxCap)) (everything dt))

/-- The rule of each arithmetic node. -/
def visitBinary (op : BinaryOp) (dt : DataType) (a b : Entry) : Except Check Entry :=
  match op with
  | .add => visitAdd a b
  | .sub => visitSub a b
  | .mul => binaryOpBoundary a b infAwareMul
  | .div => if b.isConst 0 then .error .divideByZero else handleDivision a b dt infAwareDiv
  | .mod => visitMod dt a b
  | .floorDiv =>
    if b.isConst 0 then .error .floordivByZero else handleDivision a b dt infAwareFloorDiv
  | .floorMod => visitFloorMod dt a b
  | .min => .ok ⟨min a.minValue b.minValue, min a.maxValue b.maxValue⟩
  | .max => .ok ⟨max a.minValue b.minValue, max a.maxValue b.maxValue⟩

def visitBitwiseAnd (dt : DataType) (a b : Entry) : Entry :=
  if a.minValue ≥ 0 ∧ b.minValue ≥ 0 then makeBound 0 (min a.maxValue b.maxValue)
  else if b.minValue ≥ 0 then makeBound 0 b.maxValue
  else if a.minValue ≥ 0 then makeBound 0 a.maxValue
  else everything dt

/-- The analyzer; `scopes` are the recovery functions that have not been called yet, each with the
sizes before and after it. -/
structure Impl where
  varMap : VarRef → Option Entry
  additionalInfo : List BoundInfo
  scopes : List (Option (Nat × Nat))

def Impl.new : Impl := ⟨fun _ => none, [], []⟩

/-- The linear search over the additional info. -/
def Impl.refine (s : Impl) (expr : PrimExpr) (res : Entry) : Entry :=
  s.additionalInfo.foldl (fun res info => if expr = info.expr then intersect res info.bound else res)
    res

def visitExpr : PrimExpr → Impl → Except Check Entry
  | .intImm dt value, s => .ok (s.refine (.intImm dt value) (makeBound value value))
  | .var v dt, s => .ok (s.refine (.var v dt) ((s.varMap v).getD (everything dt)))
  | .sizeVar v dt, s => .ok (s.refine (.sizeVar v dt) ((s.varMap v).getD (makeBound 0 kPosInf)))
  | .cast dt e, s => do
    let a ← visitExpr e s
    .ok (s.refine (.cast dt e) (intersect a (everything dt)))
  | .binary op a b, s => do
    let ea ← visitExpr a s
    let eb ← visitExpr b s
    let res ← visitBinary op a.dtype ea eb
    .ok (s.refine (.binary op a b) res)
  | .compare op a b, s => .ok (s.refine (.compare op a b) (everything .bool))
  | .and a b, s => .ok (s.refine (.and a b) (everything .bool))
  | .or a b, s => .ok (s.refine (.or a b) (everything .bool))
  | .not a, s => .ok (s.refine (.not a) (everything .bool))
  | .select c t f, s => do
    let a ← visitExpr t s
    let b ← visitExpr f s
    .ok (s.refine (.select c t f) (union a b))
  | .letIn v value body, s => do
    let ret ← match s.varMap v with
      | none => do
        let bound ← visitExpr value s
        visitExpr body { s with varMap := Function.update s.varMap v (some bound) }
      | some _ => visitExpr body s
    .ok (s.refine (.letIn v value body) ret)
  | .shiftRight a b, s => do
    let ea ← visitExpr a s
    let eb ← visitExpr b s
    let res ← binaryOpBoundary ea eb infAwareRightShift
    .ok (s.refine (.shiftRight a b) res)
  | .bitwiseAnd a b, s => do
    let ea ← visitExpr a s
    let eb ← visitExpr b s
    .ok (s.refine (.bitwiseAnd a b) (visitBitwiseAnd a.dtype ea eb))

def updateEntry (s : Impl) (v : VarRef) (info : Entry) (allowOverride : Bool) : Except Check Impl :=
  if allowOverride = false ∧ (s.varMap v).any (· ≠ info) then .error .updateConflict
  else .ok { s with varMap := Function.update s.varMap v (some info) }

def update (s : Impl) (v : VarRef) (info : ConstIntBound) (allowOverride : Bool) :
    Except Check Impl :=
  updateEntry s v (makeBound info.minValue info.maxValue) allowOverride

/-- `Bind` of a variable to a range. -/
def bind (s : Impl) (v : VarRef) (rangeMin rangeExtent : PrimExpr) (allowOverride : Bool) :
    Except Check Impl := do
  let a ← visitExpr rangeMin s
  let b ← visitExpr rangeExtent s
  let last ← infAwareAdd b.maxValue (-1)
  let maxValue ← infAwareAdd a.maxValue last
  updateEntry s v ⟨a.minValue, maxValue⟩ allowOverride

/-- Constant bounds in a condition. -/
def detectBoundInfo : PrimExpr → List BoundInfo
  | .compare .le (.intImm _ c) x => [⟨x, makeBound c kPosInf⟩]
  | .compare .lt (.intImm _ c) x => [⟨x, makeBound (int64 (c + 1)) kPosInf⟩]
  | .compare .le x (.intImm _ c) => [⟨x, makeBound kNegInf c⟩]
  | .compare .lt x (.intImm _ c) => [⟨x, makeBound kNegInf (int64 (c - 1))⟩]
  | .and x y => detectBoundInfo x ++ detectBoundInfo y
  | _ => []

def enterConstraint (s : Impl) (constraint : PrimExpr) : Impl :=
  let info := detectBoundInfo constraint
  if info.length = 0 then { s with scopes := none :: s.scopes }
  else
    let oldSize := s.additionalInfo.length
    { s with
      additionalInfo := s.additionalInfo ++ info
      scopes := some (oldSize, oldSize + info.length) :: s.scopes }

/-- Leaving the last scope calls its recovery function, if it has one. -/
def exitConstraint (s : Impl) : Except Check Impl :=
  match s.scopes with
  | [] => .ok s
  | none :: rest => .ok { s with scopes := rest }
  | some (oldSize, newSize) :: rest =>
    if s.additionalInfo.length = newSize then
      .ok { s with additionalInfo := s.additionalInfo.take oldSize, scopes := rest }
    else .error .scopeSize

/-- What a caller does with the analyzer. -/
inductive Act where
  | bind (v : VarRef) (rangeMin rangeExtent : PrimExpr) (allowOverride : Bool)
  | update (v : VarRef) (info : ConstIntBound) (allowOverride : Bool)
  | enterConstraint (constraint : PrimExpr)
  | exitConstraint

def perform (s : Impl) : Act → Except Check Impl
  | .bind v rangeMin rangeExtent allowOverride => bind s v rangeMin rangeExtent allowOverride
  | .update v info allowOverride => update s v info allowOverride
  | .enterConstraint constraint => .ok (enterConstraint s constraint)
  | .exitConstraint => exitConstraint s

/-- The analyzer after a sequence of calls. -/
def run (acts : List Act) : Except Check Impl := acts.foldlM perform .new

end ConstIntBoundAnalyzer

end StencilGraph.Arith

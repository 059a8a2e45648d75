import StencilGraph.Arith.Expr
import StencilGraph.Arith.IntOperator

namespace StencilGraph.Arith.ModularSetAnalyzer

/-- The checks that can fail, and the operations that are undefined. -/
inductive Check where
  | updateConflict
  | negativeCoeff
  | zeroDivisor
  | divisorIsZero
  | zeroGcd
  | undefinedShift
  deriving DecidableEq, Repr

/-- The numbers `coeff * x + base`. -/
structure Entry where
  coeff : Int := 1
  base : Int := 0
  deriving DecidableEq, Repr

/-- The constructor `Entry(coeff, base)`. -/
def Entry.make (coeff base : Int) : Except Check Entry :=
  if coeff < 0 then .error .negativeCoeff
  else if coeff ≠ 0 then
    let base := base.tmod coeff
    .ok ⟨coeff, if base < 0 then base + coeff else base⟩
  else .ok ⟨coeff, base⟩

def Entry.isConst (e : Entry) : Bool := e.coeff = 0

def everything : Entry := ⟨1, 0⟩

def nothing : Entry := ⟨0, 1⟩

section Arithmetic

-- what becomes of a sum, difference or product: `id` when the arithmetic is unbounded
variable (num : Int → Int)

def union (a b : Entry) : Except Check Entry :=
  let coeff := zeroAwareGCD num a.coeff b.coeff
  if coeff = 0 then .ok (if a.base = b.base then a else everything)
  else
    let base0 := a.base.tmod coeff
    let base1 := b.base.tmod coeff
    if base0 = base1 then Entry.make coeff base0
    else Entry.make (zeroAwareGCD num (zeroAwareGCD num base0 base1) coeff) base0

def intersect (a b : Entry) : Except Check Entry :=
  let (gcd, x, _) := extendedEuclidean num a.coeff b.coeff
  let v := num (b.base - a.base)
  if gcd = 0 then .error .zeroGcd
  else if v.tmod gcd = 0 then
    let x := num (v.tdiv gcd * x)
    let coeff := num (a.coeff.tdiv gcd * b.coeff)
    Entry.make coeff (num (num (x * a.coeff) + a.base))
  else .ok nothing

def visitAdd (a b : Entry) : Except Check Entry :=
  Entry.make (zeroAwareGCD num a.coeff b.coeff) (num (a.base + b.base))

def visitSub (a b : Entry) : Except Check Entry :=
  Entry.make (zeroAwareGCD num a.coeff b.coeff) (num (a.base - b.base))

def visitMul (a b : Entry) : Except Check Entry :=
  let pq := num (a.coeff * b.coeff)
  let pm := num (a.coeff * b.base)
  let qn := num (a.base * b.coeff)
  Entry.make (zeroAwareGCD num pq (zeroAwareGCD num pm qn)) (num (a.base * b.base))

/-- `DivByConst`, given the entry of the dividend and whether it can be proved non-negative. -/
def divByConst (a : Entry) (nonneg : Bool) (val : Int) (roundDown : Bool) : Except Check Entry :=
  if val = 0 then .error .zeroDivisor
  else if a.coeff.tmod val = 0 then
    if a.base = 0 then Entry.make |a.coeff.tdiv val| 0
    else if a.base > 0 ∧ val > 0 ∧ (roundDown ∨ nonneg) then
      Entry.make (a.coeff.tdiv val) (a.base.tdiv val)
    else .ok everything
  else .ok everything

def visitFloorMod (a : Entry) (c2 : Int) : Except Check Entry :=
  Entry.make (zeroAwareGCD num a.coeff c2) (a.base.tmod c2)

/-- The analyzer; `scopes` are the recovery functions that have not been called yet, each with the
variable and the entry it restores. -/
structure Impl where
  varMap : VarRef → Option Entry
  scopes : List (Option (VarRef × Entry))

def Impl.new : Impl := ⟨fun _ => none, []⟩

/-- `prove` is the parent's `CanProveGreaterEqual(_, 0)`, which may use what this analyzer knows. -/
def visitExpr (prove : Impl → PrimExpr → Bool) : PrimExpr → Impl → Except Check Entry
  | .intImm _ value, _ => Entry.make 0 value
  | .var v _, s => .ok ((s.varMap v).getD everything)
  | .sizeVar v _, s => .ok ((s.varMap v).getD everything)
  | .cast _ e, s => visitExpr prove e s
  | .binary .add a b, s => do
    let ea ← visitExpr prove a s
    let eb ← visitExpr prove b s
    visitAdd num ea eb
  | .binary .sub a b, s => do
    let ea ← visitExpr prove a s
    let eb ← visitExpr prove b s
    visitSub num ea eb
  | .binary .mul a b, s => do
    let ea ← visitExpr prove a s
    let eb ← visitExpr prove b s
    visitMul num ea eb
  | .binary .div a b, s => do
    let eb ← visitExpr prove b s
    if eb.isConst then
      let ea ← visitExpr prove a s
      divByConst ea (prove s a) eb.base false
    else .ok everything
  | .binary .floorDiv a b, s => do
    let eb ← visitExpr prove b s
    if eb.isConst then
      let ea ← visitExpr prove a s
      divByConst ea (prove s a) eb.base true
    else .ok everything
  | .binary .floorMod a b, s => do
    let eb ← visitExpr prove b s
    if eb.isConst then
      if eb.base = 0 then .error .divisorIsZero
      else
        let ea ← visitExpr prove a s
        visitFloorMod num ea eb.base
    else .ok everything
  | .binary .min a b, s => do
    let ea ← visitExpr prove a s
    let eb ← visitExpr prove b s
    union num ea eb
  | .binary .max a b, s => do
    let ea ← visitExpr prove a s
    let eb ← visitExpr prove b s
    union num ea eb
  | .select _ t f, s => do
    let et ← visitExpr prove t s
    let ef ← visitExpr prove f s
    union num et ef
  | .letIn v value body, s =>
    match s.varMap v with
    | none => do
      let entry ← visitExpr prove value s
      visitExpr prove body { s with varMap := Function.update s.varMap v (some entry) }
    | some _ => visitExpr prove body s
  | .shiftRight a b, s => do
    let eb ← visitExpr prove b s
    if eb.isConst then
      if 0 ≤ eb.base ∧ eb.base < 64 then
        let ea ← visitExpr prove a s
        divByConst ea (prove s a) (num (2^eb.base.toNat)) true
      else .error .undefinedShift
    else .ok everything
  -- `VisitExprDefault_`, and calls other than `shift_right`
  | .binary .mod _ _, _ => .ok everything
  | .compare _ _ _, _ => .ok everything
  | .and _ _, _ => .ok everything
  | .or _ _, _ => .ok everything
  | .not _, _ => .ok everything
  | .bitwiseAnd _ _, _ => .ok everything

def update (s : Impl) (v : VarRef) (coeff base : Int) (allowOverride : Bool) : Except Check Impl :=
  if allowOverride = false ∧ (s.varMap v).any (· ≠ ⟨coeff, base⟩) then .error .updateConflict
  else do
    let entry ← Entry.make coeff base
    .ok { s with varMap := Function.update s.varMap v (some entry) }

/-- The variable, divisor and remainder of a constraint `var % coeff == base`. -/
def matchConstraint : PrimExpr → Option (VarRef × Int × Int)
  | .compare .eq (.binary .mod (.var v _) (.intImm _ coeff)) (.intImm _ base) => some (v, coeff, base)
  | .compare .eq (.binary .mod (.sizeVar v _) (.intImm _ coeff)) (.intImm _ base) =>
    some (v, coeff, base)
  | .compare .eq (.binary .floorMod (.var v _) (.intImm _ coeff)) (.intImm _ base) =>
    some (v, coeff, base)
  | .compare .eq (.binary .floorMod (.sizeVar v _) (.intImm _ coeff)) (.intImm _ base) =>
    some (v, coeff, base)
  | _ => none

def updateByIntersect (s : Impl) (v : VarRef) (entry : Entry) : Except Check Impl := do
  let old := (s.varMap v).getD everything
  let new ← intersect num old entry
  .ok ⟨Function.update s.varMap v (some new), some (v, old) :: s.scopes⟩

def enterConstraint (s : Impl) (constraint : PrimExpr) : Except Check Impl :=
  match matchConstraint constraint with
  | some (v, coeff, base) => do
    let entry ← Entry.make coeff base
    updateByIntersect num s v entry
  | none => .ok { s with scopes := none :: s.scopes }

/-- Leaving the last scope calls its recovery function, if it has one. -/
def exitConstraint (s : Impl) : Impl :=
  match s.scopes with
  | [] => s
  | none :: rest => { s with scopes := rest }
  | some (v, old) :: rest => ⟨Function.update s.varMap v (some old), rest⟩

/-- What a caller does with the analyzer. -/
inductive Act where
  | update (v : VarRef) (coeff base : Int) (allowOverride : Bool)
  | enterConstraint (constraint : PrimExpr)
  | exitConstraint

def perform (s : Impl) : Act → Except Check Impl
  | .update v coeff base allowOverride => update s v coeff base allowOverride
  | .enterConstraint constraint => enterConstraint num s constraint
  | .exitConstraint => .ok (exitConstraint s)

/-- The analyzer after a sequence of calls. -/
def run (acts : List Act) : Except Check Impl := acts.foldlM (perform num) .new

end Arithmetic

end StencilGraph.Arith.ModularSetAnalyzer

import Mathlib.Data.Int.Bitwise
import Mathlib.Logic.Function.Basic
import StencilGraph.Framework.MachineInt

namespace StencilGraph.Arith

inductive TypeCode where
  | int
  | uint
  | float
  deriving DecidableEq, Repr

/-- The type of a scalar. -/
structure DataType where
  code : TypeCode
  bits : Nat
  bits_pos : 0 < bits
  deriving DecidableEq, Repr

namespace DataType

def isInt (dt : DataType) : Bool := dt.code = .int

def isUInt (dt : DataType) : Bool := dt.code = .uint

def bool : DataType := ⟨.uint, 1, by decide⟩

def int8 : DataType := ⟨.int, 8, by decide⟩

def int32 : DataType := ⟨.int, 32, by decide⟩

def int64 : DataType := ⟨.int, 64, by decide⟩

/-- The integers a type can represent. -/
def Fits (dt : DataType) (v : Int) : Prop :=
  match dt.code with
  | .int => -2^(dt.bits - 1) ≤ v ∧ v < 2^(dt.bits - 1)
  | .uint => 0 ≤ v ∧ v < 2^dt.bits
  | .float => True

instance (dt : DataType) (v : Int) : Decidable (dt.Fits v) :=
  match dt with
  | ⟨.int, bits, _⟩ => inferInstanceAs (Decidable (-2^(bits - 1) ≤ v ∧ v < 2^(bits - 1)))
  | ⟨.uint, bits, _⟩ => inferInstanceAs (Decidable (0 ≤ v ∧ v < 2^bits))
  | ⟨.float, _, _⟩ => inferInstanceAs (Decidable True)

/-- Conversion to the type; an integer that does not fit wraps. -/
def convert (dt : DataType) (v : Int) : Int :=
  match dt.code with
  | .int => v.bmod (2^dt.bits)
  | .uint => v % 2^dt.bits
  | .float => v

/-- Conversion keeps a value that fits. -/
theorem convert_of_fits {dt : DataType} {v : Int} (h : dt.Fits v) : dt.convert v = v := by
  obtain ⟨code, bits, hbits⟩ := dt
  cases code with
  | int =>
    obtain ⟨hlow, hhigh⟩ := h
    have hpow : (2 : Int)^bits = 2 * 2^(bits - 1) := by
      rw [← pow_succ', Nat.sub_add_cancel hbits]
    show v.bmod (2^bits) = v
    apply Int.bmod_eq_of_le
    · push_cast
      simp only at hlow
      omega
    · push_cast
      simp only at hhigh
      omega
  | uint => exact Int.emod_eq_of_lt h.1 h.2
  | float => rfl

end DataType

/-- Variables are compared by identity. -/
abbrev VarRef := Nat

inductive BinaryOp where
  | add | sub | mul | div | mod | floorDiv | floorMod | min | max
  deriving DecidableEq, Repr

inductive CompareOp where
  | eq | ne | lt | le | gt | ge
  deriving DecidableEq, Repr

inductive PrimExpr where
  | intImm (dtype : DataType) (value : Int)
  | var (v : VarRef) (dtype : DataType)
  | sizeVar (v : VarRef) (dtype : DataType)
  | cast (dtype : DataType) (value : PrimExpr)
  | binary (op : BinaryOp) (a b : PrimExpr)
  | compare (op : CompareOp) (a b : PrimExpr)
  | and (a b : PrimExpr)
  | or (a b : PrimExpr)
  | not (a : PrimExpr)
  | select (condition trueValue falseValue : PrimExpr)
  | letIn (v : VarRef) (value body : PrimExpr)
  | shiftRight (a b : PrimExpr)
  | bitwiseAnd (a b : PrimExpr)
  deriving DecidableEq, Repr

/-- Values of the variables. -/
abbrev Assignment := VarRef → Int

def BinaryOp.eval : BinaryOp → Int → Int → Int
  | .add, x, y => x + y
  | .sub, x, y => x - y
  | .mul, x, y => x * y
  | .div, x, y => x.tdiv y
  | .mod, x, y => x.tmod y
  | .floorDiv, x, y => x.fdiv y
  | .floorMod, x, y => x.fmod y
  | .min, x, y => Min.min x y
  | .max, x, y => Max.max x y

def BinaryOp.divides : BinaryOp → Bool
  | .div | .mod | .floorDiv | .floorMod => true
  | _ => false

def CompareOp.eval : CompareOp → Int → Int → Bool
  | .eq, x, y => x = y
  | .ne, x, y => x ≠ y
  | .lt, x, y => x < y
  | .le, x, y => x ≤ y
  | .gt, x, y => x > y
  | .ge, x, y => x ≥ y

namespace PrimExpr

/-- The operands of an arithmetic node have its type. -/
def dtype : PrimExpr → DataType
  | intImm dt _ => dt
  | var _ dt => dt
  | sizeVar _ dt => dt
  | cast dt _ => dt
  | binary _ a _ => a.dtype
  | compare _ _ _ => .bool
  | and _ _ => .bool
  | or _ _ => .bool
  | not _ => .bool
  | select _ t _ => t.dtype
  | letIn _ _ body => body.dtype
  | shiftRight a _ => a.dtype
  | bitwiseAnd a _ => a.dtype

/-- The value of an expression, over the integers; conditions are 0 or 1. -/
def eval : PrimExpr → Assignment → Int
  | intImm _ value, _ => value
  | var v _, ρ => ρ v
  | sizeVar v _, ρ => ρ v
  | cast dt e, ρ => dt.convert (e.eval ρ)
  | binary op a b, ρ => op.eval (a.eval ρ) (b.eval ρ)
  | compare op a b, ρ => (op.eval (a.eval ρ) (b.eval ρ)).toInt
  | and a b, ρ => (decide (a.eval ρ ≠ 0) && decide (b.eval ρ ≠ 0)).toInt
  | or a b, ρ => (decide (a.eval ρ ≠ 0) || decide (b.eval ρ ≠ 0)).toInt
  | not a, ρ => (decide (a.eval ρ = 0)).toInt
  | select c t f, ρ => if c.eval ρ ≠ 0 then t.eval ρ else f.eval ρ
  | letIn v value body, ρ => body.eval (Function.update ρ v (value.eval ρ))
  | shiftRight a b, ρ => (a.eval ρ).shiftRight (b.eval ρ).toNat
  | bitwiseAnd a b, ρ => (a.eval ρ).land (b.eval ρ)

/-- The variables bound by lets. -/
def binders : PrimExpr → List VarRef
  | intImm _ _ => []
  | var _ _ => []
  | sizeVar _ _ => []
  | cast _ e => e.binders
  | binary _ a b => a.binders ++ b.binders
  | compare _ a b => a.binders ++ b.binders
  | and a b => a.binders ++ b.binders
  | or a b => a.binders ++ b.binders
  | not a => a.binders
  | select c t f => c.binders ++ t.binders ++ f.binders
  | letIn v value body => v :: value.binders ++ body.binders
  | shiftRight a b => a.binders ++ b.binders
  | bitwiseAnd a b => a.binders ++ b.binders

/-- The variables that occur outside the lets that bind them. -/
def freeVars : PrimExpr → List VarRef
  | intImm _ _ => []
  | var v _ => [v]
  | sizeVar v _ => [v]
  | cast _ e => e.freeVars
  | binary _ a b => a.freeVars ++ b.freeVars
  | compare _ a b => a.freeVars ++ b.freeVars
  | and a b => a.freeVars ++ b.freeVars
  | or a b => a.freeVars ++ b.freeVars
  | not a => a.freeVars
  | select c t f => c.freeVars ++ t.freeVars ++ f.freeVars
  | letIn v value body => value.freeVars ++ body.freeVars.filter (· ≠ v)
  | shiftRight a b => a.freeVars ++ b.freeVars
  | bitwiseAnd a b => a.freeVars ++ b.freeVars

/-- A value depends on the free variables only. -/
theorem eval_congr {e : PrimExpr} {ρ ρ' : Assignment} (h : ∀ v ∈ e.freeVars, ρ v = ρ' v) :
    e.eval ρ = e.eval ρ' := by
  induction e generalizing ρ ρ' with
  | intImm dt value => rfl
  | var v dt => exact h v (List.mem_singleton.mpr rfl)
  | sizeVar v dt => exact h v (List.mem_singleton.mpr rfl)
  | cast dt e ih => simp only [eval, ih h]
  | not a ih => simp only [eval, ih h]
  | binary op a b iha ihb | compare op a b iha ihb | and a b iha ihb | or a b iha ihb
  | shiftRight a b iha ihb | bitwiseAnd a b iha ihb =>
    have ha := iha fun v hv => h v (List.mem_append_left _ hv)
    have hb := ihb fun v hv => h v (List.mem_append_right _ hv)
    simp only [eval, ha, hb]
  | select c t f ihc iht ihf =>
    have hc := ihc fun v hv => h v (List.mem_append_left _ (List.mem_append_left _ hv))
    have ht := iht fun v hv => h v (List.mem_append_left _ (List.mem_append_right _ hv))
    have hf := ihf fun v hv => h v (List.mem_append_right _ hv)
    simp only [eval, hc, ht, hf]
  | letIn v value body ihv ihb =>
    have hv := ihv fun w hw => h w (List.mem_append_left _ hw)
    simp only [eval, hv]
    apply ihb
    intro w hw
    by_cases hwv : w = v
    · rw [hwv, Function.update_self, Function.update_self]
    · rw [Function.update_of_ne hwv, Function.update_of_ne hwv]
      apply h w
      exact List.mem_append_right _ (List.mem_filter.mpr ⟨hw, decide_eq_true hwv⟩)

theorem eval_update {e : PrimExpr} {ρ : Assignment} {v : VarRef} (value : Int)
    (hv : v ∉ e.freeVars) : e.eval (Function.update ρ v value) = e.eval ρ := by
  apply eval_congr
  intro w hw
  apply Function.update_of_ne
  intro heq
  exact hv (heq ▸ hw)

/-- Every let binds a variable of its own, which occurs nowhere outside it and is not among
`taken`. -/
def BoundOnce (e : PrimExpr) (taken : List VarRef) : Prop :=
  e.binders.Nodup ∧ ∀ v ∈ e.binders, v ∉ e.freeVars ∧ v ∉ taken

instance (e : PrimExpr) (taken : List VarRef) : Decidable (e.BoundOnce taken) :=
  inferInstanceAs (Decidable (_ ∧ _))

end PrimExpr

end StencilGraph.Arith

import Metrology.Diagnostic
import Metrology.Program
import Metrology.Value

/-! The rules of operators, casts and declared shapes. -/
namespace Metrology

def BinaryOp.isComparison : BinaryOp → Bool
  | eq | ne | lt | le | gt | ge => true
  | _ => false

def BinaryOp.isLogical : BinaryOp → Bool
  | and | or => true
  | _ => false

inductive Shape
  | text
  | flag
  /-- Any measurement. -/
  | number
  | unit (unit : MeasureUnit)
deriving DecidableEq, Repr

namespace Shape

def name : Shape → String
  | text => "string"
  | flag => "boolean"
  | number => Catalog.numberName
  | unit u => u.name

/-- The shape that a declaration names, unless it names an unknown unit. -/
def resolve {α : Type} (c : Catalog α) : TypeRef → Option Shape
  | .text => some text
  | .flag => some flag
  | .number => some number
  | .unit word => (c.lookup word).map unit

/-- Stands for a value of the shape of which nothing else is known. -/
def placeholder {α : Type} (c : Catalog α) : Shape → Value α
  | text => .text
  | flag => .flag
  | number => .measurement (.unknown c.number)
  | unit u => .measurement (.unknown u)

end Shape

/-- Why a rule does not apply. Values are given by their category or unit. -/
inductive TypeError (α : Type)
  | operands (op : BinaryOp) (left right : String)
  | operand (op : UnaryOp) (operand : String)
  /-- Two units that an operator cannot bring together. -/
  | units (op : BinaryOp) (left right : String)
  | byZero (op : BinaryOp)
  | exponentNotWhole (unit : String) (exponent : α)
  | exponentUnknown (unit : String)
  | repetition (unit : String)
  | castFlag (target : String)
  | cast (source target : String)
  | conversion (source target : String)
  | shape (wanted found : String)
deriving DecidableEq, Repr

namespace TypeError

def kind {α : Type} : TypeError α → Diagnostic.Kind
  | units _ _ _ | cast _ _ | conversion _ _ => .notConvertible
  | byZero _ => .divisionByZero
  | operands _ _ _ | operand _ _ | exponentNotWhole _ _ | exponentUnknown _ | repetition _
  | castFlag _ | shape _ _ => .incompatibleOperands

def message : TypeError Float → String
  | operands op left right => s!"operator '{op.symbol}' cannot be applied to {left} and {right}"
  | operand op found => s!"operator '{op.symbol}' cannot be applied to {found}"
  | units op left right => s!"operator '{op.symbol}' cannot combine '{left}' with '{right}'"
  | byZero op => s!"'{op.symbol}' by zero"
  | exponentNotWhole unit exponent =>
    s!"'{unit}' cannot be raised to the non-integer power " ++ Decimal.plain exponent
  | exponentUnknown unit =>
    s!"the exponent of '{unit}' must be a constant, since it scales the unit"
  | repetition unit =>
    s!"a string can only be repeated a dimensionless number of times, not '{unit}'"
  | castFlag target => s!"a boolean cannot be cast to '{target}'"
  | cast source target => s!"'{source}' cannot be cast to '{target}'"
  | conversion source target => s!"'{source}' cannot be converted to '{target}'"
  | shape wanted found => s!"expected {wanted}, found {found}"

def ofAlgebra {α : Type} (op : BinaryOp) (a b : Quantity α) : AlgebraError α → TypeError α
  | .incompatibleUnits => units op a.unit.name b.unit.name
  | .divisionByZero => byZero op
  | .exponentNotWhole n => exponentNotWhole a.unit.name n
  | .exponentUnknown => exponentUnknown a.unit.name

end TypeError

namespace Typing

variable {α : Type} [Scalar α]

def quantities (c : Catalog α) (op : BinaryOp) (a b : Quantity α) :
    Except (TypeError α) (Value α) :=
  let measured (r : Except (AlgebraError α) (Quantity α)) : Except (TypeError α) (Value α) :=
    match r with
    | .ok q => .ok (.measurement q)
    | .error e => .error (.ofAlgebra op a b e)
  match op with
  | .add => measured (a.add c b)
  | .sub => measured (a.sub c b)
  | .mul => measured (.ok (a.mul c b))
  | .div => measured (a.div c b)
  | .mod => measured (a.mod b)
  | .pow => measured (a.pow c b)
  | .eq | .ne | .lt | .le | .gt | .ge =>
    if a.isCompatible c b then .ok .flag else .error (.ofAlgebra op a b .incompatibleUnits)
  | .and | .or => .error (.operands op a.unit.name b.unit.name)

def repetition (count : Quantity α) : Except (TypeError α) (Value α) :=
  if count.isPure then .ok .text else .error (.repetition count.unit.name)

def binary (c : Catalog α) (op : BinaryOp) (left right : Value α) :
    Except (TypeError α) (Value α) :=
  let refused := .error (.operands op left.describe right.describe)
  match left, right with
  | .measurement a, .measurement b => quantities c op a b
  | .text, .text =>
    if op = .add ∨ op = .sub then .ok .text
    else if op.isComparison then .ok .flag
    else refused
  | .text, .measurement count | .measurement count, .text =>
    if op = .mul then repetition count else refused
  | .flag, .flag => if op = .eq ∨ op = .ne ∨ op.isLogical then .ok .flag else refused
  | _, _ => refused

def unary (op : UnaryOp) (operand : Value α) : Except (TypeError α) (Value α) :=
  match op, operand with
  | .neg, .measurement q => .ok (.measurement q.neg)
  | .not, .flag => .ok .flag
  | _, _ => .error (.operand op operand.describe)

/-- The value of a cast, and the unit that it dropped, if any. Only a cast to plain numbers drops a
unit that it cannot convert. -/
def cast (c : Catalog α) (target : MeasureUnit) (v : Value α) :
    Except (TypeError α) (Value α × Option MeasureUnit) :=
  match v with
  | .flag => .error (.castFlag target.name)
  | .text => .ok (.measurement (.unknown target), none)
  | .measurement q =>
    match q.convertTo c target with
    | some q => .ok (.measurement q, none)
    | none =>
      if target.name = Catalog.numberName then .ok (.measurement (q.retagged target), some q.unit)
      else .error (.cast q.unit.name target.name)

/-- Fits a value into a declared shape, converting into a declared unit. -/
def coerce (c : Catalog α) (shape : Shape) (v : Value α) : Except (TypeError α) (Value α) :=
  match shape, v with
  | .text, .text => .ok .text
  | .flag, .flag => .ok .flag
  | .number, .measurement q => .ok (.measurement q)
  | .unit u, .measurement q =>
    match q.convertTo c u with
    | some q => .ok (.measurement q)
    | none => .error (.conversion q.unit.name u.name)
  | _, _ => .error (.shape shape.name v.describe)

theorem forgotten_of_coerce {c : Catalog α} {shape : Shape} {v w : Value α}
    (h : coerce c shape v = .ok w) (hshape : shape ≠ .number) :
    w.forgotten = shape.placeholder c := by
  cases shape with
  | text => cases v <;> cases h; rfl
  | flag => cases v <;> cases h; rfl
  | number => exact absurd rfl hshape
  | unit u =>
    cases v with
    | text => cases h
    | flag => cases h
    | measurement q =>
      simp only [coerce] at h
      split at h
      · next r hr =>
        cases h
        exact congrArg (fun u => Value.measurement (.unknown u)) (Quantity.unit_of_convertTo hr)
      · cases h

end Typing

end Metrology

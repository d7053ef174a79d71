import Metrology.Decimal.Layout
import Metrology.Dimension
import Metrology.Scalar

/-! Numbers with a dimension. Arithmetic on them knows no units: scales are settled before. -/
namespace Metrology

structure Magnitude (α : Type) (ε : Type := Int32) where
  dimension : Dimension ε
  value : α
deriving DecidableEq, Repr

inductive AlgebraError (α : Type)
  | incompatibleUnits
  | divisionByZero
  | exponentNotWhole (value : α)
  | exponentUnknown
deriving DecidableEq, Repr

def AlgebraError.message : AlgebraError Float → String
  | incompatibleUnits => "operand dimensions are incompatible"
  | divisionByZero => "division by zero"
  | exponentNotWhole value => "exponent " ++ Decimal.plain value ++ " is not an integer"
  | exponentUnknown => "exponent is not a constant"

namespace Magnitude

variable {α ε : Type} [Scalar α] [Exponent ε]

def add (a b : Magnitude α ε) : Except (AlgebraError α) (Magnitude α ε) :=
  if a.dimension = b.dimension then .ok ⟨a.dimension, a.value + b.value⟩
  else .error .incompatibleUnits

def sub (a b : Magnitude α ε) : Except (AlgebraError α) (Magnitude α ε) :=
  if a.dimension = b.dimension then .ok ⟨a.dimension, a.value - b.value⟩
  else .error .incompatibleUnits

def mul (a b : Magnitude α ε) : Magnitude α ε := ⟨a.dimension.mul b.dimension, a.value * b.value⟩

def div (a b : Magnitude α ε) : Except (AlgebraError α) (Magnitude α ε) :=
  if Scalar.isZero b.value then .error .divisionByZero
  else .ok ⟨a.dimension.div b.dimension, a.value / b.value⟩

def maxExponent : Nat := 2147483647

/-- An exponent that a dimension can be raised to. -/
def wholeExponent? (n : α) : Option Int :=
  (Scalar.toInt? n).filter (·.natAbs ≤ maxExponent)

/-- A power. The exponent has no dimension; unless the base has none either, it must be whole. -/
def pow (base exponent : Magnitude α ε) : Except (AlgebraError α) (Magnitude α ε) :=
  if !exponent.dimension.isNone then .error .incompatibleUnits
  else if base.dimension.isNone then
    .ok ⟨base.dimension, Scalar.power base.value exponent.value⟩
  else match wholeExponent? exponent.value with
    | some n => .ok ⟨base.dimension.pow n, Scalar.intPower base.value n⟩
    | none => .error (.exponentNotWhole exponent.value)

def mod (a b : Magnitude α ε) : Except (AlgebraError α) (Magnitude α ε) :=
  if !b.dimension.isNone then .error .incompatibleUnits
  else if Scalar.isZero b.value then .error .divisionByZero
  else .ok ⟨a.dimension, Scalar.remainder a.value b.value⟩

end Magnitude

end Metrology

import Metrology.Quantity

/-! What an expression can stand for during a check. -/
namespace Metrology

inductive Value (α : Type)
  | text
  | flag
  | measurement (quantity : Quantity α)
deriving DecidableEq, Repr

namespace Value

variable {α : Type}

def forgotten : Value α → Value α
  | text => text
  | flag => flag
  | measurement q => measurement q.forgotten

def describe : Value α → String
  | text => "string"
  | flag => "boolean"
  | measurement q => q.unit.name

def same [Scalar α] : Value α → Value α → Bool
  | text, text => true
  | flag, flag => true
  | measurement a, measurement b => a.same b
  | _, _ => false

def render : Value Float → String
  | text => "string"
  | flag => "boolean"
  | measurement q => q.render

@[simp] theorem forgotten_forgotten (v : Value α) : v.forgotten.forgotten = v.forgotten := by
  cases v <;> rfl

@[simp] theorem describe_forgotten (v : Value α) : v.forgotten.describe = v.describe := by
  cases v <;> rfl

end Value

end Metrology

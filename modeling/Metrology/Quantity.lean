import Metrology.Catalog
import Metrology.Magnitude

/-! Measured quantities as far as they are known before a program runs. The unit of a quantity is
always known; its value is known when it follows from literals along straight-line code. -/
namespace Metrology

structure Quantity (α : Type) (ε : Type := Int32) where
  unit : MeasureUnit ε
  /-- Missing when the value cannot be known. -/
  value : Option α
deriving DecidableEq, Repr

namespace Quantity

variable {α ε : Type}

def ofValue (unit : MeasureUnit ε) (value : α) : Quantity α ε := ⟨unit, some value⟩

def unknown (unit : MeasureUnit ε) : Quantity α ε := ⟨unit, none⟩

def isKnown (q : Quantity α ε) : Bool := q.value.isSome

def forgotten (q : Quantity α ε) : Quantity α ε := unknown q.unit

def retagged (q : Quantity α ε) (unit : MeasureUnit ε) : Quantity α ε := { q with unit }

def isPure [Exponent ε] (q : Quantity α ε) : Bool := q.unit.isPure

variable [Scalar α] [Exponent ε]

/-- The number to calculate with; an unknown value counts as one. -/
def amount (q : Quantity α ε) : α := q.value.getD 1

def magnitude (q : Quantity α ε) : Magnitude α ε := ⟨q.unit.dimension, q.amount⟩

/-- A result; it is known when all it was made from is. -/
def derived (unit : MeasureUnit ε) (value : α) (known : Bool) : Quantity α ε :=
  ⟨unit, if known then some value else none⟩

def isKnownZero (q : Quantity α ε) : Bool := q.value.any Scalar.isZero

/-- Whether two quantities can be compared and added. -/
def isCompatible (c : Catalog α ε) (a b : Quantity α ε) : Bool :=
  a.unit.dimension = b.unit.dimension || (c.factor a.unit.name b.unit.name).isSome

/-- A quantity expressed in another unit: rescaled when there is a factor, and only retagged when
the dimensions agree without one. -/
def convertTo (c : Catalog α ε) (q : Quantity α ε) (target : MeasureUnit ε) : Option (Quantity α ε) :=
  if q.unit = target then some q
  else match c.factor q.unit.name target.name with
    | some factor => some ⟨target, q.value.map (· * factor)⟩
    | none => if q.unit.dimension = target.dimension then some (q.retagged target) else none

theorem unit_of_convertTo {c : Catalog α ε} {q r : Quantity α ε} {target : MeasureUnit ε}
    (h : q.convertTo c target = some r) : r.unit = target := by
  unfold convertTo at h
  split at h
  · next heq => exact Option.some.inj h ▸ heq
  · split at h
    · exact Option.some.inj h ▸ rfl
    · split at h
      · exact Option.some.inj h ▸ rfl
      · cases h

/-- A quantity expressed in the unit that its unit is measured in. -/
def toCoherent (c : Catalog α ε) (q : Quantity α ε) : Quantity α ε :=
  let coherent := c.coherentUnit q.unit
  (q.convertTo c coherent).getD (q.retagged coherent)

def ofMagnitude (c : Catalog α ε) (m : Magnitude α ε) (known : Bool) : Quantity α ε :=
  derived (c.unitFor m.dimension) m.value known

/-- The second quantity in the unit of the first. -/
def aligned (c : Catalog α ε) (a b : Quantity α ε) : Except (AlgebraError α) (Quantity α ε) :=
  if !a.isCompatible c b then .error .incompatibleUnits
  else match b.convertTo c a.unit with
    | some b => .ok b
    | none => .error .incompatibleUnits

def add (c : Catalog α ε) (a b : Quantity α ε) : Except (AlgebraError α) (Quantity α ε) := do
  let b ← a.aligned c b
  let sum ← a.magnitude.add b.magnitude
  return derived a.unit sum.value (a.isKnown && b.isKnown)

def sub (c : Catalog α ε) (a b : Quantity α ε) : Except (AlgebraError α) (Quantity α ε) := do
  let b ← a.aligned c b
  let difference ← a.magnitude.sub b.magnitude
  return derived a.unit difference.value (a.isKnown && b.isKnown)

def mul (c : Catalog α ε) (a b : Quantity α ε) : Quantity α ε :=
  let known := a.isKnown && b.isKnown
  if b.isPure then derived a.unit (a.amount * b.amount) known
  else if a.isPure then derived b.unit (a.amount * b.amount) known
  else ofMagnitude c ((a.toCoherent c).magnitude.mul (b.toCoherent c).magnitude) known

/-- The quotient; a divisor that is not known is taken to be other than zero. -/
def div (c : Catalog α ε) (a b : Quantity α ε) : Except (AlgebraError α) (Quantity α ε) :=
  let known := a.isKnown && b.isKnown
  if b.isKnownZero then .error .divisionByZero
  else if a.unit = b.unit then .ok (derived c.number (a.amount / b.amount) known)
  else if b.isPure then .ok (derived a.unit (a.amount / b.amount) known)
  else do
    let quotient ← (a.toCoherent c).magnitude.div (b.toCoherent c).magnitude
    return ofMagnitude c quotient known

/-- A power. Where the exponent scales a dimension it has to be known. -/
def pow (c : Catalog α ε) (base exponent : Quantity α ε) : Except (AlgebraError α) (Quantity α ε) :=
  let known := base.isKnown && exponent.isKnown
  if !exponent.isPure then .error .incompatibleUnits
  else if base.isPure then do
    let raised ← base.magnitude.pow exponent.magnitude
    return derived base.unit raised.value known
  else if !exponent.isKnown then .error .exponentUnknown
  else if Scalar.eq exponent.amount 1 then .ok base
  else do
    let raised ← (base.toCoherent c).magnitude.pow exponent.magnitude
    return ofMagnitude c raised known

def mod (a b : Quantity α ε) : Except (AlgebraError α) (Quantity α ε) :=
  if !b.isPure then .error .incompatibleUnits
  else if b.isKnownZero then .error .divisionByZero
  else do
    let rest ← a.magnitude.mod b.magnitude
    return derived a.unit rest.value (a.isKnown && b.isKnown)

def neg (q : Quantity α ε) : Quantity α ε := { q with value := q.value.map (-·) }

/-- Numeric equality: same unit, and equal values or both unknown. -/
def same (a b : Quantity α ε) : Bool :=
  a.unit = b.unit && match a.value, b.value with
    | some x, some y => Scalar.eq x y
    | none, none => true
    | _, _ => false

def render (q : Quantity Float) : String :=
  let value := match q.value with
    | some x => Decimal.plain x
    | none => "?"
  if q.unit.symbol = "" then value else value ++ " " ++ q.unit.symbol

end Quantity

end Metrology

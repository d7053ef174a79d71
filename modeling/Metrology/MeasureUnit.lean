import Metrology.Dimension

/-! Units of measurement. -/
namespace Metrology

structure MeasureUnit (ε : Type := Int32) where
  name : String
  /-- May be empty. -/
  symbol : String
  dimension : Dimension ε
  /-- Whether the unit owns a slot of the dimensions. -/
  isBase : Bool
deriving DecidableEq, Repr, Inhabited

namespace MeasureUnit

variable {ε : Type}

/-- A unit that no declaration names; it goes by its rendered dimension. -/
def anonymous [Exponent ε] (symbols : List String) (d : Dimension ε) : MeasureUnit ε :=
  ⟨d.render symbols, d.render symbols, d, false⟩

def isPure [Exponent ε] (u : MeasureUnit ε) : Bool := u.dimension.isNone

def render (u : MeasureUnit ε) : String :=
  if u.symbol = "" ∨ u.symbol = u.name then u.name else s!"{u.name} [{u.symbol}]"

end MeasureUnit

end Metrology

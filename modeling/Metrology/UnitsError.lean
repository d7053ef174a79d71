import Metrology.Token

/-! What can be wrong with a description of units. -/
namespace Metrology

inductive UnitsError (α : Type)
  | malformed (error : Token.SyntaxError)
  | duplicateUnit (name : String) (span : Span)
  | unknownUnit (name : String) (span : Span)
  /-- A compound unit is made of units that stand for themselves, not of scaled ones. -/
  | incoherentCompound (unit term : String) (span : Span)
  | dimensionMismatch (child parent : String) (span : Span)
  | invalidFactor (factor : α) (span : Span)
  /-- Two ways from `start` to `target` give factors that do not agree. -/
  | inconsistentCycle (start target : String) (expected found : α)
deriving DecidableEq, Repr

namespace UnitsError

/-- The place in the units file; a cycle has no single place. -/
def span? {α : Type} : UnitsError α → Option Span
  | malformed e => some e.span
  | duplicateUnit _ span | unknownUnit _ span | incoherentCompound _ _ span
  | dimensionMismatch _ _ span | invalidFactor _ span => some span
  | inconsistentCycle _ _ _ _ => none

def message : UnitsError Float → String
  | malformed e => "syntax error at " ++ e.span.render ++ ": " ++ e.fault.message
  | duplicateUnit name _ => s!"unit name or symbol '{name}' is declared more than once"
  | unknownUnit name _ => s!"unknown unit '{name}'"
  | incoherentCompound unit term _ =>
    s!"compound unit '{unit}' uses scaled unit '{term}'; compound terms must be base or compound units"
  | dimensionMismatch child parent _ =>
    s!"cannot convert between '{child}' and '{parent}': their dimensions differ"
  | invalidFactor factor _ =>
    "conversion factor " ++ Decimal.plain factor ++ " must be finite and greater than zero"
  | inconsistentCycle start target expected found =>
    s!"inconsistent conversion cycle between '{start}' and '{target}': factor "
      ++ Decimal.plain expected ++ " vs " ++ Decimal.plain found

end UnitsError

end Metrology

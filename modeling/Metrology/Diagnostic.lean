import Metrology.Span

/-! Findings about a program. Only errors make it invalid. -/
namespace Metrology

namespace Diagnostic

inductive Severity
  | error
  | warning
deriving DecidableEq, Repr

def Severity.text : Severity → String
  | error => "error"
  | warning => "warning"

inductive Kind
  | undeclaredVariable
  | undeclaredFunction
  | duplicateDeclaration
  | reservedWord
  | unknownUnit
  | incompatibleOperands
  | incompatibleReturn
  | argumentCount
  | argumentType
  | divisionByZero
  | notConvertible
  | discardedUnit
deriving DecidableEq, Repr

namespace Kind

def code : Kind → String
  | undeclaredVariable => "E001"
  | undeclaredFunction => "E002"
  | duplicateDeclaration => "E003"
  | reservedWord => "E004"
  | unknownUnit => "E005"
  | incompatibleOperands => "E006"
  | incompatibleReturn => "E007"
  | argumentCount => "E008"
  | argumentType => "E009"
  | divisionByZero => "E010"
  | notConvertible => "E011"
  | discardedUnit => "W001"

def title : Kind → String
  | undeclaredVariable => "undeclared variable"
  | undeclaredFunction => "undeclared function"
  | duplicateDeclaration => "duplicate declaration"
  | reservedWord => "reserved word used as identifier"
  | unknownUnit => "unknown unit"
  | incompatibleOperands => "incompatible operand types"
  | incompatibleReturn => "incompatible return type"
  | argumentCount => "wrong number of arguments"
  | argumentType => "argument type mismatch"
  | divisionByZero => "division by zero"
  | notConvertible => "unit not convertible"
  | discardedUnit => "unit discarded by cast"

end Kind

end Diagnostic

structure Diagnostic where
  kind : Diagnostic.Kind
  severity : Diagnostic.Severity
  span : Span
  message : String
deriving DecidableEq, Repr

namespace Diagnostic

def isError (d : Diagnostic) : Bool := d.severity = .error

def render (d : Diagnostic) : String :=
  d.severity.text ++ "[" ++ d.kind.code ++ "] at " ++ d.span.render ++ ": " ++ d.message

/-- Whether two findings say the same about the same place. -/
def repeats (d e : Diagnostic) : Bool := d.span = e.span && d.kind = e.kind && d.message = e.message

end Diagnostic

end Metrology

import Metrology.Scope
import Metrology.Typing

/-! What a check can find fault with. -/
namespace Metrology.Analysis

inductive Problem
  | scope (error : ScopeError)
  | typing (error : TypeError Float)
  | unknownUnit (word : String)
  | unknownReturnUnit (word : String)
  | duplicateFunction (name : String)
  | reservedFunction (name : String)
  | reservedParameter (name : String)
  | duplicateParameter (name : String)
  | undeclaredFunction (name : String)
  | argumentCount (callee : String) (wanted given : Nat)
  /-- The argument at a position, counted from one, does not fit its parameter. -/
  | argument (position : Nat) (callee : String) (error : TypeError Float)
  /-- A call inside an expression to a function that returns nothing. -/
  | noValue (callee : String)
  | condition (found : String)
  | returnOutside
  | returnUnexpected (function found : String)
  | returnMissing (function wanted : String)
  | returnType (function : String) (error : TypeError Float)
  /-- A cast to plain numbers that drops a unit. -/
  | discardedUnit (target unit : String)
deriving DecidableEq, Repr

namespace Problem

def kind : Problem → Diagnostic.Kind
  | scope (.duplicate _) | duplicateFunction _ | duplicateParameter _ => .duplicateDeclaration
  | scope (.reserved _) | reservedFunction _ | reservedParameter _ => .reservedWord
  | scope (.undeclared _) => .undeclaredVariable
  | typing error => error.kind
  | unknownUnit _ | unknownReturnUnit _ => .unknownUnit
  | undeclaredFunction _ => .undeclaredFunction
  | argumentCount _ _ _ => .argumentCount
  | argument _ _ _ => .argumentType
  | noValue _ | condition _ => .incompatibleOperands
  | returnOutside | returnUnexpected _ _ | returnMissing _ _ | returnType _ _ => .incompatibleReturn
  | discardedUnit _ _ => .discardedUnit

/-- A dropped unit is pointed out, all else makes a program invalid. -/
def severity : Problem → Diagnostic.Severity
  | discardedUnit _ _ => .warning
  | _ => .error

def message : Problem → String
  | scope error => error.message
  | typing error => error.message
  | unknownUnit word => s!"unknown unit '{word}'"
  | unknownReturnUnit word => s!"unknown return unit '{word}'"
  | duplicateFunction name => s!"function '{name}' is already declared"
  | reservedFunction name => s!"'{name}' is a reserved word and cannot name a function"
  | reservedParameter name => s!"'{name}' is a reserved word and cannot name a parameter"
  | duplicateParameter name => s!"parameter '{name}' is declared twice"
  | undeclaredFunction name => s!"function '{name}' is not declared"
  | argumentCount callee wanted given =>
    s!"function '{callee}' takes {wanted} argument(s) but {given} were given"
  | argument position callee error => s!"argument {position} of '{callee}': " ++ error.message
  | noValue callee => s!"function '{callee}' does not return a value"
  | condition found => s!"condition must be a boolean, found {found}"
  | returnOutside => "return outside of a function"
  | returnUnexpected function found =>
    s!"function '{function}' does not return a value, found {found}"
  | returnMissing function wanted => s!"function '{function}' must return {wanted}"
  | returnType function error => s!"in function '{function}': " ++ error.message
  | discardedUnit target unit => s!"cast to '{target}' discards unit '{unit}'"

def toDiagnostic (p : Problem) (span : Span) : Diagnostic := ⟨p.kind, p.severity, span, p.message⟩

end Problem

end Metrology.Analysis

import Metrology.Span

/-! What a units source declares. Factors are numbers of a type `α`; a description comes from a
units file or is assembled directly. -/
namespace Metrology

inductive Direction
  /-- One child is `factor` parents. -/
  | childToParent
  /-- One parent is `factor` children. -/
  | parentToChild
deriving DecidableEq, Repr

namespace Description

structure Term where
  unit : String
  exponent : Int32
deriving DecidableEq, Repr

inductive Definition (α : Type)
  /-- It owns a dimension of its own. -/
  | base
  /-- It has the dimension of `parent` and differs from it by a factor. -/
  | scaled (parent : String) (factor : α) (direction : Direction)
  /-- It is a product of powers of earlier units. -/
  | compound (terms : List Term)
deriving DecidableEq, Repr

structure UnitDecl (α : Type) where
  name : String
  symbol : String
  definition : Definition α
  span : Span
deriving DecidableEq, Repr

structure ConversionDecl (α : Type) where
  child : String
  parent : String
  factor : α
  direction : Direction
  span : Span
deriving DecidableEq, Repr

structure ClassDecl where
  name : String
  members : List String
  span : Span
deriving DecidableEq, Repr

end Description

structure Description (α : Type) where
  units : List (Description.UnitDecl α) := []
  conversions : List (Description.ConversionDecl α) := []
  classes : List Description.ClassDecl := []
deriving DecidableEq, Repr

end Metrology

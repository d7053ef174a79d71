import Metrology.Catalog

/-! Building a catalog. Declarations are taken in order, and each may use only what came before. -/
namespace Metrology.Catalog

/-- A catalog whose conversions have not been worked out yet. -/
structure Draft (α : Type) (ε : Type := Int32) extends Registry ε where
  /-- The number of base units in the whole description. -/
  slots : Nat
  graph : Conversion.Graph α
deriving DecidableEq, Repr

variable {α ε : Type} [Scalar α] [Exponent ε]

namespace Draft

/-- Registers a unit that is known to be new. -/
def insert (d : Draft α ε) (e : Entry ε) : Draft α ε :=
  { d with entries := d.entries ++ [e], graph := d.graph.addUnit e.unit.name }

def start (slots : Nat) : Draft α ε :=
  ({ entries := [], classes := [], slots, graph := .empty } : Draft α ε).insert
    ⟨numberUnit slots, none⟩

def require (d : Draft α ε) (word : String) (span : Span) : Except (UnitsError α) (Entry ε) :=
  match d.find? word with
  | some e => .ok e
  | none => .error (.unknownUnit word span)

def requireFree (d : Draft α ε) (word : String) (span : Span) : Except (UnitsError α) PUnit :=
  if d.isTaken word then .error (.duplicateUnit word span) else .ok ⟨⟩

def timesTerm (d : Draft α ε) (unit : String) (span : Span) (product : Dimension ε)
    (term : Description.Term) : Except (UnitsError α) (Dimension ε) := do
  let e ← d.require term.unit span
  if e.reference.isSome then .error (.incoherentCompound unit term.unit span)
  else .ok (product.mul (e.unit.dimension.pow term.exponent.toInt))

/-- Registers a unit whose words are known to be free. -/
def define (d : Draft α ε) (decl : Description.UnitDecl α) : Except (UnitsError α) (Draft α ε) :=
  match decl.definition with
  | .base =>
    let slot := d.baseSymbols.length
    return d.insert ⟨⟨decl.name, decl.symbol, Dimension.base d.slots slot, true⟩, none⟩
  | .scaled parent factor direction => do
    let parent ← d.require parent decl.span
    let edge ← Conversion.Edge.ofFactor decl.name parent.unit.name factor direction decl.span
    let d := d.insert ⟨⟨decl.name, decl.symbol, parent.unit.dimension, false⟩, some parent.coherent⟩
    return { d with graph := ← d.graph.addEdge edge decl.span }
  | .compound terms => do
    let dimension ← terms.foldlM (d.timesTerm decl.name decl.span) (Dimension.none d.slots)
    return d.insert ⟨⟨decl.name, decl.symbol, dimension, false⟩, none⟩

def declareUnit (d : Draft α ε) (decl : Description.UnitDecl α) :
    Except (UnitsError α) (Draft α ε) := do
  d.requireFree decl.name decl.span
  if decl.symbol ≠ decl.name then d.requireFree decl.symbol decl.span
  d.define decl

def declareConversion (d : Draft α ε) (decl : Description.ConversionDecl α) :
    Except (UnitsError α) (Draft α ε) := do
  let child := (← d.require decl.child decl.span).unit
  let parent := (← d.require decl.parent decl.span).unit
  if child.dimension ≠ parent.dimension then
    throw (.dimensionMismatch child.name parent.name decl.span)
  let edge ← Conversion.Edge.ofFactor child.name parent.name decl.factor decl.direction decl.span
  return { d with graph := ← d.graph.addEdge edge decl.span }

def declareClass (d : Draft α ε) (decl : Description.ClassDecl) : Except (UnitsError α) (Draft α ε) := do
  d.requireFree decl.name decl.span
  let members ← decl.members.mapM fun member => return (← d.require member decl.span).unit
  return { d with classes := d.classes ++ [(decl.name, members)] }

def finish (d : Draft α ε) : Except (UnitsError α) (Catalog α ε) :=
  return { entries := d.entries, classes := d.classes, table := ← Conversion.Table.build d.graph }

end Draft

def baseCount (d : Description α) : Nat :=
  (d.units.filter fun u => match u.definition with
    | .base => true
    | _ => false).length

/-- All declarations of a description: units, then conversions, then classes. -/
def draft (d : Description α) : Except (UnitsError α) (Draft α ε) := do
  let units ← d.units.foldlM Draft.declareUnit (Draft.start (baseCount d))
  let conversions ← d.conversions.foldlM Draft.declareConversion units
  d.classes.foldlM Draft.declareClass conversions

def build (d : Description α) : Except (UnitsError α) (Catalog α ε) := do (← draft d).finish

end Metrology.Catalog

import Metrology.Conversion.Table
import Metrology.MeasureUnit

/-! The units, classes and conversions that a program may use. -/
namespace Metrology

structure Catalog.Entry (ε : Type := Int32) where
  unit : MeasureUnit ε
  /-- The unit that a scaled unit is measured in; any other unit stands for itself. -/
  reference : Option (MeasureUnit ε)
deriving DecidableEq, Repr

def Catalog.Entry.coherent {ε : Type} (e : Catalog.Entry ε) : MeasureUnit ε := e.reference.getD e.unit

structure Catalog.Registry (ε : Type := Int32) where
  /-- In order of declaration, the unit of plain numbers first. -/
  entries : List (Catalog.Entry ε)
  classes : List (String × List (MeasureUnit ε))
deriving DecidableEq, Repr

structure Catalog (α : Type) (ε : Type := Int32) extends Catalog.Registry ε where
  table : Conversion.Table α
deriving DecidableEq, Repr

namespace Catalog

variable {ε : Type}

def numberName : String := "number"

def numberUnit [Exponent ε] (arity : Nat) : MeasureUnit ε := ⟨numberName, "", Dimension.none arity, false⟩

namespace Entry

def hasName (e : Entry ε) (word : String) : Bool := e.unit.name = word

/-- An empty symbol names nothing. -/
def hasSymbol (e : Entry ε) (word : String) : Bool := e.unit.symbol ≠ "" && e.unit.symbol = word

end Entry

namespace Registry

/-- A unit by its name or, failing that, by its symbol. -/
def find? (r : Registry ε) (word : String) : Option (Entry ε) :=
  r.entries.find? (·.hasName word) <|> r.entries.find? (·.hasSymbol word)

def lookup (r : Registry ε) (word : String) : Option (MeasureUnit ε) := (r.find? word).map (·.unit)

/-- Whether a word already names a unit or a class. -/
def isTaken (r : Registry ε) (word : String) : Bool :=
  r.entries.any (fun e => e.hasName word || e.hasSymbol word) || r.classes.any (·.1 = word)

def units (r : Registry ε) : List (MeasureUnit ε) := r.entries.map (·.unit)

/-- The symbols of the base units, one for each slot of the dimensions. -/
def baseSymbols (r : Registry ε) : List String := (r.units.filter (·.isBase)).map (·.symbol)

def arity (r : Registry ε) : Nat := r.baseSymbols.length

def number [Exponent ε] (r : Registry ε) : MeasureUnit ε :=
  match r.entries with
  | e :: _ => e.unit
  | [] => numberUnit 0

def reservedWords (r : Registry ε) : List String :=
  let words := r.units.map (·.name) ++ (r.units.map (·.symbol)).filter (· ≠ "") ++ r.classes.map (·.1)
  words.eraseDups.mergeSort

/-- The unit that a unit is measured in. A unit that is not declared stands for itself. -/
def coherentUnit (r : Registry ε) (u : MeasureUnit ε) : MeasureUnit ε :=
  match r.entries.find? (·.hasName u.name) with
  | some e => e.coherent
  | none => u

/-- The first unit with a dimension that is not scaled, or else an anonymous one. -/
def unitFor [Exponent ε] (r : Registry ε) (d : Dimension ε) : MeasureUnit ε :=
  match r.entries.find? (fun e => e.reference.isNone && e.unit.dimension = d) with
  | some e => e.unit
  | none => .anonymous r.baseSymbols d

def members (r : Registry ε) (name : String) : Option (List (MeasureUnit ε)) := r.classes.lookup name

end Registry

variable {α : Type}

/-- The factor between two units given by name or symbol. -/
def factor (c : Catalog α ε) (source target : String) : Option α := do
  c.table.factor (← c.lookup source).name (← c.lookup target).name

def convert [Scalar α] [Exponent ε] (c : Catalog α ε) (value : α) (source target : MeasureUnit ε) : Option α :=
  if source = target then some value
  else (c.factor source.name target.name).map (value * ·)

def notConvertible (source target : MeasureUnit) : String :=
  s!"cannot convert from '{source.name}' to '{target.name}'"

/-- The listing of a catalog: each unit with its dimension, and below it the units it converts to. -/
def listing (c : Catalog Float) : String :=
  let line (u : MeasureUnit) : String :=
    u.render ++ ": " ++ u.dimension.render c.baseSymbols ++ "\n" ++
      String.join (((c.table.connected u.name).filter (·.1 ≠ u.name)).map fun (name, factor) =>
        "    -> " ++ name ++ " x " ++ Decimal.plain factor ++ "\n")
  String.join (c.units.map line)

end Catalog

end Metrology

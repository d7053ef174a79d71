import Metrology.Conversion.Graph

/-! The factors between all pairs of connected units. -/
namespace Metrology.Conversion

/-- A row for each unit, with the factors into the units connected to it. -/
structure Table (α : Type) where
  rows : List (String × List (String × α))
deriving DecidableEq, Repr

namespace Table

variable {α : Type}

def empty : Table α := ⟨[]⟩

/-- The table of a graph in which all ways between two units agree. -/
def build [Scalar α] (g : Graph α) : Except (UnitsError α) (Table α) := do
  return ⟨← g.units.mapM fun unit => do return (unit, ← g.reach unit)⟩

def row (t : Table α) (unit : String) : List (String × α) := (t.rows.lookup unit).getD []

/-- The number that turns a value in `source` into a value in `target`. -/
def factor (t : Table α) (source target : String) : Option α := (t.row source).lookup target

/-- The number of pairs that have a factor. -/
def size (t : Table α) : Nat := t.rows.foldr (fun row n => row.2.length + n) 0

/-- The units connected to a unit, itself included, in order of their names. -/
def connected (t : Table α) (unit : String) : List (String × α) :=
  (t.row unit).mergeSort fun a b => a.1 ≤ b.1

end Table

end Metrology.Conversion

import Metrology.Description
import Metrology.Scalar
import Metrology.UnitsError

/-! Conversions between units as a graph. An edge from a parent to a child carries the factor that
turns a value in the parent into a value in the child; it is followed forwards by multiplying and
backwards by dividing. -/
namespace Metrology.Conversion

/-- A conversion: a value in `child` is a value in `parent` times `factor`. -/
structure Edge (α : Type) where
  child : String
  parent : String
  factor : α
deriving DecidableEq, Repr

structure Graph (α : Type) where
  /-- In order of registration. -/
  units : List String
  /-- Newest first. -/
  edges : List (Edge α)
deriving DecidableEq, Repr

variable {α : Type} [Scalar α]

/-- The edge of a declared conversion, whose factor is finite and positive. -/
def Edge.ofFactor (child parent : String) (factor : α) (direction : Direction) (span : Span) :
    Except (UnitsError α) (Edge α) :=
  if Scalar.isFactor factor then
    .ok ⟨child, parent, match direction with
      | .childToParent => 1 / factor
      | .parentToChild => factor⟩
  else .error (.invalidFactor factor span)

namespace Graph

def empty : Graph α := ⟨[], []⟩

def addUnit (g : Graph α) (name : String) : Graph α :=
  if name ∈ g.units then g else { g with units := g.units ++ [name] }

def indexOf (g : Graph α) (name : String) : Nat := g.units.idxOf name

def addEdge (g : Graph α) (e : Edge α) (span : Span) : Except (UnitsError α) (Graph α) :=
  if e.parent ∉ g.units then .error (.unknownUnit e.parent span)
  else if e.child ∉ g.units then .error (.unknownUnit e.child span)
  else .ok { g with edges := e :: g.edges }

/-- The units one conversion away from `unit`, each with the factor that a unit reached by the
factor `here` passes on to it. -/
def links (g : Graph α) (unit : String) (here : α) : List (String × α) :=
  (g.edges.filter (·.parent = unit)).map (fun e => (e.child, here * e.factor)) ++
    (g.edges.filter (·.child = unit)).map (fun e => (e.parent, here / e.factor))

/-- Takes note of a link out of the explored part: a new unit comes last, and to a known unit the
new way has to give the factor already known. -/
def discover (start : String) (reached : List (String × α)) (link : String × α) :
    Except (UnitsError α) (List (String × α)) :=
  match reached.lookup link.1 with
  | none => .ok (reached ++ [link])
  | some known =>
    if Scalar.close known link.2 then .ok reached
    else .error (.inconsistentCycle start link.1 known link.2)

/-- Follows the links of the unit that was discovered at position `i`. -/
def expand (g : Graph α) (start : String) (reached : List (String × α)) (i : Nat) :
    Except (UnitsError α) (List (String × α)) :=
  match reached[i]? with
  | none => .ok reached
  | some (unit, here) => (g.links unit here).foldlM (discover start) reached

/-- All units connected to `start` with their factors, in breadth-first order. -/
def reach (g : Graph α) (start : String) : Except (UnitsError α) (List (String × α)) :=
  (List.range g.units.length).foldlM (g.expand start) [(start, 1)]

/-- Joins the groups that two units belong to. -/
def join (groups : List (List String)) (a b : String) : List (List String) :=
  let touches (group : List String) : Bool := a ∈ group || b ∈ group
  (groups.filter touches).flatten :: groups.filter (!touches ·)

def components (g : Graph α) : List (List String) :=
  g.edges.foldl (fun groups e => join groups e.parent e.child) (g.units.map ([·]))

end Graph

end Metrology.Conversion

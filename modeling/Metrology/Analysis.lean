import Metrology.Analysis.Function

/-! Checking a program against a catalog of units. -/
namespace Metrology

structure Analysis where
  /-- In the order of discovery; none says the same as one before it. -/
  diagnostics : List Diagnostic
  /-- The values of nodes, by ascending identifier. -/
  results : List (NodeId × Value Float)
deriving Repr

namespace Analysis

def errorCount (a : Analysis) : Nat := a.diagnostics.countP Diagnostic.isError

def warningCount (a : Analysis) : Nat := a.diagnostics.length - a.errorCount

/-- A program is valid when nothing was found, warnings apart. -/
def valid (a : Analysis) : Bool := !a.diagnostics.any Diagnostic.isError

def result? (a : Analysis) (id : NodeId) : Option (Value Float) := a.results.lookup id

def collect {β : Type} (pick : Event → Option β) (log : List Event) : List β :=
  (log.filterMap pick).reverse

def raised : List Event → List Diagnostic := collect fun
  | .raised d => some d
  | _ => none

def recorded : List Event → List (NodeId × Value Float) := collect fun
  | .recorded id v => some (id, v)
  | _ => none

def report (found : List Diagnostic) (d : Diagnostic) : List Diagnostic :=
  if found.any d.repeats then found else found ++ [d]

def insertResult (id : NodeId) (v : Value Float) :
    List (NodeId × Value Float) → List (NodeId × Value Float)
  | [] => [(id, v)]
  | (id', v') :: rest =>
    if id < id' then (id, v) :: (id', v') :: rest
    else if id = id' then (id, v) :: rest
    else (id', v') :: insertResult id v rest

theorem lookup_cons_result (id : NodeId) (v : Value Float) (rs : List (NodeId × Value Float))
    (i : NodeId) : ((id, v) :: rs).lookup i = if i = id then some v else rs.lookup i := by
  by_cases h : i = id
  · simp [h]
  · have : (i == id) = false := by simpa using h
    simp [List.lookup_cons, this, h]

theorem lookup_insertResult (id : NodeId) (v : Value Float) (rs : List (NodeId × Value Float))
    (i : NodeId) :
    (insertResult id v rs).lookup i = if i = id then some v else rs.lookup i := by
  fun_induction insertResult id v rs with
  | case1 => exact lookup_cons_result id v [] i
  | case2 id' v' rest _ => exact lookup_cons_result id v _ i
  | case3 v' rest _ => by_cases h : i = id <;> simp [lookup_cons_result, h]
  | case4 id' v' rest _ hne ih =>
    rw [lookup_cons_result, lookup_cons_result, ih]
    by_cases h : i = id'
    · have : i ≠ id := fun e => hne (e ▸ h)
      simp [h, h ▸ this]
    · simp [h]

def ofLog (log : List Event) : Analysis :=
  ⟨(raised log).foldl report [], (recorded log).foldl (fun rs (id, v) => insertResult id v rs) []⟩

def start (c : Catalog Float) : State := ⟨.empty c.reservedWords, [], none, [], []⟩

/-- The state after a walk. With `reuse` a body is walked once for each combination of argument
shapes, without it at every call. -/
def run (c : Catalog Float) (t : Signatures) (p : Program) (reuse : Bool) : State :=
  ((Walk.program (.ofProgram c t p reuse) p).run (start c)).2

end Analysis

/-- Checks a program. The entry point is the only thing it cannot do without. -/
def analyze (c : Catalog Float) (p : Program) : Except EntryError Analysis := do
  let t ← Signatures.collect p
  return .ofLog (Analysis.run c t p true).log

end Metrology

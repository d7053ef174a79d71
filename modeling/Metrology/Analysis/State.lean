import Metrology.Analysis.Problem
import Metrology.Signature

/-! The state of a walk over a program tree. Everything that a walk finds goes into a log, from
which diagnostics and results are read off at the end. -/
namespace Metrology.Analysis

inductive CallResult
  | invalid
  | void
  | value (v : Value Float)
deriving DecidableEq, Repr

inductive Control
  | branch (node : Node)
  | whileLoop (node : Node)
  | forLoop (node : Node) (update : Option Stmt)
deriving Repr

/-- What happened during a walk. A visit is noted when it ends, with what it returned. -/
inductive Event
  | raised (d : Diagnostic)
  | recorded (id : NodeId) (value : Value Float)
  | exprVisit (node : Node) (result : Option (Value Float))
  /-- With the bindings of the parameters, when the arguments fit them. -/
  | callVisit (node : Node) (callee : String) (bindings : Option (Bindings Float))
      (result : CallResult)
  | conditionVisit (node : Node) (ok : Bool)
  /-- With the functions being walked and the scopes at the beginning of the visit. -/
  | stmtVisit (node : Node) (active : List NodeId) (scopes : ScopeStack Float) (ok : Bool)
  | functionVisit (node : Node) (ok : Bool)
  /-- A call whose arguments fit came back, with the functions being walked around it. -/
  | called (id : NodeId) (active : List NodeId)
  /-- The beginning of a body that may run any number of times, with the scopes there. -/
  | bodyStart (control : Control) (scopes : ScopeStack Float)
deriving Repr

def Event.isFailure : Event → Bool
  | exprVisit _ none => true
  | callVisit _ _ _ .invalid => true
  | conditionVisit _ ok | stmtVisit _ _ _ ok | functionVisit _ ok => !ok
  | _ => false

/-- A function together with the shapes of its arguments. -/
abbrev InstanceKey := NodeId × List String

inductive Expected
  | nothing
  | shape (shape : Shape)
  /-- The declaration names an unknown unit. -/
  | unchecked
deriving DecidableEq, Repr

/-- The function around a statement. -/
structure Frame where
  function : String
  expected : Expected
  /-- The first value returned as a plain `number`. -/
  inferred : Option (Value Float)
deriving DecidableEq, Repr

def Frame.infer (v : Value Float) (frame : Frame) : Frame :=
  { frame with inferred := frame.inferred <|> some v }

structure State where
  scopes : ScopeStack Float
  /-- The functions whose bodies are being walked, innermost first. -/
  active : List NodeId
  /-- Missing at global level. -/
  frame : Option Frame
  /-- What the bodies walked so far return. -/
  instances : List (InstanceKey × Option (Value Float))
  /-- Newest first. -/
  log : List Event
deriving Repr

def State.inferred (s : State) : Option (Value Float) := s.frame.bind (·.inferred)

theorem State.inferred_congr {s t : State} (h : t.frame = s.frame) : t.inferred = s.inferred := by
  rw [inferred, inferred, h]

abbrev Walk := StateM State

namespace Walk

def note (e : Event) : Walk PUnit := modify fun s => { s with log := e :: s.log }

def raise (p : Problem) (span : Span) : Walk PUnit := note (.raised (p.toDiagnostic span))

def record (id : NodeId) (v : Value Float) : Walk PUnit := note (.recorded id v)

def scopes : Walk (ScopeStack Float) := return (← get).scopes

def setScopes (scopes : ScopeStack Float) : Walk PUnit := modify fun s => { s with scopes }

def nested {β : Type} (kind : Scope.Kind) (body : Walk β) : Walk β := do
  let outside ← scopes
  setScopes (outside.push kind)
  let result ← body
  setScopes ((← scopes).truncate outside.depth)
  return result

def calling {β : Type} (id : NodeId) (walk : Walk β) : Walk β := do
  modify fun s => { s with active := id :: s.active }
  let result ← walk
  modify fun s => { s with active := s.active.tail }
  return result

def replaceFrame (frame : Option Frame) : Walk (Option Frame) := do
  let replaced := (← get).frame
  modify fun s => { s with frame }
  return replaced

theorem run_bind {β γ : Type} (x : Walk β) (f : β → Walk γ) (s : State) :
    (x >>= f).run s = (f (x.run s).1).run (x.run s).2 := rfl

@[simp] theorem run_note (e : Event) (s : State) :
    (note e).run s = (⟨⟩, { s with log := e :: s.log }) := rfl

@[simp] theorem run_scopes (s : State) : scopes.run s = (s.scopes, s) := rfl

theorem run_nested {β : Type} (kind : Scope.Kind) (body : Walk β) (s : State) :
    (nested kind body).run s =
      let r := body.run { s with scopes := s.scopes.push kind }
      (r.1, { r.2 with scopes := r.2.scopes.truncate s.scopes.depth }) := rfl

theorem run_calling {β : Type} (id : NodeId) (walk : Walk β) (s : State) :
    (calling id walk).run s =
      let r := walk.run { s with active := id :: s.active }
      (r.1, { r.2 with active := r.2.active.tail }) := rfl

end Walk

end Metrology.Analysis

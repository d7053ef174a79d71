import Metrology.Analysis.State

/-! Walking expressions. The parts of a node are visited first, from left to right; when all of them
have values, the rule of the node either gives it a value, which is recorded, or raises one problem. -/
namespace Metrology.Analysis

structure Context where
  catalog : Catalog Float
  signatures : Signatures
  /-- The functions whose bodies are being walked, innermost first. -/
  active : List NodeId
  /-- Walks the body of a called function for the bindings of its parameters; gives the first value
  returned as a plain number. -/
  enter : NodeId → Bindings Float → Walk (Option (Value Float))

inductive Outcome
  | value (v : Value Float)
  | refused (p : Problem)
  /-- A part of the node has no value. -/
  | failed
deriving DecidableEq, Repr

namespace Outcome

def ofTyping : Except (TypeError Float) (Value Float) → Outcome
  | .ok v => value v
  | .error e => refused (.typing e)

def number (c : Catalog Float) (x : Float) : Option String → Outcome
  | none => value (.measurement (.ofValue c.number x))
  | some word => match c.lookup word with
    | some unit => value (.measurement (.ofValue unit x))
    | none => refused (.unknownUnit word)

def var (scopes : ScopeStack Float) (name : String) : Outcome :=
  match scopes.get? name with
  | some v => value v
  | none => refused (.scope (.undeclared name))

def unary (op : UnaryOp) : Option (Value Float) → Outcome
  | some v => ofTyping (Typing.unary op v)
  | none => failed

def binary (c : Catalog Float) (op : BinaryOp) : Option (Value Float) → Option (Value Float) → Outcome
  | some left, some right => ofTyping (Typing.binary c op left right)
  | _, _ => failed

def cast (c : Catalog Float) (word : String) : Option (Value Float) → Outcome × Option Problem
  | none => (failed, none)
  | some v => match c.lookup word with
    | none => (refused (.unknownUnit word), none)
    | some target => match Typing.cast c target v with
      | .error e => (refused (.typing e), none)
      | .ok (v, dropped) => (value v, dropped.map fun u => .discardedUnit target.name u.name)

def call (callee : String) : CallResult → Outcome
  | .value v => value v
  | .void => refused (.noValue callee)
  | .invalid => failed

end Outcome

namespace Walk

def settle (node : Node) (outcome : Outcome) : Walk (Option (Value Float)) := do
  let result : Option (Value Float) ← match outcome with
    | .value v => do record node.id v; pure (some v)
    | .refused p => do raise p node.span; pure none
    | .failed => pure none
  note (.exprVisit node result)
  return result

/-- Why arguments do not fit: a problem at a place, or nothing to add to the problem that the
declaration of the parameter already has. -/
abbrev Misfit := Option (Problem × Span)

/-- The parameters bound to the arguments, converted into their declared shapes. -/
def bindArguments (c : Catalog Float) (callee : String) :
    Nat → List (String × TypeRef) → List (Value Float × Span) → Except Misfit (Bindings Float)
  | position, (name, type) :: params, (v, span) :: args =>
    match Shape.resolve c type with
    | none => .error none
    | some shape => match Typing.coerce c shape v with
      | .error e => .error (some (.argument position callee e, span))
      | .ok v => do return (name, v) :: (← bindArguments c callee (position + 1) params args)
  | _, _, _ => .ok []

/-- The value of a call, given what its body returned. -/
def callResult (c : Catalog Float) (returns : Option TypeRef) (inferred : Option (Value Float)) :
    CallResult :=
  match returns with
  | none => .void
  | some type => match Shape.resolve c type with
    | none => .invalid
    | some .number => match inferred with
      | some (.measurement q) => .value (.measurement q.forgotten)
      | _ => .value (Shape.number.placeholder c)
    | some shape => .value (shape.placeholder c)

def applyCall (ctx : Context) (node : Node) (callee : String) (args : List Expr)
    (values : List (Option (Value Float))) : Walk CallResult := do
  let conclude (bindings : Option (Bindings Float)) (result : CallResult) : Walk CallResult := do
    note (.callVisit node callee bindings result)
    return result
  match values.mapM id, ctx.signatures.lookup callee with
  | none, _ => conclude none .invalid
  | some _, none =>
    raise (.undeclaredFunction callee) node.span
    conclude none .invalid
  | some values, some signature =>
    if signature.arity ≠ values.length then
      raise (.argumentCount callee signature.arity values.length) node.span
      conclude none .invalid
    else
      let placed := values.zip (args.map fun e => e.node.span)
      match bindArguments ctx.catalog callee 1 signature.params placed with
      | .error misfit =>
        if let some (p, span) := misfit then raise p span
        conclude none .invalid
      | .ok bindings =>
        let inferred ← ctx.enter signature.decl.id bindings
        note (.called signature.decl.id ctx.active)
        conclude (some bindings) (callResult ctx.catalog signature.returns inferred)

mutual

def expr (ctx : Context) : Expr → Walk (Option (Value Float))
  | .number node value unit => settle node (.number ctx.catalog value unit)
  | .text node _ => settle node (.value .text)
  | .flag node _ => settle node (.value .flag)
  | .var node name => do settle node (.var (← scopes) name)
  | .unary node op operand => do
    let v ← expr ctx operand
    settle node (.unary op v)
  | .binary node op left right => do
    let l ← expr ctx left
    let r ← expr ctx right
    settle node (.binary ctx.catalog op l r)
  | .cast node unit operand => do
    let v ← expr ctx operand
    let (outcome, warning) := Outcome.cast ctx.catalog unit v
    if let some p := warning then raise p node.span
    settle node outcome
  | .call node callee args => do
    let values ← exprs ctx args
    let result ← applyCall ctx node callee args values
    settle node (.call callee result)

def exprs (ctx : Context) : List Expr → Walk (List (Option (Value Float)))
  | [] => return []
  | e :: es => do
    let v ← expr ctx e
    let vs ← exprs ctx es
    return v :: vs

end

def condition (ctx : Context) (e : Expr) : Walk Bool := do
  let ok ← match ← expr ctx e with
    | some .flag => pure true
    | some v => do raise (.condition v.describe) e.node.span; pure false
    | none => pure false
  note (.conditionVisit e.node ok)
  return ok

end Walk

end Metrology.Analysis

import Metrology.Analysis.Expr

/-! Walking statements. Each visit tells whether all went well; a statement that fails does not keep
those after it from being visited. -/
namespace Metrology.Analysis.Walk

/-- Stands for a value of a declared type of which nothing else is known. -/
def placeholderFor (c : Catalog Float) (type : TypeRef) : Value Float :=
  ((Shape.resolve c type).getD .number).placeholder c

/-- Keeps the name of a failed declaration visible, where that is possible. -/
def bindPlaceholder (c : Catalog Float) (name : String) (type : TypeRef) : Walk PUnit := do
  match (← scopes).declare name (placeholderFor c type) with
  | .ok s => setScopes s
  | .error _ => pure ⟨⟩

/-- Takes over the scopes after a binding and records its value, or reports why there is none. -/
def commit (node : Node) (v : Value Float) : Except ScopeError (ScopeStack Float) → Walk Bool
  | .ok s => do
    setScopes s
    record node.id v
    return true
  | .error e => do
    raise (.scope e) node.span
    return false

/-- Declares a variable. `init` is missing when there is no initialiser, and holds nothing when it
has no value. -/
def declare (c : Catalog Float) (node : Node) (type : TypeRef) (name : String)
    (init : Option (Option (Value Float))) : Walk Bool := do
  match init with
  | some none =>
    bindPlaceholder c name type
    return false
  | some (some _) | none =>
    match Shape.resolve c type with
    | none =>
      raise (.unknownUnit type.render) node.span
      bindPlaceholder c name type
      return false
    | some shape =>
      match init.join.elim (.ok (shape.placeholder c)) (Typing.coerce c shape) with
      | .error e =>
        raise (.typing e) node.span
        bindPlaceholder c name type
        return false
      | .ok v => commit node v ((← scopes).declare name v)

/-- The shape that a variable keeps. -/
def shapeOf : Value Float → Shape
  | .text => .text
  | .flag => .flag
  | .measurement q => .unit q.unit

theorem shapeOf_ne_number (v : Value Float) : shapeOf v ≠ .number := by cases v <;> nofun

theorem placeholder_shapeOf (c : Catalog Float) (v : Value Float) :
    (shapeOf v).placeholder c = v.forgotten := by cases v <;> rfl

def assign (c : Catalog Float) (node : Node) (target : String) (value : Option (Value Float)) :
    Walk Bool := do
  match value with
  | none => return false
  | some v =>
    match (← scopes).get? target with
    | none =>
      raise (.scope (.undeclared target)) node.span
      return false
    | some current =>
      match Typing.coerce c (shapeOf current) v with
      | .error e =>
        raise (.typing e) node.span
        return false
      | .ok v => commit node v ((← scopes).assign target v)

def infer (v : Value Float) : Walk PUnit := modify fun s => { s with frame := s.frame.map (·.infer v) }

@[simp] theorem run_infer (v : Value Float) (s : State) :
    (infer v).run s = (⟨⟩, { s with frame := s.frame.map (·.infer v) }) := rfl

def checkReturn (c : Catalog Float) (node : Node) (frame : Option Frame) (value : Option (Value Float)) :
    Walk Bool := do
  let refuse (p : Problem) : Walk Bool := do
    raise p node.span
    return false
  match frame with
  | none => refuse .returnOutside
  | some frame =>
    match frame.expected, value with
    | .unchecked, _ | .nothing, none => return true
    | .nothing, some v => refuse (.returnUnexpected frame.function v.describe)
    | .shape shape, none => refuse (.returnMissing frame.function shape.name)
    | .shape shape, some v =>
      match Typing.coerce c shape v with
      | .error e => refuse (.returnType frame.function e)
      | .ok v =>
        if shape = .number then infer v
        return true

def giveBack (ctx : Context) (node : Node) (value : Option (Value Float)) : Walk Bool := do
  checkReturn ctx.catalog node (← get).frame value

theorem run_giveBack (ctx : Context) (node : Node) (value : Option (Value Float)) (s : State) :
    (giveBack ctx node value).run s = (checkReturn ctx.catalog node s.frame value).run s := rfl

def optionCondition (ctx : Context) : Option Expr → Walk Bool
  | none => return true
  | some test => condition ctx test

def visiting (ctx : Context) (node : Node) (body : Walk Bool) : Walk Bool := do
  let before ← scopes
  let ok ← body
  note (.stmtVisit node ctx.active before ok)
  return ok

def startBody (control : Control) : Walk PUnit := do note (.bodyStart control (← scopes))

/-- Runs two walks, the second one whatever comes of the first. -/
def both (first second : Walk Bool) : Walk Bool := do
  let ok ← first
  let ok' ← second
  return ok && ok'

mutual

def stmt (ctx : Context) : Stmt → Walk Bool
  | .declare node type name none =>
    visiting ctx node (declare ctx.catalog node type name none)
  | .declare node type name (some init) => visiting ctx node do
    let v ← expr ctx init
    declare ctx.catalog node type name (some v)
  | .assign node target value => visiting ctx node do
    let v ← expr ctx value
    assign ctx.catalog node target v
  | .branch node arms otherwise => visiting ctx node
    (both (branches ctx (.branch node) arms) (optionBlock ctx (.branch node) otherwise))
  | .whileLoop node test body => visiting ctx node
    (both (condition ctx test) (block ctx (.whileLoop node) body))
  | .forLoop node init test update body => visiting ctx node <|
    nested .block <| both (optionStmt ctx init) <|
      nested .block <| both (optionCondition ctx test) <|
        both (optionStmt ctx update) (openBlock ctx (.forLoop node update) body)
  | .ret node none => visiting ctx node (giveBack ctx node none)
  | .ret node (some value) => visiting ctx node do
    match ← expr ctx value with
    | none => return false
    | some v => giveBack ctx node (some v)
  | .print node value => visiting ctx node do return (← expr ctx value).isSome
  | .expr node (.call callNode callee args) => visiting ctx node do
    let values ← exprs ctx args
    let result ← applyCall ctx callNode callee args values
    return result ≠ .invalid
  | .expr node value => visiting ctx node do return (← expr ctx value).isSome

def optionStmt (ctx : Context) : Option Stmt → Walk Bool
  | none => return true
  | some s => stmt ctx s

def stmts (ctx : Context) : List Stmt → Walk Bool
  | [] => return true
  | s :: rest => both (stmt ctx s) (stmts ctx rest)

def block (ctx : Context) (control : Control) : Block → Walk Bool
  | .mk body _ => nested .block do
    startBody control
    stmts ctx body

/-- Visits a block in the scope around it. -/
def openBlock (ctx : Context) (control : Control) : Block → Walk Bool
  | .mk body _ => do
    startBody control
    stmts ctx body

def optionBlock (ctx : Context) (control : Control) : Option Block → Walk Bool
  | none => return true
  | some b => block ctx control b

def branches (ctx : Context) (control : Control) : List Branch → Walk Bool
  | [] => return true
  | .mk test body :: rest =>
    both (condition ctx test) (both (block ctx control body) (branches ctx control rest))

end

end Metrology.Analysis.Walk

import Metrology.Analysis

/-! The visits of a walk as a tree. A visit has surroundings, something to walk over and the state it finds;
the visits inside it follow in the order of the walk, each from the state that the one before leaves. Entering
a function is a visit of its body, inside the visit of the call. -/
namespace Metrology.Analysis

/-- What can be walked over. -/
inductive Task
  | expr (e : Expr)
  | exprs (es : List Expr)
  /-- A call whose arguments have been visited. -/
  | call (node : Node) (callee : String) (args : List Expr) (values : List (Option (Value Float)))
  | condition (e : Expr)
  | stmt (st : Stmt)
  | stmts (sts : List Stmt)
  /-- A block in a scope of its own. -/
  | block (control : Control) (b : Block)
  /-- A block in the scope around it. -/
  | openBlock (control : Control) (b : Block)
  | branches (control : Control) (arms : List Branch)
  | body (f : FunctionDecl) (bindings : Bindings Float)
  | function (f : FunctionDecl)
  | functions (fs : List FunctionDecl)
  | program (p : Program)

def Task.isOuter : Task → Bool
  | function _ | functions _ | program _ => true
  | _ => false

structure Visit where
  /-- The functions whose bodies are being walked, innermost first. -/
  active : List NodeId
  task : Task
  before : State

def CallResult.toOption : CallResult → Option (Value Float)
  | value v => some v
  | invalid | void => none

namespace Visit

/-- The walk of a visit; gives the values that the visit returns. -/
def walk (env : Setting) (v : Visit) : Walk (List (Value Float)) :=
  let ctx := env.around v.active
  match v.task with
  | .expr e => do return (← Walk.expr ctx e).toList
  | .exprs es => do return (← Walk.exprs ctx es).filterMap id
  | .call node callee args values => do return (← Walk.applyCall ctx node callee args values).toOption.toList
  | .condition e => do discard (Walk.condition ctx e); return []
  | .stmt st => do discard (Walk.stmt ctx st); return []
  | .stmts sts => do discard (Walk.stmts ctx sts); return []
  | .block control b => do discard (Walk.block ctx control b); return []
  | .openBlock control b => do discard (Walk.openBlock ctx control b); return []
  | .branches control arms => do discard (Walk.branches ctx control arms); return []
  | .body f bindings => do return (← Walk.body ctx f bindings).toList
  | .function f => do discard (Walk.function env f); return []
  | .functions fs => do Walk.functions env fs; return []
  | .program p => do Walk.program env p; return []

def returned (env : Setting) (v : Visit) : List (Value Float) := ((v.walk env).run v.before).1

def after (env : Setting) (v : Visit) : State := ((v.walk env).run v.before).2

/-- The body of a function that is called, unless it is being walked or its result is known. -/
def entered (env : Setting) (active : List NodeId) (id : NodeId) (bindings : Bindings Float) (s : State) :
    List Visit :=
  match env.function? id with
  | none => []
  | some f =>
    if id ∈ active ∨ env.reuse ∧ (s.instances.lookup (instanceKey id bindings)).isSome then []
    else [⟨id :: active, .body f bindings, { s with active := id :: s.active }⟩]

def called (env : Setting) (active : List NodeId) (callee : String) (args : List Expr)
    (values : List (Option (Value Float))) (s : State) : List Visit :=
  match values.mapM id, env.signatures.lookup callee with
  | some values, some signature =>
    if signature.arity ≠ values.length then []
    else match Walk.bindArguments env.catalog callee 1 signature.params
        (values.zip (args.map fun e => e.node.span)) with
      | .ok bindings => entered env active signature.decl.id bindings s
      | .error _ => []
  | _, _ => []

def part (v : Visit) (task : Task) (before : State) : Visit := { v with task, before }

/-- The visits inside the visit of a call: its arguments, and then the call. -/
def callParts (env : Setting) (v : Visit) (node : Node) (callee : String) (args : List Expr) : List Visit :=
  let r := (Walk.exprs (env.around v.active) args).run v.before
  [v.part (.exprs args) v.before, v.part (.call node callee args r.1) r.2]

def exprParts (env : Setting) (v : Visit) : Expr → List Visit
  | .number _ _ _ | .text _ _ | .flag _ _ | .var _ _ => []
  | .unary _ _ operand | .cast _ _ operand => [v.part (.expr operand) v.before]
  | .binary _ _ left right =>
    [v.part (.expr left) v.before,
      v.part (.expr right) ((Walk.expr (env.around v.active) left).run v.before).2]
  | .call node callee args => v.callParts env node callee args

def forParts (env : Setting) (v : Visit) (control : Control) (init : Option Stmt) (test : Option Expr)
    (update : Option Stmt) (body : Block) : List Visit :=
  let ctx := env.around v.active
  let outer := { v.before with scopes := v.before.scopes.push .block }
  let started := ((Walk.optionStmt ctx init).run outer).2
  let inner := { started with scopes := started.scopes.push .block }
  let tested := ((Walk.optionCondition ctx test).run inner).2
  let updated := ((Walk.optionStmt ctx update).run tested).2
  init.toList.map (fun st => v.part (.stmt st) outer) ++
    test.toList.map (fun e => v.part (.condition e) inner) ++
    update.toList.map (fun st => v.part (.stmt st) tested) ++ [v.part (.openBlock control body) updated]

def stmtParts (env : Setting) (v : Visit) : Stmt → List Visit
  | .declare _ _ _ none | .ret _ none => []
  | .declare _ _ _ (some e) | .assign _ _ e | .ret _ (some e) | .print _ e => [v.part (.expr e) v.before]
  | .branch node arms otherwise =>
    let after := ((Walk.branches (env.around v.active) (.branch node) arms).run v.before).2
    v.part (.branches (.branch node) arms) v.before ::
      otherwise.toList.map fun b => v.part (.block (.branch node) b) after
  | .whileLoop node test body =>
    let tested := ((Walk.condition (env.around v.active) test).run v.before).2
    [v.part (.condition test) v.before, v.part (.block (.whileLoop node) body) tested]
  | .forLoop node init test update body => v.forParts env (.forLoop node update) init test update body
  | .expr _ (.call node callee args) => v.callParts env node callee args
  | .expr _ e => [v.part (.expr e) v.before]

/-- The visits right inside a visit, in the order of the walk. -/
def parts (env : Setting) (v : Visit) : List Visit :=
  let ctx := env.around v.active
  let s := v.before
  match v.task with
  | .expr e => v.exprParts env e
  | .exprs [] => []
  | .exprs (e :: es) => [v.part (.expr e) s, v.part (.exprs es) ((Walk.expr ctx e).run s).2]
  | .call _ callee args values => called env v.active callee args values s
  | .condition e => [v.part (.expr e) s]
  | .stmt st => v.stmtParts env st
  | .stmts [] => []
  | .stmts (st :: rest) => [v.part (.stmt st) s, v.part (.stmts rest) ((Walk.stmt ctx st).run s).2]
  | .block control b =>
    let pushed := { s with scopes := s.scopes.push .block }
    [v.part (.stmts b.stmts) ((Walk.startBody control).run pushed).2]
  | .openBlock control b => [v.part (.stmts b.stmts) ((Walk.startBody control).run s).2]
  | .branches _ [] => []
  | .branches control (.mk test body :: rest) =>
    let tested := ((Walk.condition ctx test).run s).2
    [v.part (.condition test) s, v.part (.block control body) tested,
      v.part (.branches control rest) ((Walk.block ctx control body).run tested).2]
  | .body f bindings => [v.part (.stmts f.body.stmts) (s.opened env.catalog f bindings)]
  | .function f =>
    if env.signatures.owns f ∧ f.isEntry then
      let bindings := f.params.map fun p => (p.name, Walk.placeholderFor env.catalog p.type)
      let checked := ((Walk.header env f).run s).2
      [⟨[f.id], .body f bindings, { checked with active := f.id :: checked.active }⟩]
    else []
  | .functions [] => []
  | .functions (f :: rest) => [v.part (.function f) s, v.part (.functions rest) ((Walk.function env f).run s).2]
  | .program p =>
    [v.part (.stmts p.globals) s, v.part (.functions p.functions) ((Walk.stmts ctx p.globals).run s).2]

/-- A call only leads to the body of a function that is not being walked. -/
theorem exists_of_mem_called {env : Setting} {active : List NodeId} {callee : String} {args : List Expr}
    {values : List (Option (Value Float))} {s : State} {w : Visit}
    (hw : w ∈ called env active callee args values s) :
    ∃ id f bindings, env.function? id = some f ∧ id ∉ active ∧
      w = ⟨id :: active, .body f bindings, { s with active := id :: s.active }⟩ := by
  unfold called entered at hw
  split at hw
  · split at hw
    · cases hw
    · split at hw
      · next bindings _ =>
        split at hw
        · cases hw
        · next f hf =>
          split at hw
          · cases hw
          · next hfree =>
            exact ⟨_, f, bindings, hf, fun h => hfree (Or.inl h), List.mem_singleton.1 hw⟩
      · cases hw
  · cases hw

/-- The values that an operation is applied to, where a visit is one of an operation and both operands have a
value. -/
def operands (env : Setting) (v : Visit) : Option (Value Float × Value Float) :=
  match v.task with
  | .expr (.binary _ _ left right) =>
    let ctx := env.around v.active
    let l := (Walk.expr ctx left).run v.before
    let r := (Walk.expr ctx right).run l.2
    l.1.bind fun a => r.1.map fun b => (a, b)
  | _ => none

def root (env : Setting) (p : Program) : Visit := ⟨[], .program p, start env.catalog⟩

/-- The visits that the walk over a program comes to. -/
inductive Reached (env : Setting) (p : Program) : Visit → Prop
  | root : Reached env p (root env p)
  | part {v w : Visit} (outside : Reached env p v) (inside : w ∈ v.parts env) : Reached env p w

/-- The visit at a place in the tree, told by the positions on the way to it. -/
def follow (env : Setting) (v : Visit) : List Nat → Option Visit
  | [] => some v
  | i :: path => (v.parts env)[i]?.bind fun w => w.follow env path

theorem Reached.follow {env : Setting} {p : Program} {v w : Visit} (hv : Reached env p v) {path : List Nat}
    (h : v.follow env path = some w) : Reached env p w := by
  induction path generalizing v with
  | nil =>
    cases h
    exact hv
  | cons i path ih =>
    obtain ⟨u, hu, hw⟩ := Option.bind_eq_some_iff.1 h
    exact ih (hv.part (List.mem_of_getElem? hu)) hw

end Visit

end Metrology.Analysis

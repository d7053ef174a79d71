import Metrology.Analysis.Stmt

/-! Walking functions. The body of a called function is walked at the call, with its parameters bound
to the arguments, and once for each combination of argument shapes. A function that is being walked
is not entered again, so bodies are nested at most as deep as there are functions. -/
namespace Metrology.Analysis

structure Setting where
  catalog : Catalog Float
  signatures : Signatures
  /-- The declarations that count for their names. Of two with one identifier the later is meant. -/
  functions : List FunctionDecl
  /-- Whether the result of a body is used again for arguments of the same shapes. -/
  reuse : Bool

namespace Setting

def ofProgram (c : Catalog Float) (t : Signatures) (p : Program) (reuse : Bool) : Setting :=
  ⟨c, t, p.functions.filter t.owns, reuse⟩

def function? (env : Setting) (id : NodeId) : Option FunctionDecl :=
  env.functions.reverse.find? (·.id = id)

def context (env : Setting) (active : List NodeId)
    (enter : NodeId → Bindings Float → Walk (Option (Value Float))) : Context :=
  ⟨env.catalog, env.signatures, active, enter⟩

/-- The number of functions that can still be entered. -/
def idle (env : Setting) (active : List NodeId) : Nat := env.functions.countP (·.id ∉ active)

theorem id_of_function? {env : Setting} {id : NodeId} {f : FunctionDecl}
    (h : env.function? id = some f) : f.id = id := by
  simpa using List.find?_some h

theorem mem_of_function? {env : Setting} {id : NodeId} {f : FunctionDecl}
    (h : env.function? id = some f) : f ∈ env.functions :=
  List.mem_reverse.1 (List.mem_of_find?_eq_some h)

theorem idle_cons_lt {env : Setting} {id : NodeId} {f : FunctionDecl} {active : List NodeId}
    (h : env.function? id = some f) (inactive : id ∉ active) :
    env.idle (id :: active) < env.idle active := by
  have hid := id_of_function? h
  obtain ⟨before, after, split⟩ := List.append_of_mem (mem_of_function? h)
  have mono (fs : List FunctionDecl) :
      fs.countP (·.id ∉ id :: active) ≤ fs.countP (·.id ∉ active) :=
    List.countP_mono_left fun g _ hg => by simp at hg ⊢; exact hg.2
  have hbefore := mono before
  have hafter := mono after
  simp [idle, split, List.countP_append, hid, inactive] at hbefore hafter ⊢
  omega

end Setting

/-- What the body of a function has to return. -/
def expected (c : Catalog Float) (f : FunctionDecl) : Expected :=
  match f.returns with
  | none => .nothing
  | some type => match Shape.resolve c type with
    | none => .unchecked
    | some shape => .shape shape

/-- The shapes of the arguments are named by their descriptions. -/
def instanceKey (id : NodeId) (bindings : Bindings Float) : InstanceKey :=
  (id, bindings.map fun (_, v) => v.describe)

def State.opened (c : Catalog Float) (f : FunctionDecl) (bindings : Bindings Float) (s : State) : State :=
  { s with
    frame := some ⟨f.name, expected c f, none⟩
    scopes := (s.scopes.push .function).bindForgotten bindings }

namespace Walk

/-- Binds parameters. What a parameter holds differs from call to call, so it is not known. -/
def bindParams (bindings : Bindings Float) : Walk PUnit := do
  setScopes ((← scopes).bindForgotten bindings)

/-- Walks a body in a scope and a frame of its own; gives the first value returned as a plain number. -/
def body (ctx : Context) (f : FunctionDecl) (bindings : Bindings Float) :
    Walk (Option (Value Float)) := do
  let outside ← replaceFrame (some ⟨f.name, expected ctx.catalog f, none⟩)
  nested .function do
    bindParams bindings
    discard (stmts ctx f.body.stmts)
  let frame ← replaceFrame outside
  return frame.bind (·.inferred)

theorem run_body (ctx : Context) (f : FunctionDecl) (bindings : Bindings Float) (s : State) :
    (body ctx f bindings).run s =
      let r := (stmts ctx f.body.stmts).run (s.opened ctx.catalog f bindings)
      (r.2.inferred, { r.2 with scopes := r.2.scopes.truncate s.scopes.depth, frame := s.frame }) := rfl

/-- Walks a body unless its result is known. -/
def remembered (reuse : Bool) (key : InstanceKey) (walk : Walk (Option (Value Float))) :
    Walk (Option (Value Float)) := do
  let known := (← get).instances.lookup key
  match if reuse then known else none with
  | some inferred => return inferred
  | none =>
    let inferred ← walk
    modify fun s => { s with instances := (key, inferred) :: s.instances }
    return inferred

theorem run_remembered (reuse : Bool) (key : InstanceKey) (walk : Walk (Option (Value Float)))
    (s : State) : (remembered reuse key walk).run s =
      match if reuse then s.instances.lookup key else none with
      | some inferred => (inferred, s)
      | none =>
        let r := walk.run s
        (r.1, { r.2 with instances := (key, r.1) :: r.2.instances }) := by
  unfold remembered
  rw [run_bind]
  change StateT.run (match if reuse then s.instances.lookup key else none with
    | some inferred => pure inferred
    | none => _) s = _
  split <;> rfl

/-- Enters a called function, unless it is being walked already. The functions that are stand in the state, too;
they are passed along for the walk to be seen to end. -/
def enter (env : Setting) (active : List NodeId) (id : NodeId) (bindings : Bindings Float) :
    Walk (Option (Value Float)) :=
  match _ : env.function? id with
  | none => return none
  | some f =>
    if _ : id ∈ active then return none
    else
      let ctx := env.context (id :: active) fun callee args => enter env (id :: active) callee args
      remembered env.reuse (instanceKey id bindings) (calling id (body ctx f bindings))
termination_by env.idle active
decreasing_by exact Setting.idle_cons_lt ‹_› ‹_›

end Walk

/-- The surroundings of what is walked inside some functions. -/
def Setting.around (env : Setting) (active : List NodeId) : Context :=
  env.context active (Walk.enter env active)

namespace Walk

def functionName (env : Setting) (f : FunctionDecl) : Walk Bool := do
  if env.catalog.isTaken f.name then
    raise (.reservedFunction f.name) f.node.span
    return false
  return true

/-- Checks the name of a parameter, given the names before it that are no reserved words. -/
def paramName (env : Setting) (seen : List String) (p : Param) : Walk Bool := do
  if env.catalog.isTaken p.name then
    raise (.reservedParameter p.name) p.span
    return false
  if p.name ∈ seen then
    raise (.duplicateParameter p.name) p.span
    return false
  return true

def param (env : Setting) (seen : List String) (p : Param) : Walk Bool := do
  let named ← paramName env seen p
  if (Shape.resolve env.catalog p.type).isNone then
    raise (.unknownUnit p.type.render) p.span
    return false
  return named

def params (env : Setting) (seen : List String) : List Param → Walk Bool
  | [] => return true
  | p :: rest => do
    let ok ← param env seen p
    let ok' ← params env (if env.catalog.isTaken p.name then seen else p.name :: seen) rest
    return ok && ok'

def returned (env : Setting) (f : FunctionDecl) : Walk Bool := do
  match f.returns with
  | none => return true
  | some type =>
    if (Shape.resolve env.catalog type).isNone then
      raise (.unknownReturnUnit type.render) f.node.span
      return false
    return true

def header (env : Setting) (f : FunctionDecl) : Walk Bool := do
  let named ← functionName env f
  let listed ← params env [] f.params
  let typed ← returned env f
  return named && listed && typed

/-- Visits a declaration. The body is walked here for the entry point only, whose parameters can
hold anything; what goes wrong in it is not counted against the declaration. -/
def function (env : Setting) (f : FunctionDecl) : Walk Bool := do
  let ok ←
    if env.signatures.owns f then do
      let ok ← header env f
      if f.isEntry then
        let bindings := f.params.map fun p => (p.name, placeholderFor env.catalog p.type)
        discard (calling f.id (body (env.around [f.id]) f bindings))
      pure ok
    else do
      raise (.duplicateFunction f.name) f.node.span
      pure false
  note (.functionVisit f.node ok)
  return ok

def functions (env : Setting) : List FunctionDecl → Walk PUnit
  | [] => return ⟨⟩
  | f :: rest => do
    discard (function env f)
    functions env rest

def program (env : Setting) (p : Program) : Walk PUnit := do
  discard (stmts (env.around []) p.globals)
  functions env p.functions

end Walk

end Metrology.Analysis

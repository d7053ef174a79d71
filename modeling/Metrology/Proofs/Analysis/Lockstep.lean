import Metrology.Proofs.Analysis.Composition
import Metrology.Proofs.Analysis.Tandem

/-! Two walks that cannot tell where they are. What a walk reads is the values of variables, whether a name can be
bound, and what calls give back; as long as these are the same, whatever happens in one walk happens in the other.
So it is with walks whose logs hold different things, and whose surroundings list the functions in different
orders. -/
namespace Metrology.Analysis

/-- Two walks have the same results from related states, and end in related states. -/
abbrev Lockstep {β : Type} (R : State → State → Prop) (x y : Walk β) : Prop := InStep R (fun _ => True) x y

namespace Lockstep

variable {β γ : Type} {R : State → State → Prop}

theorem pure (b : β) : Lockstep R (Pure.pure b : Walk β) (Pure.pure b) := InStep.pure trivial

theorem bind {x y : Walk β} {f g : β → Walk γ} (hxy : Lockstep R x y) (hfg : ∀ b, Lockstep R (f b) (g b)) :
    Lockstep R (x >>= f) (y >>= g) := InStep.bind hxy fun b _ => hfg b

theorem discard {x y : Walk β} (hxy : Lockstep R x y) :
    Lockstep R (Functor.discard x) (Functor.discard y) :=
  fun s s' h => ⟨rfl, trivial, (hxy s s' h).2.2⟩

end Lockstep

def Shows (R : State → State → Prop) (name : String) : Prop :=
  ∀ s s', R s s' → s'.scopes.get? name = s.scopes.get? name

structure Context.Alike (R : State → State → Prop) (ctx ctx' : Context) : Prop where
  note : ∀ {s s'}, R s s' → ∀ e, R ((Walk.note e).run s).2 ((Walk.note e).run s').2
  catalog : ctx'.catalog = ctx.catalog
  lookup : ∀ name, ctx'.signatures.lookup name = ctx.signatures.lookup name
  active : ctx'.active = ctx.active
  enter : ∀ id bindings, Lockstep R (ctx.enter id bindings) (ctx'.enter id bindings)

namespace Walk

section Expressions

variable {R : State → State → Prop} {ctx ctx' : Context} (hc : ctx.Alike R ctx')

include hc

theorem note_lockstep (e : Event) : Lockstep R (note e) (note e) :=
  fun _ _ h => ⟨rfl, trivial, hc.note h e⟩

theorem raise_lockstep (p : Problem) (span : Span) : Lockstep R (raise p span) (raise p span) :=
  note_lockstep hc _

theorem settle_lockstep (node : Node) (o : Outcome) : Lockstep R (settle node o) (settle node o) := by
  have concluded (r : Option (Value Float)) : Lockstep R (do note (.exprVisit node r); return r)
      (do note (.exprVisit node r); return r) := (note_lockstep hc _).bind fun _ => .pure r
  cases o with
  | value v => exact (note_lockstep hc (.recorded node.id v)).bind fun _ => concluded (some v)
  | refused p => exact (raise_lockstep hc p node.span).bind fun _ => concluded none
  | failed => exact concluded none

theorem applyCall_lockstep (node : Node) (callee : String) (args : List Expr)
    (values : List (Option (Value Float))) :
    Lockstep R (applyCall ctx node callee args values) (applyCall ctx' node callee args values) := by
  have concluded (bindings : Option (Bindings Float)) (result : CallResult) :
      Lockstep R (do note (.callVisit node callee bindings result); return result)
        (do note (.callVisit node callee bindings result); return result) :=
    (note_lockstep hc _).bind fun _ => .pure result
  have refused (p : Problem) (span : Span) : Lockstep R
      (do raise p span; note (.callVisit node callee none .invalid); return CallResult.invalid)
      (do raise p span; note (.callVisit node callee none .invalid); return CallResult.invalid) :=
    (raise_lockstep hc p span).bind fun _ => concluded none .invalid
  unfold applyCall
  rw [hc.catalog, hc.active, hc.lookup]
  dsimp only
  split
  · exact concluded none .invalid
  · exact refused _ _
  · next _ signature _ _ =>
    split
    · exact refused _ _
    · split
      · next misfit _ =>
        cases misfit with
        | none => exact concluded none .invalid
        | some misfit => exact refused misfit.1 misfit.2
      · next bindings _ =>
        refine (hc.enter signature.decl.id bindings).bind fun r => ?_
        exact (note_lockstep hc _).bind fun _ => concluded (some bindings) _

omit hc in
mutual

theorem expr_lockstep (hc : ctx.Alike R ctx') (e : Expr) (hvars : ∀ name ∈ e.variables, Shows R name) :
    Lockstep R (expr ctx e) (expr ctx' e) := by
  match e with
  | .number node value unit =>
    rw [expr, expr, hc.catalog]
    exact settle_lockstep hc node _
  | .text node _ =>
    rw [expr, expr]
    exact settle_lockstep hc node _
  | .flag node _ =>
    rw [expr, expr]
    exact settle_lockstep hc node _
  | .var node name =>
    rw [expr, expr]
    intro s s' h
    have hvar : Outcome.var s'.scopes name = Outcome.var s.scopes name := by
      rw [Outcome.var, hvars name (List.mem_singleton_self name) s s' h, Outcome.var]
    rw [run_bind, run_bind, run_scopes, run_scopes, hvar]
    exact settle_lockstep hc node _ s s' h
  | .unary node op operand =>
    rw [expr, expr]
    exact (expr_lockstep hc operand hvars).bind fun _ => settle_lockstep hc node _
  | .binary node op left right =>
    obtain ⟨hleft, hright⟩ := List.forall_mem_append.1 hvars
    rw [expr, expr, hc.catalog]
    refine (expr_lockstep hc left hleft).bind fun _ => (expr_lockstep hc right hright).bind fun _ => ?_
    exact settle_lockstep hc node _
  | .cast node unit operand =>
    rw [expr, expr, hc.catalog]
    refine (expr_lockstep hc operand hvars).bind fun v => ?_
    generalize Outcome.cast ctx.catalog unit v = r
    obtain ⟨outcome, warning⟩ := r
    cases warning with
    | none => exact settle_lockstep hc node outcome
    | some p =>
      refine (raise_lockstep hc p node.span).bind fun _ => ?_
      exact settle_lockstep hc node outcome
  | .call node callee args =>
    rw [expr, expr]
    refine (exprs_lockstep hc args hvars).bind fun values => ?_
    exact (applyCall_lockstep hc node callee args values).bind fun _ => settle_lockstep hc node _

theorem exprs_lockstep (hc : ctx.Alike R ctx') (es : List Expr)
    (hvars : ∀ name ∈ Expr.variablesOfList es, Shows R name) :
    Lockstep R (exprs ctx es) (exprs ctx' es) := by
  match es with
  | [] =>
    rw [exprs, exprs]
    exact .pure _
  | e :: es =>
    obtain ⟨hfirst, hrest⟩ := List.forall_mem_append.1 hvars
    rw [exprs, exprs]
    exact (expr_lockstep hc e hfirst).bind fun _ => (exprs_lockstep hc es hrest).bind fun _ => .pure _

end

theorem condition_lockstep (e : Expr) (hvars : ∀ name ∈ e.variables, Shows R name) :
    Lockstep R (condition ctx e) (condition ctx' e) := by
  have concluded (ok : Bool) : Lockstep R (do note (.conditionVisit e.node ok); return ok)
      (do note (.conditionVisit e.node ok); return ok) := (note_lockstep hc _).bind fun _ => .pure ok
  have refused (p : Problem) : Lockstep R
      (do raise p e.node.span; note (.conditionVisit e.node false); return false)
      (do raise p e.node.span; note (.conditionVisit e.node false); return false) :=
    (raise_lockstep hc p e.node.span).bind fun _ => concluded false
  refine (expr_lockstep hc e hvars).bind fun v => ?_
  cases v with
  | none => exact concluded false
  | some v =>
    cases v with
    | flag => exact concluded true
    | _ => exact refused _

end Expressions

end Walk

/-- What becomes of the scopes of two related states when the same name is bound in both. -/
inductive Bound (R : State → State → Prop) (s s' : State) :
    Except ScopeError (ScopeStack Float) → Except ScopeError (ScopeStack Float) → Prop
  | refused (e : ScopeError) : Bound R s s' (.error e) (.error e)
  | bound {scopes scopes' : ScopeStack Float}
      (related : R { s with scopes } { s' with scopes := scopes' }) : Bound R s s' (.ok scopes) (.ok scopes')

/-- A relation between states of two walks that are at the same place, some blocks inside of where they began. It
goes on as long as the same is done in both. -/
structure Parallel (R : Nat → State → State → Prop) : Prop where
  shows : ∀ n name, Shows (R n) name
  note : ∀ {n s s'}, R n s s' → ∀ e, R n ((Walk.note e).run s).2 ((Walk.note e).run s').2
  visit : ∀ {n s s' t t'}, R n s s' → R n t t' → ∀ node active ok,
    R n ((Walk.note (.stmtVisit node active s.scopes ok)).run t).2
      ((Walk.note (.stmtVisit node active s'.scopes ok)).run t').2
  start : ∀ {n s s'}, R n s s' → ∀ control,
    R n ((Walk.startBody control).run s).2 ((Walk.startBody control).run s').2
  frame : ∀ {n s s'}, R n s s' → s'.frame = s.frame
  infer : ∀ {n s s'}, R n s s' → ∀ v, R n ((Walk.infer v).run s).2 ((Walk.infer v).run s').2
  declare : ∀ {n s s'}, R n s s' → ∀ name v,
    Bound (R n) s s' (s.scopes.declare name v) (s'.scopes.declare name v)
  assign : ∀ {n s s'}, R n s s' → ∀ name v,
    Bound (R n) s s' (s.scopes.assign name v) (s'.scopes.assign name v)
  push : ∀ {n s s'}, R n s s' →
    R (n + 1) { s with scopes := s.scopes.push .block } { s' with scopes := s'.scopes.push .block }
  close : ∀ {n s s' t t'}, R n s s' → R (n + 1) t t' →
    R n { t with scopes := t.scopes.truncate s.scopes.depth }
      { t' with scopes := t'.scopes.truncate s'.scopes.depth }

structure Context.Parallel (R : Nat → State → State → Prop) (ctx ctx' : Context) : Prop
    extends Analysis.Parallel R where
  catalog : ctx'.catalog = ctx.catalog
  lookup : ∀ name, ctx'.signatures.lookup name = ctx.signatures.lookup name
  active : ctx'.active = ctx.active
  enter : ∀ n id bindings, Lockstep (R n) (ctx.enter id bindings) (ctx'.enter id bindings)

theorem Context.Parallel.alike {R : Nat → State → State → Prop} {ctx ctx' : Context}
    (hc : ctx.Parallel R ctx') (n : Nat) : ctx.Alike (R n) ctx' :=
  ⟨hc.note, hc.catalog, hc.lookup, hc.active, hc.enter n⟩

namespace Walk

variable {R : Nat → State → State → Prop} {ctx ctx' : Context}

section Steps

variable (hR : Parallel R) {n : Nat}

include hR

theorem nested_lockstep {β : Type} {x y : Walk β} (h : Lockstep (R (n + 1)) x y) :
    Lockstep (R n) (nested .block x) (nested .block y) := by
  intro s s' hs
  obtain ⟨hresult, -, hend⟩ := h _ _ (hR.push hs)
  exact ⟨hresult, trivial, hR.close hs hend⟩

theorem startBody_lockstep (control : Control) : Lockstep (R n) (startBody control) (startBody control) :=
  fun _ _ h => ⟨rfl, trivial, hR.start h control⟩

theorem infer_lockstep (v : Value Float) : Lockstep (R n) (infer v) (infer v) :=
  fun _ _ h => ⟨rfl, trivial, hR.infer h v⟩

theorem refuse_lockstep (p : Problem) (span : Span) :
    Lockstep (R n) (do raise p span; return false) (do raise p span; return false) :=
  fun _ _ h => ⟨rfl, trivial, hR.note h _⟩

theorem bindPlaceholder_lockstep (c : Catalog Float) (name : String) (type : TypeRef) :
    Lockstep (R n) (bindPlaceholder c name type) (bindPlaceholder c name type) := by
  intro s s' h
  have hbound := hR.declare h name (placeholderFor c type)
  unfold bindPlaceholder
  rw [run_bind, run_bind, run_scopes, run_scopes]
  dsimp only
  revert hbound
  generalize s.scopes.declare name (placeholderFor c type) = r
  generalize s'.scopes.declare name (placeholderFor c type) = r'
  rintro (_ | hrelated)
  · exact ⟨rfl, trivial, h⟩
  · exact ⟨rfl, trivial, hrelated⟩

theorem commit_lockstep {s s' : State} (h : R n s s') (node : Node) (v : Value Float)
    {r r' : Except ScopeError (ScopeStack Float)} (hbound : Bound (R n) s s' r r') :
    ((commit node v r').run s').1 = ((commit node v r).run s).1 ∧ True ∧
      R n ((commit node v r).run s).2 ((commit node v r').run s').2 := by
  cases hbound with
  | refused e => exact ⟨rfl, trivial, hR.note h _⟩
  | bound hrelated => exact ⟨rfl, trivial, hR.note hrelated (.recorded node.id v)⟩

theorem declare_lockstep (c : Catalog Float) (node : Node) (type : TypeRef) (name : String)
    (init : Option (Option (Value Float))) :
    Lockstep (R n) (declare c node type name init) (declare c node type name init) := by
  have failed : Lockstep (R n) (do bindPlaceholder c name type; return false)
      (do bindPlaceholder c name type; return false) :=
    (bindPlaceholder_lockstep hR c name type).bind fun _ => .pure false
  have refused (p : Problem) : Lockstep (R n) (do raise p node.span; bindPlaceholder c name type; return false)
      (do raise p node.span; bindPlaceholder c name type; return false) :=
    fun s s' h => failed _ _ (hR.note h _)
  have committed (v : Value Float) : Lockstep (R n) (do commit node v ((← scopes).declare name v))
      (do commit node v ((← scopes).declare name v)) :=
    fun s s' h => commit_lockstep hR h node v (hR.declare h name v)
  unfold declare
  split
  · exact failed
  all_goals
    split
    · exact refused _
    · split
      · exact refused _
      · exact committed _

theorem assign_lockstep (c : Catalog Float) (node : Node) (target : String) (value : Option (Value Float)) :
    Lockstep (R n) (assign c node target value) (assign c node target value) := by
  have committed (v : Value Float) : Lockstep (R n) (do commit node v ((← scopes).assign target v))
      (do commit node v ((← scopes).assign target v)) :=
    fun s s' h => commit_lockstep hR h node v (hR.assign h target v)
  cases value with
  | none => exact .pure false
  | some v =>
    intro s s' h
    unfold assign
    rw [run_bind, run_bind, run_scopes, run_scopes]
    dsimp only
    rw [hR.shows n target s s' h]
    split
    · exact refuse_lockstep hR _ _ s s' h
    · split
      · exact refuse_lockstep hR _ _ s s' h
      · exact committed _ s s' h

end Steps

variable (hc : ctx.Parallel R ctx') {n : Nat}

include hc

theorem giveBack_lockstep (node : Node) (value : Option (Value Float)) :
    Lockstep (R n) (giveBack ctx node value) (giveBack ctx' node value) := by
  have refused (p : Problem) : Lockstep (R n) (do raise p node.span; return false)
      (do raise p node.span; return false) := refuse_lockstep hc.toParallel _ _
  have checked (frame : Option Frame) : Lockstep (R n) (checkReturn ctx.catalog node frame value)
      (checkReturn ctx.catalog node frame value) := by
    unfold checkReturn
    dsimp only
    split
    · exact refused _
    · split
      · exact .pure true
      · exact .pure true
      · exact refused _
      · exact refused _
      · split
        · exact refused _
        · split
          · exact (infer_lockstep hc.toParallel _).bind fun _ => .pure true
          · exact .pure true
  intro s s' h
  rw [run_giveBack, run_giveBack, hc.catalog, hc.frame h]
  exact checked s.frame s s' h

theorem visiting_lockstep (node : Node) {x y : Walk Bool} (h : Lockstep (R n) x y) :
    Lockstep (R n) (visiting ctx node x) (visiting ctx' node y) := by
  intro s s' hs
  obtain ⟨hresult, -, hend⟩ := h s s' hs
  refine ⟨hresult, trivial, ?_⟩
  unfold visiting
  simp only [run_bind, run_scopes, hresult, hc.active]
  exact hc.visit hs hend node ctx.active _

theorem expr_parallel (e : Expr) : Lockstep (R n) (expr ctx e) (expr ctx' e) :=
  expr_lockstep (hc.alike n) e fun name _ => hc.shows n name

theorem valued_lockstep (e : Expr) :
    Lockstep (R n) (do return (← expr ctx e).isSome) (do return (← expr ctx' e).isSome) :=
  (expr_parallel hc e).bind fun _ => .pure _

theorem condition_parallel (e : Expr) : Lockstep (R n) (condition ctx e) (condition ctx' e) :=
  condition_lockstep (hc.alike n) e fun name _ => hc.shows n name

theorem simple_lockstep {st : Stmt} (hst : st.isSimple = true) :
    Lockstep (R n) (stmt ctx st) (stmt ctx' st) := by
  cases st with
  | branch | whileLoop | forLoop => cases hst
  | declare node type name init =>
    cases init with
    | none =>
      rw [stmt, stmt, hc.catalog]
      exact visiting_lockstep hc node (declare_lockstep hc.toParallel _ node type name none)
    | some init =>
      rw [stmt, stmt, hc.catalog]
      refine visiting_lockstep hc node ((expr_parallel hc init).bind fun v => ?_)
      exact declare_lockstep hc.toParallel _ node type name (some v)
  | assign node target value =>
    rw [stmt, stmt, hc.catalog]
    refine visiting_lockstep hc node ((expr_parallel hc value).bind fun v => ?_)
    exact assign_lockstep hc.toParallel _ node target v
  | ret node value =>
    cases value with
    | none =>
      rw [stmt, stmt]
      exact visiting_lockstep hc node (giveBack_lockstep hc node none)
    | some value =>
      rw [stmt, stmt]
      refine visiting_lockstep hc node ((expr_parallel hc value).bind fun v => ?_)
      cases v with
      | none => exact .pure false
      | some v => exact giveBack_lockstep hc node (some v)
  | print node value =>
    rw [stmt, stmt]
    exact visiting_lockstep hc node (valued_lockstep hc value)
  | expr node value =>
    have hvalued : Lockstep (R n) _ _ := valued_lockstep hc value
    cases value with
    | call callNode callee args =>
      have hargs : Lockstep (R n) (exprs ctx args) (exprs ctx' args) :=
        exprs_lockstep (hc.alike n) args fun name _ => hc.shows n name
      rw [stmt, stmt]
      refine visiting_lockstep hc node (hargs.bind fun values => ?_)
      exact (applyCall_lockstep (hc.alike n) callNode callee args values).bind fun _ => .pure _
    | _ =>
      simp only [stmt]
      exact visiting_lockstep hc node hvalued

theorem lockstep_compositional : Compositional ctx ctx' fun _ x y => ∀ n, Lockstep (R n) x y where
  nothing _ := .pure true
  both hx hy n := (hx n).bind fun _ => (hy n).bind fun _ => .pure _
  simple _ hst _ := simple_lockstep hc hst
  test e _ := condition_parallel hc e
  visiting node _ _ _ hx n := visiting_lockstep hc node (hx n)
  nested hx n := nested_lockstep hc.toParallel (hx (n + 1))
  start control _ _ _ hx n := (startBody_lockstep hc.toParallel control).bind fun _ => hx n

theorem stmts_lockstep (n : Nat) (sts : List Stmt) : Lockstep (R n) (stmts ctx sts) (stmts ctx' sts) :=
  (lockstep_compositional hc).composed.stmts sts n

end Walk

/-- A relation between states that differ in their logs only, which goes on as long as the same is done to
both. -/
structure Twins (R : State → State → Prop) : Prop where
  agree : ∀ {s s'}, R s s' → ∃ log, s' = { s with log }
  note : ∀ {s s'}, R s s' → ∀ e, R ((Walk.note e).run s).2 ((Walk.note e).run s').2
  update : ∀ {s s'}, R s s' → ∀ scopes active frame instances,
    R { s with scopes, active, frame, instances } { s' with scopes, active, frame, instances }

namespace Twins

variable {R : State → State → Prop} (hR : Twins R)

include hR

theorem scopes {s s' : State} (h : R s s') (scopes : ScopeStack Float) : R { s with scopes } { s' with scopes } := by
  obtain ⟨log, rfl⟩ := hR.agree h
  exact hR.update h scopes s.active s.frame s.instances

theorem bound {s s' : State} (h : R s s') (r : Except ScopeError (ScopeStack Float)) : Bound R s s' r r := by
  cases r with
  | error e => exact .refused e
  | ok scopes => exact .bound (hR.scopes h scopes)

/-- With the same scopes, all that is done with them is the same. -/
theorem parallel : Parallel fun _ => R where
  shows _ name s s' h := by
    obtain ⟨log, rfl⟩ := hR.agree h
    rfl
  note := hR.note
  visit h ht node active ok := by
    obtain ⟨log, rfl⟩ := hR.agree h
    exact hR.note ht _
  start h control := by
    obtain ⟨log, rfl⟩ := hR.agree h
    exact hR.note h _
  frame h := by
    obtain ⟨log, rfl⟩ := hR.agree h
    rfl
  infer {_ s _} h v := by
    obtain ⟨log, rfl⟩ := hR.agree h
    exact hR.update h s.scopes s.active _ s.instances
  declare h name v := by
    obtain ⟨log, rfl⟩ := hR.agree h
    exact hR.bound h _
  assign h name v := by
    obtain ⟨log, rfl⟩ := hR.agree h
    exact hR.bound h _
  push h := by
    obtain ⟨log, rfl⟩ := hR.agree h
    exact hR.scopes h _
  close h ht := by
    obtain ⟨log, rfl⟩ := hR.agree h
    obtain ⟨log', rfl⟩ := hR.agree ht
    exact hR.scopes ht _

end Twins

namespace Walk

variable {R : State → State → Prop} (hR : Twins R)

include hR

theorem remembered_lockstep (reuse : Bool) (key : InstanceKey) {x y : Walk (Option (Value Float))}
    (h : Lockstep R x y) : Lockstep R (remembered reuse key x) (remembered reuse key y) := by
  intro s s' hs
  obtain ⟨log, rfl⟩ := hR.agree hs
  rw [run_remembered, run_remembered]
  dsimp only
  split
  · exact ⟨rfl, trivial, hs⟩
  · obtain ⟨hresult, -, hend⟩ := h s _ hs
    refine ⟨hresult, trivial, ?_⟩
    dsimp only
    rw [hresult]
    generalize (y.run { s with log }).2 = t at hend ⊢
    obtain ⟨log', rfl⟩ := hR.agree hend
    exact hR.update hend _ _ _ _

theorem calling_lockstep {β : Type} (id : NodeId) {x y : Walk β} (h : Lockstep R x y) :
    Lockstep R (calling id x) (calling id y) := by
  intro s s' hs
  obtain ⟨log, rfl⟩ := hR.agree hs
  rw [run_calling, run_calling]
  obtain ⟨hresult, -, hend⟩ := h _ _ (hR.update hs s.scopes (id :: s.active) s.frame s.instances)
  refine ⟨hresult, trivial, ?_⟩
  dsimp only
  generalize (y.run { s with active := id :: s.active, log }).2 = t at hend ⊢
  obtain ⟨log', rfl⟩ := hR.agree hend
  exact hR.update hend _ _ _ _

theorem body_lockstep {ctx ctx' : Context} (hc : ctx.Parallel (fun _ => R) ctx') (f : FunctionDecl)
    (bindings : Bindings Float) : Lockstep R (body ctx f bindings) (body ctx' f bindings) := by
  intro s s' hs
  obtain ⟨log, rfl⟩ := hR.agree hs
  rw [run_body, run_body, hc.catalog]
  obtain ⟨-, -, hend⟩ := stmts_lockstep hc 0 f.body.stmts (s.opened ctx.catalog f bindings)
    (State.opened ctx.catalog f bindings { s with log }) (hR.update hs _ s.active _ s.instances)
  dsimp only
  generalize ((stmts ctx' f.body.stmts).run (State.opened ctx.catalog f bindings { s with log })).2 = t at hend ⊢
  obtain ⟨log', rfl⟩ := hR.agree hend
  exact ⟨rfl, trivial, hR.update hend _ _ _ _⟩

end Walk

/-- Settings in which every name and every identifier stand for the same function. -/
structure Setting.Alike (env env' : Setting) : Prop where
  catalog : env'.catalog = env.catalog
  reuse : env'.reuse = env.reuse
  lookup : ∀ name, env'.signatures.lookup name = env.signatures.lookup name
  function? : ∀ id, env'.function? id = env.function? id

namespace Setting.Alike

theorem refl (env : Setting) : env.Alike env := ⟨rfl, rfl, fun _ => rfl, fun _ => rfl⟩

variable {env env' : Setting} (h : env.Alike env')

include h

theorem owns_eq (f : FunctionDecl) : env'.signatures.owns f = env.signatures.owns f := by
  rw [Signatures.owns, Signatures.owns, h.lookup]

theorem context {R : State → State → Prop} (hR : Twins R) (active : List NodeId)
    {enter enter' : NodeId → Bindings Float → Walk (Option (Value Float))}
    (henter : ∀ id bindings, Lockstep R (enter id bindings) (enter' id bindings)) :
    (env.context active enter).Parallel (fun _ => R) (env'.context active enter') :=
  ⟨hR.parallel, h.catalog, h.lookup, rfl, fun _ => henter⟩

end Setting.Alike

namespace Walk

variable {R : State → State → Prop} (hR : Twins R) {env env' : Setting} (h : env.Alike env')

include hR h

theorem enter_lockstep (active : List NodeId) (id : NodeId) (bindings : Bindings Float) :
    Lockstep R (enter env active id bindings) (enter env' active id bindings) := by
  fun_induction enter env active id bindings with
  | case1 active id bindings hf =>
    rw [enter_of_none ((h.function? id).trans hf)]
    exact .pure none
  | case2 active id bindings f hf hactive =>
    rw [enter_of_active hactive]
    exact .pure none
  | case3 active id bindings f hf inactive ctx ih =>
    rw [enter_of_inactive ((h.function? id).trans hf) inactive, h.reuse]
    exact remembered_lockstep hR _ _ (calling_lockstep hR id (body_lockstep hR (h.context hR _ ih) f bindings))

theorem around_alike (active : List NodeId) : (env.around active).Parallel (fun _ => R) (env'.around active) :=
  h.context hR active (enter_lockstep hR h active)

end Walk

end Metrology.Analysis

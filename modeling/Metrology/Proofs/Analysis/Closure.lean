import Metrology.Proofs.Analysis.Composition
import Metrology.Proofs.Analysis.Steps

/-! Relations between the states before and after a walk. What every single step keeps, whole
expressions, statements and functions keep; calls are taken as steps of their own, so that what
they keep can be shown by the order in which functions are entered. -/
namespace Metrology

def Stmt.target? : Stmt → Option String
  | declare _ _ name _ => some name
  | assign _ target _ => some target
  | _ => none

namespace Analysis

def Event.isPlain : Event → Bool
  | raised _ | recorded _ _ | exprVisit _ _ | conditionVisit _ _ | functionVisit _ _ => true
  | _ => false

/-- A relation between states that goes on from step to step, as long as only plain events are noted. -/
structure Tracked (R : State → State → Prop) : Prop where
  refl : ∀ s, R s s
  trans : ∀ {s t u}, R s t → R t u → R s u
  note : ∀ s e, e.isPlain = true → R s ((Walk.note e).run s).2

/-- Surroundings in which calls keep such a relation, too. -/
structure Context.Stable (ctx : Context) (R : State → State → Prop) : Prop extends Tracked R where
  call : ∀ node callee args values s, R s ((Walk.applyCall ctx node callee args values).run s).2

/-- So do simple statements, if the only variable that they give a value to is `target`. -/
structure Context.Carries (ctx : Context) (target : Option String) (R : State → State → Prop) : Prop
    extends Context.Stable ctx R where
  visit : ∀ node scopes ok s, R s ((Walk.note (.stmtVisit node ctx.active scopes ok)).run s).2
  declare : ∀ node type name init s, target = some name →
    R s ((Walk.declare ctx.catalog node type name init).run s).2
  assign : ∀ node name value s, target = some name → R s ((Walk.assign ctx.catalog node name value).run s).2
  giveBack : ∀ node value s, R s ((Walk.giveBack ctx node value).run s).2

structure Context.Indifferent (ctx : Context) (R : State → State → Prop) : Prop
    extends Context.Stable ctx R where
  scopes : ∀ s scopes, R s { s with scopes }
  start : ∀ control s, R s ((Walk.startBody control).run s).2
  visit : ∀ node scopes ok s, R s ((Walk.note (.stmtVisit node ctx.active scopes ok)).run s).2
  giveBack : ∀ node value s, R s ((Walk.giveBack ctx node value).run s).2

namespace Walk

variable {R : State → State → Prop} {ctx : Context}

section Tracked

theorem raise_tracked (hR : Tracked R) (p : Problem) (span : Span) (s : State) :
    R s ((raise p span).run s).2 := hR.note s _ rfl

theorem settle_tracked (hR : Tracked R) (node : Node) (o : Outcome) (s : State) :
    R s ((settle node o).run s).2 := by
  have visited (result : Option (Value Float)) (t : State) :
      R t ((note (.exprVisit node result)).run t).2 := hR.note t _ rfl
  cases o with
  | value v => exact hR.trans (hR.note s (.recorded node.id v) rfl) (visited (some v) _)
  | refused p => exact hR.trans (raise_tracked hR p node.span s) (visited none _)
  | failed => exact visited none s

theorem functionName_tracked (hR : Tracked R) (env : Setting) (f : FunctionDecl) (s : State) :
    R s ((functionName env f).run s).2 := by
  unfold functionName
  split
  · exact raise_tracked hR _ _ s
  · exact hR.refl s

theorem paramName_tracked (hR : Tracked R) (env : Setting) (seen : List String) (p : Param)
    (s : State) : R s ((paramName env seen p).run s).2 := by
  unfold paramName
  split
  · exact raise_tracked hR _ _ s
  · split
    · exact raise_tracked hR _ _ s
    · exact hR.refl s

theorem param_tracked (hR : Tracked R) (env : Setting) (seen : List String) (p : Param) (s : State) :
    R s ((param env seen p).run s).2 := by
  have h := paramName_tracked hR env seen p s
  unfold param
  rw [run_bind]
  split
  · exact hR.trans h (raise_tracked hR _ _ _)
  · exact h

theorem params_tracked (hR : Tracked R) (env : Setting) (seen : List String) (ps : List Param)
    (s : State) : R s ((params env seen ps).run s).2 := by
  induction ps generalizing seen s with
  | nil => exact hR.refl s
  | cons p ps ih => exact hR.trans (param_tracked hR env seen p s) (ih _ _)

theorem returned_tracked (hR : Tracked R) (env : Setting) (f : FunctionDecl) (s : State) :
    R s ((returned env f).run s).2 := by
  unfold returned
  split
  · exact hR.refl s
  · split
    · exact raise_tracked hR _ _ s
    · exact hR.refl s

theorem header_tracked (hR : Tracked R) (env : Setting) (f : FunctionDecl) (s : State) :
    R s ((header env f).run s).2 := by
  have hname := functionName_tracked hR env f s
  have hparams := params_tracked hR env [] f.params ((functionName env f).run s).2
  exact hR.trans (hR.trans hname hparams) (returned_tracked hR env f _)

theorem function_tracked (hR : Tracked R) (env : Setting) (f : FunctionDecl)
    (hbody : ∀ bindings s, R s ((calling f.id (body (env.around [f.id]) f bindings)).run s).2) (s : State) :
    R s ((function env f).run s).2 := by
  have visited (ok : Bool) (t : State) : R t ((note (.functionVisit f.node ok)).run t).2 :=
    hR.note t _ rfl
  have hheader := header_tracked hR env f s
  unfold function
  dsimp only
  split
  · rw [run_bind]
    split
    · exact hR.trans (hR.trans hheader (hbody _ _)) (visited _ _)
    · exact hR.trans hheader (visited _ _)
  · exact hR.trans (raise_tracked hR _ _ s) (visited false _)

theorem functions_tracked (hR : Tracked R) (env : Setting)
    (hbody : ∀ f bindings s, R s ((calling f.id (body (env.around [f.id]) f bindings)).run s).2)
    (fs : List FunctionDecl) (s : State) : R s ((functions env fs).run s).2 := by
  induction fs generalizing s with
  | nil => exact hR.refl s
  | cons f fs ih => exact hR.trans (function_tracked hR env f (hbody f) s) (ih _)

end Tracked

section Stable

theorem applyCall_tracked (hR : Tracked R)
    (henter : ∀ id bindings s, R s ((ctx.enter id bindings).run s).2) {node : Node} {callee : String}
    (hcalled : ∀ id s, R s ((note (.called id ctx.active)).run s).2)
    (hvisit : ∀ bindings result s, R s ((note (.callVisit node callee bindings result)).run s).2)
    (args : List Expr) (values : List (Option (Value Float))) (s : State) :
    R s ((applyCall ctx node callee args values).run s).2 := by
  rcases applyCall_cases ctx node callee args values s with
    hrun | ⟨p, span, hrun⟩ | ⟨signature, bindings, _, hrun⟩
  all_goals rw [hrun]
  · exact hvisit none .invalid s
  · exact hR.trans (raise_tracked hR p span s) (hvisit none .invalid _)
  · have hback := hR.trans (henter signature.decl.id bindings s) (hcalled signature.decl.id _)
    exact hR.trans hback (hvisit (some bindings) _ _)

mutual

theorem expr_stable (hc : ctx.Stable R) (e : Expr) (s : State) : R s ((expr ctx e).run s).2 := by
  match e with
  | .number node value unit => exact settle_tracked hc.toTracked node _ s
  | .text node _ => exact settle_tracked hc.toTracked node _ s
  | .flag node _ => exact settle_tracked hc.toTracked node _ s
  | .var node name => exact settle_tracked hc.toTracked node _ s
  | .unary node op operand =>
    exact hc.trans (expr_stable hc operand s) (settle_tracked hc.toTracked node _ _)
  | .binary node op left right =>
    have hleft := expr_stable hc left s
    have hright := expr_stable hc right ((expr ctx left).run s).2
    exact hc.trans (hc.trans hleft hright) (settle_tracked hc.toTracked node _ _)
  | .cast node unit operand =>
    have h := expr_stable hc operand s
    rw [expr, run_bind]
    generalize Outcome.cast ctx.catalog unit ((expr ctx operand).run s).1 = r
    obtain ⟨outcome, warning⟩ := r
    cases warning with
    | none => exact hc.trans h (settle_tracked hc.toTracked node outcome _)
    | some p =>
      have hwarned := hc.trans h (raise_tracked hc.toTracked p node.span _)
      exact hc.trans hwarned (settle_tracked hc.toTracked node outcome _)
  | .call node callee args =>
    have hargs := exprs_stable hc args s
    have hcall := hc.call node callee args ((exprs ctx args).run s).1 ((exprs ctx args).run s).2
    exact hc.trans (hc.trans hargs hcall) (settle_tracked hc.toTracked node _ _)

theorem exprs_stable (hc : ctx.Stable R) (es : List Expr) (s : State) :
    R s ((exprs ctx es).run s).2 := by
  match es with
  | [] => exact hc.refl s
  | e :: es => exact hc.trans (expr_stable hc e s) (exprs_stable hc es ((expr ctx e).run s).2)

end

theorem call_stable (hc : ctx.Stable R) (node : Node) (callee : String) (args : List Expr) (s : State) :
    R s ((applyCall ctx node callee args ((exprs ctx args).run s).1).run ((exprs ctx args).run s).2).2 :=
  hc.trans (exprs_stable hc args s) (hc.call node callee args _ _)

theorem condition_stable (hc : ctx.Stable R) (e : Expr) (s : State) :
    R s ((condition ctx e).run s).2 := by
  have h := expr_stable hc e s
  have visited (ok : Bool) (t : State) : R t ((note (.conditionVisit e.node ok)).run t).2 :=
    hc.note t _ rfl
  unfold condition
  rw [run_bind]
  generalize (expr ctx e).run s = r at h ⊢
  obtain ⟨v, t⟩ := r
  match v with
  | some .flag => exact hc.trans h (visited true t)
  | some .text => exact hc.trans (hc.trans h (raise_tracked hc.toTracked _ _ t)) (visited false _)
  | some (.measurement q) =>
    exact hc.trans (hc.trans h (raise_tracked hc.toTracked _ _ t)) (visited false _)
  | none => exact hc.trans h (visited false t)

theorem optionCondition_stable (hc : ctx.Stable R) (test : Option Expr) (s : State) :
    R s ((optionCondition ctx test).run s).2 := by
  cases test with
  | none => exact hc.refl s
  | some test => exact condition_stable hc test s

end Stable

/-- Simple statements keep what expressions keep and what is done with their values. -/
theorem simple_carries {st : Stmt} (hc : ctx.Carries st.target? R) (hst : st.isSimple = true) (s : State) :
    R s ((stmt ctx st).run s).2 := by
  have visited {node : Node} {x : Walk Bool} (h : R s (x.run s).2) :
      R s ((visiting ctx node x).run s).2 := hc.trans h (hc.visit node s.scopes (x.run s).1 _)
  cases st with
  | branch | whileLoop | forLoop => cases hst
  | declare node type name init =>
    cases init with
    | none =>
      rw [stmt]
      exact visited (hc.declare node type name none s rfl)
    | some init =>
      rw [stmt]
      have h := expr_stable hc.toStable init s
      exact visited (hc.trans h (hc.declare node type name _ _ rfl))
  | assign node target value =>
    rw [stmt]
    have h := expr_stable hc.toStable value s
    exact visited (hc.trans h (hc.assign node target _ _ rfl))
  | ret node value =>
    cases value with
    | none =>
      rw [stmt]
      exact visited (hc.giveBack node none s)
    | some value =>
      rw [stmt]
      have h := expr_stable hc.toStable value s
      refine visited ?_
      rw [run_bind]
      generalize (expr ctx value).run s = r at h ⊢
      obtain ⟨v, t⟩ := r
      cases v with
      | none => exact h
      | some v => exact hc.trans h (hc.giveBack node (some v) t)
  | print node value =>
    rw [stmt]
    exact visited (expr_stable hc.toStable value s)
  | expr node value =>
    have h := expr_stable hc.toStable value s
    cases value with
    | call callNode callee args =>
      rw [stmt]
      exact visited (call_stable hc.toStable callNode callee args s)
    | _ =>
      simp only [stmt]
      exact visited h

section Indifferent

theorem nested_indifferent (hc : ctx.Indifferent R) {β : Type} (kind : Scope.Kind) {body : Walk β}
    (h : ∀ s, R s (body.run s).2) (s : State) : R s ((nested kind body).run s).2 := by
  rw [run_nested]
  exact hc.trans (hc.trans (hc.scopes s _) (h _)) (hc.scopes _ _)

theorem visiting_indifferent (hc : ctx.Indifferent R) (node : Node) {body : Walk Bool} {s : State}
    (h : R s (body.run s).2) : R s ((visiting ctx node body).run s).2 :=
  hc.trans h (hc.visit node s.scopes (body.run s).1 _)

theorem bindPlaceholder_indifferent (hc : ctx.Indifferent R) (c : Catalog Float) (name : String)
    (type : TypeRef) (s : State) : R s ((bindPlaceholder c name type).run s).2 := by
  rcases bindPlaceholder_cases c name type s with h | ⟨scopes, _, h⟩ <;> rw [h]
  · exact hc.refl s
  · exact hc.scopes s scopes

theorem commit_indifferent (hc : ctx.Indifferent R) (node : Node) (v : Value Float)
    (r : Except ScopeError (ScopeStack Float)) (s : State) : R s ((commit node v r).run s).2 := by
  cases r with
  | ok scopes => exact hc.trans (hc.scopes s scopes) (hc.note _ (.recorded node.id v) rfl)
  | error e => exact raise_tracked hc.toTracked _ _ s

theorem declare_indifferent (hc : ctx.Indifferent R) (c : Catalog Float) (node : Node) (type : TypeRef)
    (name : String) (init : Option (Option (Value Float))) (s : State) :
    R s ((declare c node type name init).run s).2 := by
  rcases declare_cases c node type name init s with ⟨_, hrun⟩ | ⟨p, _, hrun⟩ | ⟨v, hrun⟩
  all_goals rw [hrun]
  · exact bindPlaceholder_indifferent hc c name type s
  · exact hc.trans (raise_tracked hc.toTracked p _ s) (bindPlaceholder_indifferent hc c name type _)
  · exact commit_indifferent hc node v _ s

theorem assign_indifferent (hc : ctx.Indifferent R) (c : Catalog Float) (node : Node) (target : String)
    (value : Option (Value Float)) (s : State) : R s ((assign c node target value).run s).2 := by
  rcases assign_cases c node target value s with
    ⟨_, hrun⟩ | ⟨p, _, hrun⟩ | ⟨current, v, _, _, hrun⟩
  all_goals rw [hrun]
  · exact hc.refl s
  · exact raise_tracked hc.toTracked p _ s
  · exact commit_indifferent hc node v _ s

theorem indifferent_carries (hc : ctx.Indifferent R) (target : Option String) :
    ctx.Carries target R where
  toStable := hc.toStable
  visit := hc.visit
  declare node type name init s _ := declare_indifferent hc _ node type name init s
  assign node name value s _ := assign_indifferent hc _ node name value s
  giveBack := hc.giveBack

theorem indifferent_compositional (hc : ctx.Indifferent R) :
    Compositional ctx ctx fun _ x _ => ∀ s, R s (x.run s).2 where
  nothing s := hc.refl s
  both hx hy s := hc.trans (hx s) (hy _)
  simple st hst := simple_carries (indifferent_carries hc st.target?) hst
  test e := condition_stable hc.toStable e
  visiting node _ _ _ hx s := visiting_indifferent hc node (hx s)
  nested hx := nested_indifferent hc .block hx
  start control _ _ _ hx s := hc.trans (hc.start control s) (hx _)

theorem stmt_indifferent (hc : ctx.Indifferent R) (st : Stmt) (s : State) : R s ((stmt ctx st).run s).2 :=
  (indifferent_compositional hc).composed.stmt st s

theorem stmts_indifferent (hc : ctx.Indifferent R) (sts : List Stmt) (s : State) :
    R s ((stmts ctx sts).run s).2 := (indifferent_compositional hc).composed.stmts sts s

theorem block_indifferent (hc : ctx.Indifferent R) (control : Control) (b : Block) (s : State) :
    R s ((block ctx control b).run s).2 := (indifferent_compositional hc).composed.block trivial b s

theorem openBlock_indifferent (hc : ctx.Indifferent R) (control : Control) (b : Block) (s : State) :
    R s ((openBlock ctx control b).run s).2 := by
  cases b with
  | mk sts span => exact hc.trans (hc.start control s) (stmts_indifferent hc sts _)

theorem branches_indifferent (hc : ctx.Indifferent R) (control : Control) (arms : List Branch) (s : State) :
    R s ((branches ctx control arms).run s).2 := (indifferent_compositional hc).composed.branches trivial arms s

end Indifferent

end Walk

end Analysis

end Metrology

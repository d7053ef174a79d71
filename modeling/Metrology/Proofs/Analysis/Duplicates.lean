import Mathlib.Data.List.Nodup
import Metrology.Catalog.Build
import Metrology.Proofs.Analysis.Composition
import Metrology.Proofs.Analysis.Shown
import Metrology.Proofs.Analysis.Steps
import Metrology.Proofs.Signature

/-! Declarations that repeat a name. A walk reports a duplicate at the place of what it declares: variables and
parameters where they stand, and a function only at a declaration that does not count for its name. So where
these places differ, one duplicate is reported for each such declaration, and none for the others. -/
namespace Metrology

/-! ### Where variables are declared -/

def Piece.declared : Piece → List Span
  | simple (.declare node _ _ _) => [node.span]
  | _ => []

def Stmt.declaredOfList (sts : List Stmt) : List Span := (Stmt.piecesOfList sts).flatMap Piece.declared

def FunctionDecl.declared (f : FunctionDecl) : List Span := f.params.map (·.span) ++ Stmt.declaredOfList f.body.stmts

/-- Functions are declared at different places, where nothing else is declared. -/
structure Program.SpansDiffer (p : Program) : Prop where
  functions : (p.functions.map (·.node.span)).Nodup
  globals : ∀ f ∈ p.functions, f.node.span ∉ Stmt.declaredOfList p.globals
  inner : ∀ f ∈ p.functions, ∀ g ∈ p.functions, f.node.span ∉ g.declared

namespace Analysis

def isDuplicateAt (place : Span) (d : Diagnostic) : Bool := d.kind = .duplicateDeclaration ∧ d.span = place

def duplicatesAt (place : Span) (log : List Event) : List Diagnostic :=
  (raised log).filter (isDuplicateAt place)

def duplicateOf (f : FunctionDecl) : Diagnostic := (Problem.duplicateFunction f.name).toDiagnostic f.node.span

/-- A walk that reports no duplicate at a place. -/
def Spares {β : Type} (place : Span) (x : Walk β) : Prop :=
  ∀ s, duplicatesAt place (x.run s).2.log = duplicatesAt place s.log

variable {place : Span}

namespace Spares

variable {β γ : Type}

theorem pure (b : β) : Spares place (Pure.pure b : Walk β) := fun _ => rfl

theorem bind {x : Walk β} {f : β → Walk γ} (hx : Spares place x) (hf : ∀ b, Spares place (f b)) :
    Spares place (x >>= f) := fun s => (hf _ _).trans (hx s)

end Spares

def Context.Spares (place : Span) (ctx : Context) : Prop :=
  ∀ id bindings, Analysis.Spares place (ctx.enter id bindings)

/-! ### Problems that are no duplicates -/

theorem typeError_not_duplicate (e : TypeError Float) : e.kind ≠ .duplicateDeclaration := by
  cases e <;> rintro ⟨⟩

theorem bindArguments_not_duplicate {c : Catalog Float} {callee : String} {position : Nat}
    {params : List (String × TypeRef)} {args : List (Value Float × Span)} {p : Problem} {span : Span}
    (h : Walk.bindArguments c callee position params args = .error (some (p, span))) :
    p.kind ≠ .duplicateDeclaration := by
  -- the first argument that does not fit is the one complained about
  induction params generalizing position args with
  | nil => cases h
  | cons param params ih =>
    cases args with
    | nil => cases h
    | cons arg args =>
      rw [Walk.bindArguments] at h
      cases hshape : Shape.resolve c param.2 with
      | none =>
        rw [hshape] at h
        cases h
      | some shape =>
        rw [hshape] at h
        cases hcoerce : Typing.coerce c shape arg.1 with
        | error e =>
          simp only [hcoerce] at h
          cases h
          rintro ⟨⟩
        | ok v =>
          simp only [hcoerce] at h
          rcases Fallible.bind_eq_error.1 h with h | ⟨bindings, _, h⟩
          · exact ih h
          · cases h

namespace Outcome

/-- A rule that finds no duplicate. -/
def Original (o : Outcome) : Prop := ∀ p, o = .refused p → p.kind ≠ .duplicateDeclaration

theorem original_value (v : Value Float) : (value v).Original := by rintro p ⟨⟩

theorem original_failed : failed.Original := by rintro p ⟨⟩

theorem original_refused {p : Problem} (hp : p.kind ≠ .duplicateDeclaration) : (refused p).Original := by
  rintro q ⟨⟩
  exact hp

theorem original_ofTyping (r : Except (TypeError Float) (Value Float)) : (ofTyping r).Original := by
  cases r with
  | ok v => exact original_value v
  | error e => exact original_refused (typeError_not_duplicate e)

theorem original_number (c : Catalog Float) (x : Float) (unit : Option String) : (number c x unit).Original := by
  unfold number
  split
  · exact original_value _
  · split
    · exact original_value _
    · exact original_refused (by rintro ⟨⟩)

theorem original_var (scopes : ScopeStack Float) (name : String) : (var scopes name).Original := by
  unfold var
  split
  · exact original_value _
  · exact original_refused (by rintro ⟨⟩)

theorem original_unary (op : UnaryOp) (v : Option (Value Float)) : (unary op v).Original := by
  cases v with
  | none => exact original_failed
  | some v => exact original_ofTyping _

theorem original_binary (c : Catalog Float) (op : BinaryOp) (l r : Option (Value Float)) :
    (binary c op l r).Original := by
  unfold binary
  split
  · exact original_ofTyping _
  · exact original_failed

/-- The warning of a cast is no duplicate either. -/
theorem original_cast (c : Catalog Float) (word : String) (v : Option (Value Float)) :
    (cast c word v).1.Original ∧ ∀ p, (cast c word v).2 = some p → p.kind ≠ .duplicateDeclaration := by
  unfold cast
  split
  · exact ⟨original_failed, by rintro p ⟨⟩⟩
  · split
    · exact ⟨original_refused (by rintro ⟨⟩), by rintro p ⟨⟩⟩
    · split
      · next e _ => exact ⟨original_refused (typeError_not_duplicate e), by rintro p ⟨⟩⟩
      · refine ⟨original_value _, fun p hp => ?_⟩
        obtain ⟨u, _, rfl⟩ := Option.map_eq_some_iff.1 hp
        rintro ⟨⟩

theorem original_call (callee : String) (result : CallResult) : (call callee result).Original := by
  cases result with
  | void => exact original_refused (by rintro ⟨⟩)
  | invalid => exact original_failed
  | value v => exact original_value v

end Outcome

namespace Walk

variable {ctx : Context}

theorem note_spares {e : Event} (he : ∀ d, e ≠ .raised d) : Spares place (note e) := by
  intro s
  cases e with
  | raised d => exact absurd rfl (he d)
  | _ => rfl

theorem conclude_spares {e : Event} (he : ∀ d, e ≠ .raised d) {β : Type} (b : β) :
    Spares place (do note e; return b) := (note_spares he).bind fun _ => .pure b

theorem duplicatesAt_raise (p : Problem) (span : Span) (s : State) :
    duplicatesAt place ((raise p span).run s).2.log = duplicatesAt place s.log ++
      if p.kind = .duplicateDeclaration ∧ span = place then [p.toDiagnostic span] else [] := by
  have hlog : ((raise p span).run s).2.log = .raised (p.toDiagnostic span) :: s.log := rfl
  rw [hlog, duplicatesAt, raised_cons, List.filter_append, ← duplicatesAt]
  simp [List.filter_cons, isDuplicateAt, Problem.toDiagnostic]

theorem raise_spares {p : Problem} {span : Span} (h : p.kind = .duplicateDeclaration → span ≠ place) :
    Spares place (raise p span) := by
  intro s
  rw [duplicatesAt_raise, if_neg (fun hp => h hp.1 hp.2), List.append_nil]

theorem refuse_spares {p : Problem} {span : Span} (h : p.kind = .duplicateDeclaration → span ≠ place)
    {β : Type} (b : β) : Spares place (do raise p span; return b) :=
  (raise_spares h).bind fun _ => .pure b

/-! ### Expressions -/

theorem settle_spares (node : Node) {o : Outcome} (ho : o.Original) : Spares place (settle node o) := by
  have concluded (r : Option (Value Float)) : Spares place (do note (.exprVisit node r); return r) :=
    conclude_spares (by simp) r
  cases o with
  | value v => exact (note_spares (e := .recorded node.id v) (by simp)).bind fun _ => concluded (some v)
  | refused p => exact (raise_spares fun hp => absurd hp (ho p rfl)).bind fun _ => concluded none
  | failed => exact concluded none

theorem applyCall_spares (hc : ctx.Spares place) (node : Node) (callee : String) (args : List Expr)
    (values : List (Option (Value Float))) : Spares place (applyCall ctx node callee args values) := by
  have concluded (bindings : Option (Bindings Float)) (result : CallResult) :
      Spares place (do note (.callVisit node callee bindings result); return result) :=
    conclude_spares (by simp) result
  have refused {p : Problem} (span : Span) (hp : p.kind ≠ .duplicateDeclaration) : Spares place
      (do raise p span; note (.callVisit node callee none .invalid); return CallResult.invalid) :=
    (raise_spares fun h => absurd h hp).bind fun _ => concluded none .invalid
  unfold applyCall
  dsimp only
  split
  · exact concluded none .invalid
  · exact refused node.span (by rintro ⟨⟩)
  · next _ signature _ _ =>
    split
    · exact refused node.span (by rintro ⟨⟩)
    · split
      · next misfit hmisfit =>
        cases misfit with
        | none => exact concluded none .invalid
        | some misfit => exact refused misfit.2 (bindArguments_not_duplicate hmisfit)
      · next bindings _ =>
        refine (hc signature.decl.id bindings).bind fun inferred => ?_
        exact (note_spares (e := .called _ _) (by simp)).bind fun _ => concluded (some bindings) _

mutual

theorem expr_spares (hc : ctx.Spares place) (e : Expr) : Spares place (expr ctx e) := by
  match e with
  | .number node value unit =>
    rw [expr]
    exact settle_spares node (Outcome.original_number _ value unit)
  | .text node _ | .flag node _ =>
    rw [expr]
    exact settle_spares node (Outcome.original_value _)
  | .var node name =>
    rw [expr]
    exact fun s => settle_spares node (Outcome.original_var s.scopes name) s
  | .unary node op operand =>
    rw [expr]
    exact (expr_spares hc operand).bind fun v => settle_spares node (Outcome.original_unary op v)
  | .binary node op left right =>
    rw [expr]
    refine (expr_spares hc left).bind fun l => (expr_spares hc right).bind fun r => ?_
    exact settle_spares node (Outcome.original_binary _ op l r)
  | .cast node unit operand =>
    rw [expr]
    refine (expr_spares hc operand).bind fun v => ?_
    obtain ⟨hrule, hwarning⟩ := Outcome.original_cast ctx.catalog unit v
    have hsettle : Spares place (settle node (Outcome.cast ctx.catalog unit v).1) := settle_spares node hrule
    dsimp only
    split
    · next p hp => exact (raise_spares fun h => absurd h (hwarning p hp)).bind fun _ => hsettle
    · exact hsettle
  | .call node callee args =>
    rw [expr]
    refine (exprs_spares hc args).bind fun values => ?_
    refine (applyCall_spares hc node callee args values).bind fun result => ?_
    exact settle_spares node (Outcome.original_call callee result)

theorem exprs_spares (hc : ctx.Spares place) (es : List Expr) : Spares place (exprs ctx es) := by
  match es with
  | [] =>
    rw [exprs]
    exact .pure []
  | e :: es =>
    rw [exprs]
    exact (expr_spares hc e).bind fun v => (exprs_spares hc es).bind fun vs => .pure (v :: vs)

end

theorem condition_spares (hc : ctx.Spares place) (e : Expr) : Spares place (condition ctx e) := by
  have concluded (ok : Bool) : Spares place (do note (.conditionVisit e.node ok); return ok) :=
    conclude_spares (by simp) ok
  refine (expr_spares hc e).bind fun v => ?_
  cases v with
  | none => exact concluded false
  | some v =>
    cases v with
    | flag => exact concluded true
    | text => exact (raise_spares (p := .condition _) (by rintro ⟨⟩)).bind fun _ => concluded false
    | measurement q => exact (raise_spares (p := .condition _) (by rintro ⟨⟩)).bind fun _ => concluded false

/-! ### Statements -/

theorem bindPlaceholder_spares (c : Catalog Float) (name : String) (type : TypeRef) :
    Spares place (bindPlaceholder c name type) := by
  intro s
  rcases bindPlaceholder_cases c name type s with hrun | ⟨scopes, _, hrun⟩ <;> rw [hrun]

theorem commit_spares (node : Node) (v : Value Float) {r : Except ScopeError (ScopeStack Float)}
    (hr : ∀ e, r = .error e → (Problem.scope e).kind = .duplicateDeclaration → node.span ≠ place) :
    Spares place (commit node v r) := by
  cases r with
  | ok scopes => exact fun _ => rfl
  | error e => exact refuse_spares (hr e rfl) false

theorem declare_spares (c : Catalog Float) {node : Node} (hnode : node.span ≠ place) (type : TypeRef)
    (name : String) (init : Option (Option (Value Float))) : Spares place (declare c node type name init) := by
  intro s
  rcases declare_cases c node type name init s with ⟨_, hrun⟩ | ⟨p, _, hrun⟩ | ⟨v, hrun⟩
  all_goals rw [hrun]
  · exact bindPlaceholder_spares c name type s
  · exact (bindPlaceholder_spares c name type _).trans (raise_spares (fun _ => hnode) s)
  · exact commit_spares node v (fun _ _ _ => hnode) s

theorem assign_spares (c : Catalog Float) (node : Node) (target : String) (value : Option (Value Float)) :
    Spares place (assign c node target value) := by
  unfold assign
  split
  · exact .pure false
  · next v =>
    intro s
    rw [run_bind, run_scopes]
    dsimp only
    split
    · exact refuse_spares (by rintro ⟨⟩) false s
    · next current _ =>
      split
      · next e _ => exact refuse_spares (p := .typing e) (fun h => absurd h (typeError_not_duplicate e)) false s
      · next w _ =>
        refine commit_spares node w (fun e he => ?_) s
        unfold ScopeStack.assign at he
        split at he <;> cases he
        rintro ⟨⟩

theorem giveBack_spares (ctx : Context) (node : Node) (value : Option (Value Float)) :
    Spares place (giveBack ctx node value) := by
  intro s
  rw [run_giveBack]
  unfold checkReturn
  dsimp only
  split
  · exact refuse_spares (by rintro ⟨⟩) false s
  · split
    · rfl
    · rfl
    · exact refuse_spares (by rintro ⟨⟩) false s
    · exact refuse_spares (by rintro ⟨⟩) false s
    · split
      · exact refuse_spares (by rintro ⟨⟩) false s
      · split <;> rfl

theorem nested_spares {β : Type} (kind : Scope.Kind) {x : Walk β} (hx : Spares place x) :
    Spares place (nested kind x) := fun s => hx { s with scopes := s.scopes.push kind }

theorem visiting_spares (node : Node) {x : Walk Bool} (hx : Spares place x) :
    Spares place (visiting ctx node x) := hx

theorem startBody_spares (control : Control) : Spares place (startBody control) := fun _ => rfl

theorem valued_spares (hc : ctx.Spares place) (e : Expr) : Spares place (do return (← expr ctx e).isSome) :=
  (expr_spares hc e).bind fun v => .pure v.isSome

theorem simple_spares (hc : ctx.Spares place) {st : Stmt} (hst : st.isSimple = true)
    (h : place ∉ (Piece.simple st).declared) : Spares place (stmt ctx st) := by
  cases st with
  | branch | whileLoop | forLoop => cases hst
  | declare node type name init =>
    have hnode : node.span ≠ place := fun he => h (List.mem_singleton.2 he.symm)
    cases init with
    | none =>
      rw [stmt]
      exact visiting_spares node (declare_spares _ hnode type name none)
    | some init =>
      rw [stmt]
      refine visiting_spares node ((expr_spares hc init).bind fun v => ?_)
      exact declare_spares _ hnode type name (some v)
  | assign node target value =>
    rw [stmt]
    exact visiting_spares node ((expr_spares hc value).bind fun v => assign_spares _ node target v)
  | ret node value =>
    cases value with
    | none =>
      rw [stmt]
      exact visiting_spares node (giveBack_spares ctx node none)
    | some value =>
      rw [stmt]
      refine visiting_spares node ((expr_spares hc value).bind fun v => ?_)
      cases v with
      | none => exact .pure false
      | some v => exact giveBack_spares ctx node (some v)
  | print node value =>
    rw [stmt]
    exact visiting_spares node (valued_spares hc value)
  | expr node value =>
    have hvalued := valued_spares hc value
    cases value with
    | call callNode callee args =>
      rw [stmt]
      refine visiting_spares node ((exprs_spares hc args).bind fun values => ?_)
      exact (applyCall_spares hc callNode callee args values).bind fun _ => .pure _
    | _ =>
      simp only [stmt]
      exact visiting_spares node hvalued

theorem spares_compositional (hc : ctx.Spares place) :
    Compositional ctx ctx fun ps x _ => place ∉ ps.flatMap Piece.declared → Spares place x where
  nothing _ := .pure true
  both hx hy h := by
    rw [List.flatMap_append, List.mem_append, not_or] at h
    exact (hx h.1).bind fun _ => (hy h.2).bind fun _ => .pure _
  simple st hst h := by
    rw [List.flatMap_singleton] at h
    exact simple_spares hc hst h
  test e _ := condition_spares hc e
  visiting node _ _ _ hx h := visiting_spares node (hx h)
  nested hx h := nested_spares .block (hx h)
  start control _ _ _ hx h := (startBody_spares control).bind fun _ => hx h

theorem stmts_spares (hc : ctx.Spares place) (sts : List Stmt) (h : place ∉ Stmt.declaredOfList sts) :
    Spares place (stmts ctx sts) := (spares_compositional hc).composed.stmts sts h

/-! ### Functions -/

theorem body_spares (hc : ctx.Spares place) {f : FunctionDecl} (h : place ∉ f.declared)
    (bindings : Bindings Float) : Spares place (body ctx f bindings) := by
  rw [FunctionDecl.declared, List.mem_append, not_or] at h
  exact fun s => stmts_spares hc f.body.stmts h.2 (s.opened ctx.catalog f bindings)

variable {env : Setting}

theorem enter_spares (henv : ∀ f ∈ env.functions, place ∉ f.declared) (active : List NodeId) (id : NodeId)
    (bindings : Bindings Float) : Spares place (enter env active id bindings) := by
  fun_induction enter env active id bindings with
  | case1 active id bindings hf => exact .pure none
  | case2 active id bindings f hf hactive => exact .pure none
  | case3 active id bindings f hf inactive ctx ih =>
    have hc : ctx.Spares place := ih
    have hbody := body_spares hc (henv f (Setting.mem_of_function? hf)) bindings
    intro s
    rcases remembered_cases env.reuse (instanceKey id bindings) (calling id (body ctx f bindings)) s with
      hrun | ⟨instances, hrun⟩ <;> rw [hrun]
    exact hbody { s with active := id :: s.active }

theorem param_spares (env : Setting) (seen : List String) {p : Param} (hp : p.span ≠ place) :
    Spares place (param env seen p) := by
  have hname : Spares place (paramName env seen p) := by
    unfold paramName
    split
    · exact refuse_spares (fun _ => hp) false
    · split
      · exact refuse_spares (fun _ => hp) false
      · exact .pure true
  refine hname.bind fun named => ?_
  split
  · exact refuse_spares (fun _ => hp) false
  · exact .pure named

theorem params_spares (env : Setting) (seen : List String) {ps : List Param}
    (h : place ∉ ps.map (·.span)) : Spares place (params env seen ps) := by
  induction ps generalizing seen with
  | nil => exact .pure true
  | cons p ps ih =>
    rw [List.map_cons, List.mem_cons, not_or] at h
    exact (param_spares env seen (Ne.symm h.1)).bind fun _ => (ih _ h.2).bind fun _ => .pure _

theorem header_spares (env : Setting) {f : FunctionDecl} (h : place ∉ f.declared) :
    Spares place (header env f) := by
  have hname : Spares place (functionName env f) := by
    unfold functionName
    split
    · exact refuse_spares (by rintro ⟨⟩) false
    · exact .pure true
  have hreturned : Spares place (returned env f) := by
    unfold returned
    split
    · exact .pure true
    · split
      · exact refuse_spares (by rintro ⟨⟩) false
      · exact .pure true
  have hparams : place ∉ f.params.map (·.span) := fun hp => h (List.mem_append_left _ hp)
  refine hname.bind fun _ => (params_spares env [] hparams).bind fun _ => ?_
  exact hreturned.bind fun _ => .pure _

/-- A function is reported at a declaration that does not count. -/
theorem duplicatesAt_function (henv : ∀ f ∈ env.functions, place ∉ f.declared) {f : FunctionDecl}
    (hf : place ∉ f.declared) (s : State) :
    duplicatesAt place ((function env f).run s).2.log = duplicatesAt place s.log ++
      if f.node.span = place ∧ env.signatures.owns f = false then [duplicateOf f] else [] := by
  unfold function
  dsimp only
  cases howned : env.signatures.owns f with
  | true =>
    have hc : (env.around [f.id]).Spares place := enter_spares henv [f.id]
    have hnone : ¬ (f.node.span = place ∧ true = false) := by simp
    rw [if_neg hnone, List.append_nil, if_pos rfl, run_bind]
    -- the body of the entry point is walked behind its header, and no other one is
    refine Eq.trans ?_ (header_spares env hf s)
    split
    · exact body_spares hc hf _ { ((header env f).run s).2 with active := f.id :: ((header env f).run s).2.active }
    · rfl
  | false =>
    rw [if_neg (by simp)]
    exact (duplicatesAt_raise (.duplicateFunction f.name) f.node.span s).trans
      (by simp [Problem.kind, duplicateOf])

theorem duplicatesAt_functions (henv : ∀ f ∈ env.functions, place ∉ f.declared) {fs : List FunctionDecl}
    (hfs : ∀ f ∈ fs, place ∉ f.declared) (s : State) :
    duplicatesAt place ((functions env fs).run s).2.log = duplicatesAt place s.log ++
      (fs.filter fun f => f.node.span = place ∧ env.signatures.owns f = false).map duplicateOf := by
  induction fs generalizing s with
  | nil => exact (List.append_nil _).symm
  | cons f fs ih =>
    obtain ⟨hf, hfs⟩ := List.forall_mem_cons.1 hfs
    refine (ih hfs ((function env f).run s).2).trans ?_
    rw [duplicatesAt_function henv hf, List.append_assoc]
    by_cases hdup : f.node.span = place ∧ env.signatures.owns f = false <;> simp [hdup]

/-- So a program reports duplicates at a place where only functions are declared. -/
theorem duplicatesAt_run (c : Catalog Float) (t : Signatures) {p : Program} (reuse : Bool)
    (hglobals : place ∉ Stmt.declaredOfList p.globals) (hinner : ∀ f ∈ p.functions, place ∉ f.declared) :
    duplicatesAt place (run c t p reuse).log =
      (p.functions.filter fun f => f.node.span = place ∧ t.owns f = false).map duplicateOf := by
  have henv : ∀ f ∈ (Setting.ofProgram c t p reuse).functions, place ∉ f.declared := fun f hf =>
    hinner f (List.mem_filter.1 hf).1
  have hc : ((Setting.ofProgram c t p reuse).around []).Spares place := enter_spares henv []
  exact (duplicatesAt_functions henv hinner _).trans
    (congrArg (· ++ _) (stmts_spares hc p.globals hglobals (start c)))

end Walk

theorem filter_key_of_mem {α κ : Type} [DecidableEq κ] {key : α → κ} {xs : List α} {x : α} (hx : x ∈ xs)
    (hkeys : (xs.map key).Nodup) (q : α → Prop) [DecidablePred q] :
    xs.filter (fun y => key y = key x ∧ q y) = if q x then [x] else [] := by
  obtain ⟨before, after, rfl⟩ := List.append_of_mem hx
  rw [List.map_append, List.map_cons, List.nodup_append, List.nodup_cons] at hkeys
  obtain ⟨-, ⟨hafter, -⟩, hbefore⟩ := hkeys
  have hnone {ys : List α} (hys : ∀ y ∈ ys, key y ≠ key x) :
      ys.filter (fun y => key y = key x ∧ q y) = [] := by
    rw [List.filter_eq_nil_iff]
    intro y hy
    simp [hys y hy]
  rw [List.filter_append, hnone fun y hy => hbefore _ (List.mem_map_of_mem hy) _ List.mem_cons_self,
    List.filter_cons, hnone fun y hy he => hafter (he ▸ List.mem_map_of_mem hy)]
  simp

theorem filter_diagnostics (log : List Event) :
    (ofLog log).diagnostics.filter (isDuplicateAt place) = (duplicatesAt place log).foldl report [] := by
  -- of two findings that say the same, both are duplicates at the place or none is
  refine filter_reports (fun d e h => ?_) (raised log) []
  simp only [Diagnostic.repeats, Bool.and_eq_true, decide_eq_true_eq] at h
  rw [isDuplicateAt, isDuplicateAt, h.1.1, h.1.2]

/-- Signatures are collected exactly if one declaration is tagged as the entry point; else it is missing, or the
first two tagged ones are named, at the place of the second. The signature of a name is that of the first
declaration that has it. Where identifiers differ only those declarations are owned, and where places differ,
one duplicate is reported at each of the others. -/
theorem collection_exact (c : Catalog Float) (p : Program) :
    (Signatures.collect p = .error .missing ↔ ∀ f ∈ p.functions, f.isEntry = false) ∧
    (∀ first second span, Signatures.collect p = .error (.duplicate first second span) ↔ ∃ f g rest,
      p.functions.filter (·.isEntry) = f :: g :: rest ∧
        first = f.name ∧ second = g.name ∧ span = g.node.span) ∧
    ((∃ f, p.functions.filter (·.isEntry) = [f]) → ∃ t a,
      Signatures.collect p = .ok t ∧ analyze c p = .ok a ∧
      (∀ name, t.lookup name = (p.functions.find? (·.name = name)).map .ofDecl) ∧
      ((p.functions.map (·.id)).Nodup → ∀ before f after, p.functions = before ++ f :: after →
        (t.owns f = true ↔ ∀ g ∈ before, g.name ≠ f.name)) ∧
      (p.SpansDiffer → ∀ f ∈ p.functions,
        (a.diagnostics.filter fun d => d.kind = .duplicateDeclaration ∧ d.span = f.node.span) =
          if t.owns f then [] else [(Problem.duplicateFunction f.name).toDiagnostic f.node.span])) := by
  refine ⟨Signatures.collect_eq_missing_iff, fun _ _ _ => Signatures.collect_eq_duplicate_iff, ?_⟩
  rintro ⟨f, hf⟩
  have honce : p.functions.countP (·.isEntry) = 1 := by
    rw [List.countP_eq_length_filter, hf, List.length_singleton]
  obtain ⟨t, ht⟩ := Signatures.collect_of_entry honce
  refine ⟨t, _, ht, Fallible.bind_eq_ok.2 ⟨t, ht, rfl⟩, Signatures.lookup_collect ht,
    fun hids _ _ _ hsplit => Signatures.owns_iff_first ht hids hsplit, fun hspans f hf => ?_⟩
  calc (ofLog (run c t p true).log).diagnostics.filter (isDuplicateAt f.node.span)
      = (duplicatesAt f.node.span (run c t p true).log).foldl report [] := filter_diagnostics _
    _ = (if t.owns f then [] else [duplicateOf f]) := by
      have hone : p.functions.filter (fun g => g.node.span = f.node.span ∧ t.owns g = false) =
          if t.owns f = false then [f] else [] := filter_key_of_mem hf hspans.functions (t.owns · = false)
      rw [Walk.duplicatesAt_run c t true (hspans.globals f hf) (fun g hg => hspans.inner f hf g hg), hone]
      cases t.owns f <;> rfl

/-- Of three functions the last has the name of the first. -/
def reprise : Program where
  items := [
    .function ⟨⟨0, ⟨0, 20⟩⟩, "main", [], none, .mk [.declare ⟨3, ⟨12, 18⟩⟩ .flag "on" none] ⟨10, 20⟩, true⟩,
    .global (.declare ⟨4, ⟨21, 29⟩⟩ .text "label" none),
    .function ⟨⟨1, ⟨30, 50⟩⟩, "report", [⟨"on", .flag, ⟨38, 40⟩⟩], none, .mk [] ⟨45, 50⟩, false⟩,
    .function ⟨⟨2, ⟨51, 70⟩⟩, "main", [], none, .mk [] ⟨60, 70⟩, false⟩]

theorem reprise_collected : ∃ c t a, Catalog.build ({} : Description Float) = .ok c ∧
    (reprise.functions.map (·.id)).Nodup ∧ reprise.SpansDiffer ∧
    Signatures.collect reprise = .ok t ∧ analyze c reprise = .ok a ∧
    reprise.functions.map t.owns = [true, true, false] ∧
    (∀ before f after, reprise.functions = before ++ f :: after →
      (t.owns f = true ↔ ∀ g ∈ before, g.name ≠ f.name)) ∧
    ∀ f ∈ reprise.functions,
      (a.diagnostics.filter fun d => d.kind = .duplicateDeclaration ∧ d.span = f.node.span) =
        if t.owns f then [] else [(Problem.duplicateFunction f.name).toDiagnostic f.node.span] := by
  have hbuilt : (Catalog.build ({} : Description Float)).toOption.isSome = true := by decide +kernel
  obtain ⟨c, hc⟩ := Option.isSome_iff_exists.1 hbuilt
  obtain ⟨-, -, hcollected⟩ := collection_exact c reprise
  obtain ⟨t, a, ht, ha, -, hfirst, hreported⟩ := hcollected ⟨_, rfl⟩
  have howned : (Signatures.collect reprise).toOption.map (fun t => reprise.functions.map t.owns) =
      some [true, true, false] := by decide +kernel
  have hids : (reprise.functions.map (·.id)).Nodup := by decide
  have hspans : reprise.SpansDiffer := ⟨by decide, by decide, by decide⟩
  refine ⟨c, t, a, Fallible.toOption_eq_some.1 hc, hids, hspans, ht, ha, ?_, hfirst hids, hreported hspans⟩
  rw [ht] at howned
  exact Option.some.inj howned

end Analysis

end Metrology

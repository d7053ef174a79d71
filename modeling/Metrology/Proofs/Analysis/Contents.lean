import Metrology.Proofs.Analysis.Tandem.Stmt
import Metrology.Proofs.Analysis.Visits
import Metrology.Proofs.Scope.Contents

/-! The values that a walk comes to. What it stores and what it returns is in units that the catalog measures
in, as long as what it finds is. -/
namespace Metrology.Analysis

open Catalog

def Event.values : Event → List (Value Float)
  | recorded _ v => [v]
  | exprVisit _ result => result.toList
  | callVisit _ _ bindings result => bindings.elim [] Bindings.values ++ result.toOption.toList
  | stmtVisit _ _ scopes _ | bodyStart _ scopes => scopes.values
  | raised _ | conditionVisit _ _ | functionVisit _ _ | called _ _ => []

structure State.Covered (c : Catalog Float) (s : State) : Prop where
  scopes : ∀ v ∈ s.scopes.values, c.Covers v
  inferred : c.CoversAny s.inferred
  instances : ∀ i ∈ s.instances, c.CoversAny i.2
  log : ∀ e ∈ s.log, ∀ v ∈ e.values, c.Covers v

/-- A walk that keeps to covered values and gives a result of some kind. -/
def Covering {β : Type} (c : Catalog Float) (Q : β → Prop) (x : Walk β) : Prop :=
  ∀ s, s.Covered c → Q (x.run s).1 ∧ ((x.run s).2).Covered c

namespace Covering

variable {β γ : Type} {c : Catalog Float} {Q : β → Prop} {R : γ → Prop}

theorem pure {b : β} (hb : Q b) : Covering c Q (Pure.pure b : Walk β) := fun _ hs => ⟨hb, hs⟩

theorem bind {x : Walk β} {f : β → Walk γ} (hx : Covering c Q x) (hf : ∀ b, Q b → Covering c R (f b)) :
    Covering c R (x >>= f) := by
  intro s hs
  obtain ⟨hb, ht⟩ := hx s hs
  exact hf _ hb _ ht

theorem discard {x : Walk β} (hx : Covering c Q x) : Covering c (fun _ => True) (Functor.discard x) :=
  fun s hs => ⟨trivial, (hx s hs).2⟩

end Covering

/-- Surroundings in which a function that is entered with covered arguments gives back a covered value. -/
structure Context.Covered (c : Catalog Float) (ctx : Context) : Prop where
  catalog : ctx.catalog = c
  enter : ∀ id bindings, (∀ b ∈ bindings, c.Covers b.2) → Covering c c.CoversAny (ctx.enter id bindings)

namespace Walk

variable {desc : Description Float} {c : Catalog Float} {ctx : Context}

theorem note_covering {e : Event} (he : ∀ v ∈ e.values, c.Covers v) : Covering c (fun _ => True) (note e) :=
  fun _ hs => ⟨trivial, hs.scopes, hs.inferred, hs.instances, List.forall_mem_cons.2 ⟨he, hs.log⟩⟩

theorem raise_covering (p : Problem) (span : Span) : Covering c (fun _ => True) (raise p span) :=
  note_covering nofun

theorem record_covering (id : NodeId) {v : Value Float} (hv : c.Covers v) :
    Covering c (fun _ => True) (record id v) :=
  note_covering (List.forall_mem_singleton.2 hv)

theorem refuse_covering (p : Problem) (span : Span) :
    Covering c (fun _ => True) (do raise p span; return false) :=
  (raise_covering p span).bind fun _ _ => .pure trivial

theorem setScopes_covering {scopes : ScopeStack Float} (h : ∀ v ∈ scopes.values, c.Covers v) :
    Covering c (fun _ => True) (setScopes scopes) :=
  fun _ hs => ⟨trivial, h, hs.inferred, hs.instances, hs.log⟩

/-! ### Expressions -/

theorem settle_covering (node : Node) {o : Outcome} (ho : o.Covered c) :
    Covering c c.CoversAny (settle node o) := by
  have concluded {r : Option (Value Float)} (hr : c.CoversAny r) :
      Covering c c.CoversAny (do note (.exprVisit node r); return r) := by
    refine (note_covering ?_).bind fun _ _ => .pure hr
    exact fun v hv => hr v (Option.mem_toList.1 hv)
  have hnone : c.CoversAny none := by rintro v ⟨⟩
  cases o with
  | value v =>
    have hv : c.CoversAny (some v) := by
      rintro w ⟨⟩
      exact ho v rfl
    exact (record_covering node.id (ho v rfl)).bind fun _ _ => concluded hv
  | refused p => exact (raise_covering p node.span).bind fun _ _ => concluded hnone
  | failed => exact concluded hnone

theorem applyCall_covering (h : build desc = .ok c) (hc : ctx.Covered c) (node : Node) (callee : String)
    {args : List Expr} {values : List (Option (Value Float))} (hlength : values.length = args.length)
    (hvalues : ∀ v ∈ values, c.CoversAny v) :
    Covering c (CallResult.Covered c) (applyCall ctx node callee args values) := by
  have concluded {bindings : Option (Bindings Float)} {result : CallResult}
      (hbindings : ∀ v ∈ bindings.elim [] Bindings.values, c.Covers v) (hresult : result.Covered c) :
      Covering c (CallResult.Covered c) (do note (.callVisit node callee bindings result); return result) := by
    refine (note_covering ?_).bind fun _ _ => .pure hresult
    refine List.forall_mem_append.2 ⟨hbindings, ?_⟩
    cases result with
    | value v => exact List.forall_mem_singleton.2 (hresult v rfl)
    | invalid | void => nofun
  have failed : Covering c (CallResult.Covered c)
      (do note (.callVisit node callee none .invalid); return CallResult.invalid) :=
    concluded nofun nofun
  have refused (p : Problem) (span : Span) : Covering c (CallResult.Covered c)
      (do raise p span; note (.callVisit node callee none .invalid); return CallResult.invalid) :=
    (raise_covering p span).bind fun _ _ => failed
  unfold applyCall
  rw [hc.catalog]
  cases hv : values.mapM id with
  | none => exact failed
  | some vs =>
    obtain rfl := mapM_id_eq_some hv
    cases hl : ctx.signatures.lookup callee with
    | none => exact refused _ _
    | some signature =>
      dsimp only
      split
      · exact refused _ _
      · next harity =>
        split
        · next misfit _ =>
          cases misfit with
          | none => exact failed
          | some misfit => exact refused misfit.1 misfit.2
        · next bindings hbindings =>
          have hfits := fits_of_call h hlength (not_not.1 harity) hvalues hbindings
          refine (hc.enter _ bindings hfits.covers).bind fun r hr => ?_
          refine (note_covering (e := .called _ _) nofun).bind fun _ _ => ?_
          exact concluded (List.forall_mem_map.2 hfits.covers) (covered_callResult h signature.returns hr)

mutual

theorem expr_covering (h : build desc = .ok c) (hc : ctx.Covered c) (e : Expr) :
    Covering c c.CoversAny (expr ctx e) := by
  match e with
  | .number node value unit =>
    rw [expr, hc.catalog]
    exact settle_covering node (Outcome.covered_number h value unit)
  | .text node _ =>
    rw [expr]
    exact settle_covering node (Outcome.covered_value trivial)
  | .flag node _ =>
    rw [expr]
    exact settle_covering node (Outcome.covered_value trivial)
  | .var node name =>
    rw [expr]
    intro s hs
    have hvar : (Outcome.var s.scopes name).Covered c :=
      Outcome.covered_var (fun n v hv => ScopeStack.values_get? hs.scopes hv) name
    exact settle_covering node hvar s hs
  | .unary node op operand =>
    rw [expr]
    exact (expr_covering h hc operand).bind fun v hv => settle_covering node (Outcome.covered_unary op hv)
  | .binary node op left right =>
    rw [expr, hc.catalog]
    refine (expr_covering h hc left).bind fun l hl => (expr_covering h hc right).bind fun r hr => ?_
    exact settle_covering node (Outcome.covered_binary h op hl hr)
  | .cast node unit operand =>
    rw [expr, hc.catalog]
    refine (expr_covering h hc operand).bind fun v _ => ?_
    have hsettle : Covering c c.CoversAny (settle node (Outcome.cast c unit v).1) :=
      settle_covering node (Outcome.covered_cast unit v)
    dsimp only
    split
    · exact (raise_covering _ node.span).bind fun _ _ => hsettle
    · exact hsettle
  | .call node callee args =>
    rw [expr]
    refine (exprs_covering h hc args).bind fun values hvalues => ?_
    refine (applyCall_covering h hc node callee hvalues.1 hvalues.2).bind fun result hresult => ?_
    apply settle_covering node
    cases result with
    | invalid => exact Outcome.covered_failed
    | void => exact Outcome.covered_refused _
    | value v => exact Outcome.covered_value (hresult v rfl)

theorem exprs_covering (h : build desc = .ok c) (hc : ctx.Covered c) (es : List Expr) :
    Covering c (fun vs => vs.length = es.length ∧ ∀ v ∈ vs, c.CoversAny v) (exprs ctx es) := by
  match es with
  | [] =>
    rw [exprs]
    exact .pure ⟨rfl, nofun⟩
  | e :: es =>
    rw [exprs]
    refine (expr_covering h hc e).bind fun v hv => (exprs_covering h hc es).bind fun vs hvs => .pure ?_
    exact ⟨congrArg (· + 1) hvs.1, List.forall_mem_cons.2 ⟨hv, hvs.2⟩⟩

end

theorem condition_covering (h : build desc = .ok c) (hc : ctx.Covered c) (e : Expr) :
    Covering c (fun _ => True) (condition ctx e) := by
  have concluded (ok : Bool) : Covering c (fun _ => True) (do note (.conditionVisit e.node ok); return ok) :=
    (note_covering (e := .conditionVisit e.node ok) nofun).bind fun _ _ => .pure trivial
  refine (expr_covering h hc e).bind fun v _ => ?_
  match v with
  | some .flag => exact concluded true
  | some .text => exact (raise_covering _ _).bind fun _ _ => concluded false
  | some (.measurement q) => exact (raise_covering _ _).bind fun _ _ => concluded false
  | none => exact concluded false

/-! ### Statements -/

theorem bindPlaceholder_covering (h : build desc = .ok c) (name : String) (type : TypeRef) :
    Covering c (fun _ => True) (bindPlaceholder c name type) := by
  intro s hs
  refine ⟨trivial, ?_⟩
  rcases bindPlaceholder_cases c name type s with hrun | ⟨scopes, hscopes, hrun⟩ <;> rw [hrun]
  · exact hs
  · have hvalues := ScopeStack.values_declare hs.scopes (covers_placeholderFor h type) hscopes
    exact (setScopes_covering hvalues s hs).2

theorem commit_covering (node : Node) {v : Value Float} (hv : c.Covers v)
    {r : Except ScopeError (ScopeStack Float)} (hr : ∀ t, r = .ok t → ∀ w ∈ t.values, c.Covers w) :
    Covering c (fun _ => True) (commit node v r) := by
  cases r with
  | ok t =>
    refine (setScopes_covering (hr t rfl)).bind fun _ _ => ?_
    exact (record_covering node.id hv).bind fun _ _ => .pure trivial
  | error e => exact refuse_covering _ _

theorem declare_covering (h : build desc = .ok c) (node : Node) (type : TypeRef) (name : String)
    {init : Option (Option (Value Float))} (hinit : c.CoversAny init.join) :
    Covering c (fun _ => True) (declare c node type name init) := by
  have failed : Covering c (fun _ => True) (do bindPlaceholder c name type; return false) :=
    (bindPlaceholder_covering h name type).bind fun _ _ => .pure trivial
  have refused (p : Problem) :
      Covering c (fun _ => True) (do raise p node.span; bindPlaceholder c name type; return false) :=
    (raise_covering p node.span).bind fun _ _ => failed
  unfold declare
  split
  · exact failed
  all_goals
    split
    · exact refused _
    · next shape hshape =>
      split
      · exact refused _
      · next v hv =>
        intro s hs
        have hcovers := Covers.initial h hshape hinit hv
        exact commit_covering node hcovers (fun t ht => ScopeStack.values_declare hs.scopes hcovers ht) s hs

theorem assign_covering (node : Node) (target : String) (value : Option (Value Float)) :
    Covering c (fun _ => True) (assign c node target value) := by
  intro s hs
  refine ⟨trivial, ?_⟩
  rcases assign_cases c node target value s with
    ⟨_, hrun⟩ | ⟨p, _, hrun⟩ | ⟨current, v, hcurrent, hshape, hrun⟩
  all_goals rw [hrun]
  · exact hs
  · exact (raise_covering p node.span s hs).2
  · have hcovers : c.Covers v :=
      .of_forgotten (hshape ▸ covers_forgotten c current (ScopeStack.values_get? hs.scopes hcurrent))
    have hscopes (t : ScopeStack Float) (ht : s.scopes.assign target v = .ok t) :
        ∀ w ∈ t.values, c.Covers w :=
      ScopeStack.values_assign hs.scopes (covers_forgotten c) hcovers ht
    exact (commit_covering node hcovers hscopes s hs).2

theorem infer_covering {v : Value Float} (hv : c.Covers v) : Covering c (fun _ => True) (infer v) :=
  fun _ hs => ⟨trivial, hs.scopes, coversAny_infer hs.inferred hv, hs.instances, hs.log⟩

theorem giveBack_covering (h : build desc = .ok c) (hc : ctx.catalog = c) (node : Node)
    {value : Option (Value Float)} (hvalue : c.CoversAny value) :
    Covering c (fun _ => True) (giveBack ctx node value) := by
  have checked (frame : Option Frame) : Covering c (fun _ => True) (checkReturn c node frame value) := by
    unfold checkReturn
    dsimp only
    split
    · exact refuse_covering _ _
    · split
      · exact .pure trivial
      · exact .pure trivial
      · exact refuse_covering _ _
      · exact refuse_covering _ _
      · next shape v _ =>
        split
        · exact refuse_covering _ _
        · next w hw =>
          split
          · next hnumber =>
            subst hnumber
            have hresolve : Shape.resolve c .number = some .number := rfl
            have hcovers := Covers.coerce h hresolve (hvalue v rfl) hw
            exact (infer_covering hcovers).bind fun _ _ => .pure trivial
          · exact .pure trivial
  intro s hs
  rw [run_giveBack, hc]
  exact checked s.frame s hs

theorem nested_covering {β : Type} {Q : β → Prop} (kind : Scope.Kind) {x : Walk β} (hx : Covering c Q x) :
    Covering c Q (nested kind x) := by
  intro s hs
  rw [run_nested]
  have hpush := (setScopes_covering (ScopeStack.values_push hs.scopes (covers_forgotten c) kind) s hs).2
  obtain ⟨hresult, ht⟩ := hx _ hpush
  exact ⟨hresult, (setScopes_covering (ScopeStack.values_truncate ht.scopes _) _ ht).2⟩

theorem visiting_covering (node : Node) {x : Walk Bool} (hx : Covering c (fun _ => True) x) :
    Covering c (fun _ => True) (visiting ctx node x) := by
  intro s hs
  have hnote := note_covering (e := .stmtVisit node ctx.active s.scopes (x.run s).1) hs.scopes
  exact ⟨trivial, (hnote _ (hx s hs).2).2⟩

theorem startBody_covering (control : Control) : Covering c (fun _ => True) (startBody control) :=
  fun s hs => note_covering (e := .bodyStart control s.scopes) hs.scopes s hs

theorem valued_covering (h : build desc = .ok c) (hc : ctx.Covered c) (e : Expr) :
    Covering c (fun _ => True) (do return (← expr ctx e).isSome) :=
  (expr_covering h hc e).bind fun _ _ => .pure trivial

section Statements

variable (h : build desc = .ok c) (hc : ctx.Covered c)

include h hc

theorem simple_covering {st : Stmt} (hst : st.isSimple = true) : Covering c (fun _ => True) (stmt ctx st) := by
  cases st with
  | branch | whileLoop | forLoop => cases hst
  | declare node type name init =>
    cases init with
    | none =>
      rw [stmt, hc.catalog]
      exact visiting_covering node (declare_covering h node type name nofun)
    | some init =>
      rw [stmt, hc.catalog]
      refine visiting_covering node ((expr_covering h hc init).bind fun v hv => ?_)
      exact declare_covering h node type name hv
  | assign node target value =>
    rw [stmt, hc.catalog]
    exact visiting_covering node ((expr_covering h hc value).bind fun v _ => assign_covering node target v)
  | ret node value =>
    cases value with
    | none =>
      rw [stmt]
      exact visiting_covering node (giveBack_covering h hc.catalog node nofun)
    | some value =>
      rw [stmt]
      refine visiting_covering node ((expr_covering h hc value).bind fun v hv => ?_)
      cases v with
      | none => exact .pure trivial
      | some v => exact giveBack_covering h hc.catalog node hv
  | print node value =>
    rw [stmt]
    exact visiting_covering node (valued_covering h hc value)
  | expr node value =>
    have hvalued := valued_covering h hc value
    cases value with
    | call callNode callee args =>
      rw [stmt]
      refine visiting_covering node ((exprs_covering h hc args).bind fun values hvalues => ?_)
      exact (applyCall_covering h hc callNode callee hvalues.1 hvalues.2).bind fun _ _ => .pure trivial
    | _ =>
      simp only [stmt]
      exact visiting_covering node hvalued

theorem covering_compositional : Compositional ctx ctx fun _ x _ => Covering c (fun _ => True) x where
  nothing := .pure trivial
  both hx hy := hx.bind fun _ _ => hy.bind fun _ _ => .pure trivial
  simple _ hst := simple_covering h hc hst
  test := condition_covering h hc
  visiting node _ _ _ hx := visiting_covering node hx
  nested hx := nested_covering .block hx
  start control _ _ _ hx := (startBody_covering control).bind fun _ _ => hx

theorem stmt_covering (st : Stmt) : Covering c (fun _ => True) (stmt ctx st) :=
  (covering_compositional h hc).composed.stmt st

theorem stmts_covering (sts : List Stmt) : Covering c (fun _ => True) (stmts ctx sts) :=
  (covering_compositional h hc).composed.stmts sts

theorem block_covering (control : Control) (b : Block) : Covering c (fun _ => True) (block ctx control b) :=
  (covering_compositional h hc).composed.block trivial b

theorem openBlock_covering (control : Control) (b : Block) :
    Covering c (fun _ => True) (openBlock ctx control b) := by
  cases b with
  | mk body _ =>
    rw [openBlock]
    exact (startBody_covering control).bind fun _ _ => stmts_covering h hc body

theorem branches_covering (control : Control) (arms : List Branch) :
    Covering c (fun _ => True) (branches ctx control arms) :=
  (covering_compositional h hc).composed.branches trivial arms

end Statements

/-! ### Functions -/

theorem bindParams_covering {bindings : Bindings Float} (hbindings : ∀ b ∈ bindings, c.Covers b.2) :
    Covering c (fun _ => True) (bindParams bindings) := by
  intro s hs
  have hvalues := ScopeStack.values_bindForgotten hs.scopes (covers_forgotten c)
    (List.forall_mem_map.2 hbindings)
  exact setScopes_covering hvalues s hs

theorem body_covering (h : build desc = .ok c) (hc : ctx.Covered c) (f : FunctionDecl)
    {bindings : Bindings Float} (hbindings : ∀ b ∈ bindings, c.Covers b.2) :
    Covering c c.CoversAny (body ctx f bindings) := by
  have hinside : Covering c (fun _ => True) (nested .function do
      bindParams bindings
      discard (stmts ctx f.body.stmts)) :=
    nested_covering .function ((bindParams_covering hbindings).bind fun _ _ =>
      (stmts_covering h hc f.body.stmts).discard)
  intro s hs
  obtain ⟨-, ht⟩ := hinside { s with frame := some ⟨f.name, expected ctx.catalog f, none⟩ }
    ⟨hs.scopes, nofun, hs.instances, hs.log⟩
  exact ⟨ht.inferred, ht.scopes, hs.inferred, ht.instances, ht.log⟩

theorem calling_covering {β : Type} {Q : β → Prop} (id : NodeId) {x : Walk β} (hx : Covering c Q x) :
    Covering c Q (calling id x) := by
  intro s hs
  obtain ⟨hresult, ht⟩ := hx { s with active := id :: s.active } ⟨hs.scopes, hs.inferred, hs.instances, hs.log⟩
  exact ⟨hresult, ht.scopes, ht.inferred, ht.instances, ht.log⟩

theorem remembered_covering (reuse : Bool) (key : InstanceKey) {walk : Walk (Option (Value Float))}
    (hwalk : Covering c c.CoversAny walk) : Covering c c.CoversAny (remembered reuse key walk) := by
  intro s hs
  rw [run_remembered]
  split
  · next inferred hknown =>
    have hlookup : s.instances.lookup key = some inferred := by
      split at hknown
      · exact hknown
      · cases hknown
    exact ⟨hs.instances (key, inferred) (Fallible.mem_of_lookup_eq_some hlookup), hs⟩
  · obtain ⟨hresult, ht⟩ := hwalk s hs
    exact ⟨hresult, ht.scopes, ht.inferred, List.forall_mem_cons.2 ⟨hresult, ht.instances⟩, ht.log⟩

theorem enter_covering (h : build desc = .ok c) {env : Setting} (henv : env.catalog = c)
    (active : List NodeId) (id : NodeId) (bindings : Bindings Float)
    (hbindings : ∀ b ∈ bindings, c.Covers b.2) : Covering c c.CoversAny (enter env active id bindings) := by
  fun_induction enter env active id bindings with
  | case1 active id bindings hf => exact .pure nofun
  | case2 active id bindings f hf hactive => exact .pure nofun
  | case3 active id bindings f hf inactive ctx ih =>
    have hc : ctx.Covered c := ⟨henv, ih⟩
    exact remembered_covering env.reuse _ (calling_covering id (body_covering h hc f hbindings))

theorem around_covered (h : build desc = .ok c) {env : Setting} (henv : env.catalog = c)
    (active : List NodeId) : (env.around active).Covered c :=
  ⟨henv, enter_covering h henv active⟩

theorem functionName_covering (env : Setting) (f : FunctionDecl) :
    Covering c (fun _ => True) (functionName env f) := by
  unfold functionName
  split
  · exact refuse_covering _ _
  · exact .pure trivial

theorem paramName_covering (env : Setting) (seen : List String) (p : Param) :
    Covering c (fun _ => True) (paramName env seen p) := by
  unfold paramName
  split
  · exact refuse_covering _ _
  · split
    · exact refuse_covering _ _
    · exact .pure trivial

theorem param_covering (env : Setting) (seen : List String) (p : Param) :
    Covering c (fun _ => True) (param env seen p) := by
  refine (paramName_covering env seen p).bind fun named _ => ?_
  split
  · exact refuse_covering _ _
  · exact .pure trivial

theorem params_covering (env : Setting) (seen : List String) (ps : List Param) :
    Covering c (fun _ => True) (params env seen ps) := by
  induction ps generalizing seen with
  | nil => exact .pure trivial
  | cons p ps ih => exact (param_covering env seen p).bind fun _ _ => (ih _).bind fun _ _ => .pure trivial

theorem returned_covering (env : Setting) (f : FunctionDecl) : Covering c (fun _ => True) (returned env f) := by
  unfold returned
  split
  · exact .pure trivial
  · split
    · exact refuse_covering _ _
    · exact .pure trivial

theorem header_covering (env : Setting) (f : FunctionDecl) : Covering c (fun _ => True) (header env f) := by
  refine (functionName_covering env f).bind fun _ _ => (params_covering env [] f.params).bind fun _ _ => ?_
  exact (returned_covering env f).bind fun _ _ => .pure trivial

theorem placeholders_covered (h : build desc = .ok c) (ps : List Param) :
    ∀ b ∈ ps.map fun p => (p.name, placeholderFor c p.type), c.Covers b.2 :=
  List.forall_mem_map.2 fun p _ => covers_placeholderFor h p.type

theorem function_covering (h : build desc = .ok c) {env : Setting} (henv : env.catalog = c)
    (f : FunctionDecl) : Covering c (fun _ => True) (function env f) := by
  have concluded (ok : Bool) : Covering c (fun _ => True) (do note (.functionVisit f.node ok); return ok) :=
    (note_covering (e := .functionVisit f.node ok) nofun).bind fun _ _ => .pure trivial
  have hbody := calling_covering f.id (body_covering h (around_covered h henv [f.id]) f
    (placeholders_covered h f.params))
  unfold function
  subst henv
  split
  · refine (header_covering env f).bind fun ok _ => ?_
    split
    · exact hbody.discard.bind fun _ _ => concluded ok
    · exact concluded ok
  · exact (raise_covering _ _).bind fun _ _ => concluded false

theorem functions_covering (h : build desc = .ok c) {env : Setting} (henv : env.catalog = c)
    (fs : List FunctionDecl) : Covering c (fun _ => True) (functions env fs) := by
  induction fs with
  | nil => exact .pure trivial
  | cons f fs ih => exact (function_covering h henv f).discard.bind fun _ _ => ih

theorem program_covering (h : build desc = .ok c) {env : Setting} (henv : env.catalog = c) (p : Program) :
    Covering c (fun _ => True) (program env p) :=
  (stmts_covering h (around_covered h henv []) p.globals).discard.bind fun _ _ =>
    functions_covering h henv p.functions

end Walk

end Metrology.Analysis

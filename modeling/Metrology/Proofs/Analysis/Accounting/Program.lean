import Metrology.Proofs.Analysis.Accounting
import Metrology.Proofs.Analysis.Composition
import Metrology.Proofs.Analysis.Steps

/-! Statements, functions and whole programs are accounted for. The body of a function is walked where it
is called, and what goes wrong in it is accounted for there. -/
namespace Metrology.Analysis

variable {known : Prop} {s t : State} {bad : Prop}

theorem Accounted.of_log {s' t' : State} (h : Accounted known s t bad) (hs : s'.log = s.log)
    (ht : t'.log = t.log) : Accounted known s' t' bad := by
  unfold Accounted Between at *
  rwa [hs, ht]

theorem Owing.of_log {t' : State} (h : Owing known s t bad) (ht : t'.log = t.log) :
    Owing known s t' bad := by
  unfold Owing Between at *
  rwa [ht]

namespace Walk

theorem nested_accounted {β : Type} {kind : Scope.Kind} {body : Walk β}
    (h : Accounted known { s with scopes := s.scopes.push kind }
      (body.run { s with scopes := s.scopes.push kind }).2 bad) :
    Accounted known s ((nested kind body).run s).2 bad := h.of_log rfl rfl

theorem visiting_accounted {ctx : Context} {node : Node} {body : Walk Bool}
    (h : Owing known s (body.run s).2 ((body.run s).1 = false)) :
    Accounted known s ((visiting ctx node body).run s).2
      (((visiting ctx node body).run s).1 = false) :=
  h.note (.stmtVisit node ctx.active s.scopes (body.run s).1) trivial rfl (by simp [Event.isFailure])

@[simp] theorem log_bindPlaceholder (c : Catalog Float) (name : String) (type : TypeRef) (s : State) :
    ((bindPlaceholder c name type).run s).2.log = s.log := by
  rcases bindPlaceholder_cases c name type s with h | ⟨scopes, _, h⟩ <;> rw [h]

theorem refused_owing {P : List Event → Prop} (h : Between s t P) {p : Problem} (span : Span)
    (hp : p.severity = .error) : Owing known s ((raise p span).run t).2 (false = false) :=
  (h.raise span hp).congr (by simp)

theorem commit_owing (h : Accounted known s t bad) (node : Node) (v : Value Float)
    (r : Except ScopeError (ScopeStack Float)) :
    Owing known s ((commit node v r).run t).2 (((commit node v r).run t).1 = false) := by
  cases r with
  | ok scopes =>
    have hrec := (h.mono False.elim).note (.recorded node.id v) trivial rfl rfl
    have hfine : Owing known s ((record node.id v).run t).2 (true = false) :=
      hrec.owing.congr (by simp)
    exact hfine.of_log rfl
  | error e => exact refused_owing h node.span rfl

theorem declare_owing (c : Catalog Float) (node : Node) (type : TypeRef) (name : String)
    {init : Option (Option (Value Float))} (h : Accounted known s t (init = some none)) :
    Owing known s ((declare c node type name init).run t).2
      (((declare c node type name init).run t).1 = false) := by
  rcases declare_cases c node type name init t with ⟨hinit, hrun⟩ | ⟨p, hp, hrun⟩ | ⟨v, hrun⟩
  all_goals rw [hrun]
  · have howe : Owing known s t (false = false) := h.owing.congr (by simp [hinit])
    exact howe.of_log (log_bindPlaceholder c name type t)
  · exact (refused_owing h node.span hp).of_log (log_bindPlaceholder c name type _)
  · exact commit_owing h node v _

theorem assign_owing (c : Catalog Float) (node : Node) (target : String)
    {value : Option (Value Float)} (h : Accounted known s t (value = none)) :
    Owing known s ((assign c node target value).run t).2
      (((assign c node target value).run t).1 = false) := by
  rcases assign_cases c node target value t with
    ⟨hvalue, hrun⟩ | ⟨p, hp, hrun⟩ | ⟨current, v, _, _, hrun⟩
  all_goals rw [hrun]
  · exact h.owing.congr (by simp [hvalue])
  · exact refused_owing h node.span hp
  · exact commit_owing h node v _

theorem giveBack_owing (ctx : Context) (node : Node) (value : Option (Value Float))
    (h : Accounted known s t bad) :
    Owing known s ((giveBack ctx node value).run t).2
      (((giveBack ctx node value).run t).1 = false) := by
  have fine : Owing known s t (true = false) := (h.mono False.elim).owing.congr (by simp)
  rcases giveBack_cases ctx node value t with ⟨p, hp, hrun⟩ | hrun | ⟨name, v, _, hrun⟩
  all_goals rw [hrun]
  · exact refused_owing h node.span hp
  · exact fine
  · exact fine.of_log rfl

variable {ctx : Context}

theorem condition_accounted (hc : ctx.Accounts known) (e : Expr) (s : State) :
    Accounted known s ((condition ctx e).run s).2 (((condition ctx e).run s).1 = false) := by
  have h := expr_accounted hc e s
  have visited {t : State} {ok : Bool} (howe : Owing known s t (ok = false)) :
      Accounted known s ((note (.conditionVisit e.node ok)).run t).2 (ok = false) :=
    howe.note _ trivial rfl (by simp [Event.isFailure])
  unfold condition
  rw [run_bind]
  generalize (expr ctx e).run s = r at h ⊢
  obtain ⟨v, t⟩ := r
  cases v with
  | none => exact visited (h.owing.congr (by simp))
  | some v =>
    cases v with
    | flag => exact visited (h.owing.congr (by simp))
    | text => exact visited (refused_owing h e.node.span rfl)
    | measurement q => exact visited (refused_owing h e.node.span rfl)

theorem valued_owing {β : Type} {x : Walk (Option β)}
    (h : Accounted known s (x.run s).2 ((x.run s).1 = none)) :
    Owing known s ((do return (← x).isSome : Walk Bool).run s).2
      (((do return (← x).isSome : Walk Bool).run s).1 = false) :=
  h.owing.congr (Option.isSome_eq_false_iff.trans Option.isNone_iff_eq_none)

theorem startBody_accounted (known : Prop) (control : Control) (s : State) :
    Accounted known s ((startBody control).run s).2 False :=
  (Accounted.refl known s).note (.bodyStart control s.scopes) trivial rfl rfl

theorem simple_accounted (hc : ctx.Accounts known) {st : Stmt} (hst : st.isSimple = true) (s : State) :
    Accounted known s ((stmt ctx st).run s).2 (((stmt ctx st).run s).1 = false) := by
  cases st with
  | branch | whileLoop | forLoop => cases hst
  | declare node type name init =>
    cases init with
    | none =>
      rw [stmt]
      exact visiting_accounted (declare_owing _ _ _ _ ((Accounted.refl known s).mono (by simp)))
    | some init =>
      rw [stmt]
      have h := expr_accounted hc init s
      exact visiting_accounted (declare_owing _ _ _ _ (h.mono Option.some.inj))
  | assign node target value =>
    rw [stmt]
    exact visiting_accounted (assign_owing _ _ _ (expr_accounted hc value s))
  | ret node value =>
    cases value with
    | none =>
      rw [stmt]
      exact visiting_accounted (giveBack_owing _ _ _ (Accounted.refl known s))
    | some value =>
      rw [stmt]
      have h := expr_accounted hc value s
      refine visiting_accounted ?_
      rw [run_bind]
      generalize (expr ctx value).run s = r at h ⊢
      obtain ⟨v, t⟩ := r
      cases v with
      | none => exact h.owing.congr ⟨fun _ => rfl, fun _ => rfl⟩
      | some v => exact giveBack_owing ctx node (some v) h
  | print node value =>
    rw [stmt]
    exact visiting_accounted (valued_owing (expr_accounted hc value s))
  | expr node value =>
    have h := expr_accounted hc value s
    cases value with
    | call callNode callee args =>
      rw [stmt]
      have h := applyCall_accounted hc callNode callee args (exprs_accounted hc args s)
      exact visiting_accounted (h.owing.congr (decide_eq_false_iff_not.trans Decidable.not_not))
    | _ =>
      simp only [stmt]
      exact visiting_accounted (valued_owing h)

theorem accounted_compositional (hc : ctx.Accounts known) :
    Compositional ctx ctx fun _ x _ => ∀ s, Accounted known s (x.run s).2 ((x.run s).1 = false) where
  nothing s := (Accounted.refl known s).mono Bool.noConfusion
  both hx hy s := ((hx s).trans (hy _)).mono Bool.and_eq_false_iff.1
  simple _ hst := simple_accounted hc hst
  test := condition_accounted hc
  visiting _ _ _ _ hx s := visiting_accounted (hx s).owing
  nested hx _ := nested_accounted (hx _)
  start control _ _ _ hx s := ((startBody_accounted known control s).trans (hx _)).mono Or.inr

theorem stmts_accounted (hc : ctx.Accounts known) (sts : List Stmt) (s : State) :
    Accounted known s ((stmts ctx sts).run s).2 (((stmts ctx sts).run s).1 = false) :=
  (accounted_compositional hc).composed.stmts sts s

theorem body_accounted (hc : ctx.Accounts known) (f : FunctionDecl) (bindings : Bindings Float)
    (s : State) : Accounted known s ((body ctx f bindings).run s).2 False := by
  have h := stmts_accounted hc f.body.stmts (s.opened ctx.catalog f bindings)
  exact (h.mono False.elim).of_log rfl rfl

variable {env : Setting}

theorem enter_accounted (hr : known → Resolved env.catalog env.signatures) (active : List NodeId)
    (id : NodeId) (bindings : Bindings Float) (s : State) :
    Accounted known s ((enter env active id bindings).run s).2 False := by
  fun_induction enter env active id bindings generalizing s with
  | case1 active id bindings hf => exact Accounted.refl known s
  | case2 active id bindings f hf hactive => exact Accounted.refl known s
  | case3 active id bindings f hf inactive ctx ih =>
    have hc : ctx.Accounts known := ⟨hr, ih⟩
    have hbody := body_accounted hc f bindings { s with active := id :: s.active }
    rcases remembered_cases env.reuse (instanceKey id bindings) (calling id (body ctx f bindings)) s with
      hrun | ⟨instances, hrun⟩ <;> rw [hrun]
    · exact Accounted.refl known s
    · exact hbody.of_log rfl rfl

theorem around_accounts (hr : known → Resolved env.catalog env.signatures) (active : List NodeId) :
    (env.around active).Accounts known := ⟨hr, enter_accounted hr active⟩

theorem calling_body_accounted (hr : known → Resolved env.catalog env.signatures) (f : FunctionDecl)
    (bindings : Bindings Float) (s : State) :
    Accounted known s ((calling f.id (body (env.around [f.id]) f bindings)).run s).2 False :=
  (body_accounted (around_accounts hr [f.id]) f bindings { s with active := f.id :: s.active }).of_log rfl rfl

theorem passed_owing (known : Prop) (s : State) : Owing known s s (true = false) :=
  (Accounted.refl known s).owing.congr (by simp)

theorem functionName_owing (known : Prop) (env : Setting) (f : FunctionDecl) (s : State) :
    Owing known s ((functionName env f).run s).2 (((functionName env f).run s).1 = false) := by
  unfold functionName
  split
  · exact refused_owing (Accounted.refl known s) f.node.span rfl
  · exact passed_owing known s

theorem paramName_owing (known : Prop) (env : Setting) (seen : List String) (p : Param) (s : State) :
    Owing known s ((paramName env seen p).run s).2 (((paramName env seen p).run s).1 = false) := by
  unfold paramName
  split
  · exact refused_owing (Accounted.refl known s) p.span rfl
  · split
    · exact refused_owing (Accounted.refl known s) p.span rfl
    · exact passed_owing known s

theorem param_owing (known : Prop) (env : Setting) (seen : List String) (p : Param) (s : State) :
    Owing known s ((param env seen p).run s).2 (((param env seen p).run s).1 = false) := by
  have h := paramName_owing known env seen p s
  unfold param
  rw [run_bind]
  split
  · exact refused_owing h p.span rfl
  · exact h

theorem params_owing (known : Prop) (env : Setting) (seen : List String) (ps : List Param) (s : State) :
    Owing known s ((params env seen ps).run s).2 (((params env seen ps).run s).1 = false) := by
  induction ps generalizing seen s with
  | nil => exact passed_owing known s
  | cons p ps ih =>
    exact ((param_owing known env seen p s).trans (ih _ _)).congr Bool.and_eq_false_iff

theorem returned_owing (known : Prop) (env : Setting) (f : FunctionDecl) (s : State) :
    Owing known s ((returned env f).run s).2 (((returned env f).run s).1 = false) := by
  unfold returned
  split
  · exact passed_owing known s
  · split
    · exact refused_owing (Accounted.refl known s) f.node.span rfl
    · exact passed_owing known s

theorem header_owing (known : Prop) (env : Setting) (f : FunctionDecl) (s : State) :
    Owing known s ((header env f).run s).2 (((header env f).run s).1 = false) := by
  have hname := functionName_owing known env f s
  have hparams := params_owing known env [] f.params ((functionName env f).run s).2
  have hreturn := returned_owing known env f
    ((params env [] f.params).run ((functionName env f).run s).2).2
  refine ((hname.trans hparams).trans hreturn).congr ?_
  rw [← Bool.and_eq_false_iff, ← Bool.and_eq_false_iff]
  exact Iff.rfl

theorem function_accounted (hr : known → Resolved env.catalog env.signatures) (f : FunctionDecl)
    (s : State) : Accounted known s ((function env f).run s).2 (((function env f).run s).1 = false) := by
  have visited {t : State} {ok : Bool} (howe : Owing known s t (ok = false)) :
      Accounted known s ((note (.functionVisit f.node ok)).run t).2 (ok = false) :=
    howe.note _ trivial rfl (by simp [Event.isFailure])
  have hheader := header_owing known env f s
  unfold function
  dsimp only
  split
  · rw [run_bind]
    split
    · exact visited ((hheader.trans (calling_body_accounted hr f _ _).owing).congr (by simp))
    · exact visited hheader
  · exact visited (refused_owing (Accounted.refl known s) f.node.span rfl)

theorem functions_accounted (hr : known → Resolved env.catalog env.signatures)
    (fs : List FunctionDecl) (s : State) :
    Accounted known s ((functions env fs).run s).2 False := by
  induction fs generalizing s with
  | nil => exact Accounted.refl known s
  | cons f fs ih => exact ((function_accounted hr f s).trans (ih _)).mono False.elim

theorem program_accounted (hr : known → Resolved env.catalog env.signatures) (p : Program) (s : State) :
    Accounted known s ((program env p).run s).2 False := by
  have hglobals := stmts_accounted (around_accounts hr []) p.globals s
  exact (hglobals.trans (functions_accounted hr p.functions _)).mono False.elim

end Walk

end Metrology.Analysis

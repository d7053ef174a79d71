import Metrology.Proofs.Analysis.Closure
import Metrology.Proofs.Scope

/-! What a walk leaves as it was. Expressions leave the scopes alone, with the bodies of the functions
they call. A statement gives a new value to its target only, and everything else it can reach fades. -/
namespace Metrology.Analysis

/-- A relation between states that nothing noted breaks, the beginning of a body apart. -/
structure Steady (R : State → State → Prop) : Prop where
  refl : ∀ s, R s s
  trans : ∀ {s t u}, R s t → R t u → R s u
  note : ∀ s e, (∀ control scopes, e ≠ .bodyStart control scopes) → R s ((Walk.note e).run s).2

structure Context.Steady (ctx : Context) (R : State → State → Prop) : Prop
    extends Analysis.Steady R where
  enter : ∀ id bindings s, R s ((ctx.enter id bindings).run s).2

theorem Steady.tracked {R : State → State → Prop} (hR : Steady R) : Tracked R where
  refl := hR.refl
  trans := hR.trans
  note s e plain := hR.note s e fun control scopes he => by
    rw [he] at plain
    cases plain

theorem Context.Steady.stable {ctx : Context} {R : State → State → Prop} (hc : ctx.Steady R) :
    ctx.Stable R where
  toTracked := hc.tracked
  call node callee args values s := by
    have visited (bindings : Option (Bindings Float)) (result : CallResult) (t : State) :
        R t ((Walk.note (.callVisit node callee bindings result)).run t).2 := hc.note t _ nofun
    exact Walk.applyCall_tracked hc.tracked hc.enter (fun id t => hc.note t _ nofun) visited args values s

def SameScopes (s t : State) : Prop := t.scopes = s.scopes

theorem steady_sameScopes : Steady SameScopes where
  refl _ := rfl
  trans hst htu := htu.trans hst
  note _ _ _ := rfl

namespace Walk

variable {ctx : Context}

section Keeps

variable {x y : Walk Bool} (hx : ∀ s : State, s.scopes.Keeps (x.run s).2.scopes)

include hx

theorem nested_moves (s : State) : s.scopes.Moves none ((nested .block x).run s).2.scopes :=
  (hx { s with scopes := s.scopes.push .block }).close_block none

theorem both_keeps (hy : ∀ s : State, s.scopes.Keeps (y.run s).2.scopes) (s : State) :
    s.scopes.Keeps ((both x y).run s).2.scopes := (hx s).trans (hy _)

theorem startBody_keeps (control : Control) (s : State) :
    s.scopes.Keeps ((do startBody control; x : Walk Bool).run s).2.scopes := hx ((startBody control).run s).2

end Keeps

theorem bindPlaceholder_moves (c : Catalog Float) (name : String) (type : TypeRef) (s : State) :
    s.scopes.Moves (some name) ((bindPlaceholder c name type).run s).2.scopes := by
  rcases bindPlaceholder_cases c name type s with h | ⟨scopes, hdeclare, h⟩ <;> rw [h]
  · exact .refl _ _
  · exact (ScopeStack.moves_declare hdeclare).1

theorem declare_moves (c : Catalog Float) (node : Node) (type : TypeRef) (name : String)
    (init : Option (Option (Value Float))) (s : State) :
    s.scopes.Moves (some name) ((declare c node type name init).run s).2.scopes := by
  rcases declare_cases c node type name init s with ⟨_, hrun⟩ | ⟨p, _, hrun⟩ | ⟨v, hrun⟩
  all_goals rw [hrun]
  · exact bindPlaceholder_moves c name type s
  · exact bindPlaceholder_moves c name type ((raise p node.span).run s).2
  · cases h : s.scopes.declare name v with
    | ok scopes => exact (ScopeStack.moves_declare h).1
    | error e => exact .refl _ _

theorem assign_moves (c : Catalog Float) (node : Node) (target : String) (value : Option (Value Float))
    (s : State) : s.scopes.Moves (some target) ((assign c node target value).run s).2.scopes := by
  rcases assign_cases c node target value s with
    ⟨_, hrun⟩ | ⟨p, _, hrun⟩ | ⟨current, v, _, _, hrun⟩
  all_goals rw [hrun]
  · exact .refl _ _
  · exact .refl _ _
  · cases h : s.scopes.assign target v with
    | ok scopes => exact (ScopeStack.moves_assign h).1
    | error e => exact .refl _ _

theorem giveBack_scopes (ctx : Context) (node : Node) (value : Option (Value Float)) (s : State) :
    ((giveBack ctx node value).run s).2.scopes = s.scopes := by
  rcases giveBack_cases ctx node value s with ⟨p, _, hrun⟩ | hrun | ⟨name, v, _, hrun⟩ <;> rw [hrun]
  all_goals rfl

theorem moves_of_sameScopes {s t : State} (h : SameScopes s t) (target : Option String) :
    s.scopes.Moves target t.scopes := by
  rw [h]
  exact .refl _ _

theorem carries_moves (hc : ctx.Steady SameScopes) (target : Option String) :
    ctx.Carries target fun s t => s.scopes.Moves target t.scopes where
  refl s := .refl target s.scopes
  trans := .trans
  note s _ _ := .refl target s.scopes
  call node callee args values s := moves_of_sameScopes (hc.stable.call node callee args values s) target
  visit _ _ _ s := .refl target s.scopes
  declare node type name init s htarget := htarget ▸ declare_moves _ node type name init s
  assign node name value s htarget := htarget ▸ assign_moves _ node name value s
  giveBack node value s := moves_of_sameScopes (giveBack_scopes ctx node value s) target

theorem composed_moves (hc : ctx.Steady SameScopes) :
    Composed ctx ctx (fun _ => True) (fun _ x _ => ∀ s : State, s.scopes.Keeps (x.run s).2.scopes)
      (fun _ x _ => ∀ s : State, s.scopes.Moves none (x.run s).2.scopes) where
  branch _ := trivial
  whileLoop _ := trivial
  weaken h s := (h s).toKeeps
  nothing s := .refl none s.scopes
  both := both_keeps
  bothClosed hx hy s := (hx s).trans (hy _)
  simple st hst s := (simple_carries (carries_moves hc st.target?) hst s).toKeeps
  test e s := moves_of_sameScopes (condition_stable hc.stable e s) none
  visiting _ _ _ _ hx := hx
  body {control} _ _ _ _ hx := nested_moves (startBody_keeps hx control)
  loop node _ _ update _ _ _ _ hinit htest hupdate hx := by
    have hround := both_keeps hupdate (startBody_keeps hx (.forLoop node update))
    have hinner := nested_moves (both_keeps (fun t => (htest t).toKeeps) hround)
    exact nested_moves (both_keeps hinit fun t => (hinner t).toKeeps)

theorem stmt_moves (hc : ctx.Steady SameScopes) (st : Stmt) (s : State) :
    s.scopes.Moves st.target? ((stmt ctx st).run s).2.scopes := by
  cases hst : st.isSimple with
  | true => exact simple_carries (carries_moves hc st.target?) hst s
  | false =>
    have htarget : st.target? = none := by
      cases st with
      | branch | whileLoop | forLoop => rfl
      | _ => cases hst
    rw [htarget]
    exact (composed_moves hc).control hst s

theorem stmts_keeps (hc : ctx.Steady SameScopes) (sts : List Stmt) (s : State) :
    s.scopes.Keeps ((stmts ctx sts).run s).2.scopes := (composed_moves hc).stmts sts s

theorem block_moves (hc : ctx.Steady SameScopes) (control : Control) (b : Block) (s : State) :
    s.scopes.Moves none ((block ctx control b).run s).2.scopes := (composed_moves hc).block trivial b s

theorem openBlock_keeps (hc : ctx.Steady SameScopes) (control : Control) (b : Block) (s : State) :
    s.scopes.Keeps ((openBlock ctx control b).run s).2.scopes := by
  cases b with
  | mk sts span => exact startBody_keeps (stmts_keeps hc sts) control s

theorem branches_moves (hc : ctx.Steady SameScopes) (control : Control) (arms : List Branch) (s : State) :
    s.scopes.Moves none ((branches ctx control arms).run s).2.scopes :=
  (composed_moves hc).branches trivial arms s

theorem body_scopes (hc : ctx.Steady SameScopes) (f : FunctionDecl) (bindings : Bindings Float)
    (s : State) : SameScopes s ((body ctx f bindings).run s).2 := by
  have hopen := ScopeStack.keeps_bindForgotten (s.scopes.push .function) bindings
  have hstmts := stmts_keeps hc f.body.stmts (s.opened ctx.catalog f bindings)
  exact (hopen.trans hstmts).close_function

/-- Entering a function leaves the scopes of the caller as they are. -/
theorem enter_scopes (env : Setting) (active : List NodeId) (id : NodeId) (bindings : Bindings Float)
    (s : State) : SameScopes s ((enter env active id bindings).run s).2 := by
  fun_induction enter env active id bindings generalizing s with
  | case1 active id bindings hf => rfl
  | case2 active id bindings f hf hactive => rfl
  | case3 active id bindings f hf inactive ctx ih =>
    have hc : ctx.Steady SameScopes := ⟨steady_sameScopes, ih⟩
    rcases remembered_cases env.reuse (instanceKey id bindings) (calling id (body ctx f bindings)) s with
      hrun | ⟨instances, hrun⟩ <;> rw [hrun]
    · rfl
    · exact body_scopes hc f bindings { s with active := id :: s.active }

theorem context_sameScopes (env : Setting) (active : List NodeId) : (env.around active).Steady SameScopes :=
  ⟨steady_sameScopes, enter_scopes env active⟩

theorem calling_body_scopes (env : Setting) (f : FunctionDecl) (bindings : Bindings Float) (s : State) :
    SameScopes s ((calling f.id (body (env.around [f.id]) f bindings)).run s).2 :=
  body_scopes (context_sameScopes env [f.id]) f bindings { s with active := f.id :: s.active }

theorem function_scopes (env : Setting) (f : FunctionDecl) (s : State) :
    SameScopes s ((function env f).run s).2 :=
  function_tracked steady_sameScopes.tracked env f (calling_body_scopes env f) s

theorem functions_scopes (env : Setting) (fs : List FunctionDecl) (s : State) :
    SameScopes s ((functions env fs).run s).2 :=
  functions_tracked steady_sameScopes.tracked env (calling_body_scopes env) fs s

end Walk

end Metrology.Analysis

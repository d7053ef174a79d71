import Metrology.Proofs.Analysis.Frame
import Metrology.Proofs.Analysis.Inside

/-! What outlasts the visit of a statement, whether it fails or not: the open scopes with the names
in them, the category and unit of every variable, and the function around the statement with those
that wait for it. -/
namespace Metrology.Analysis

/-- The statements visited in between belong to functions walked on top of the given ones. -/
def VisitsInside (active : List NodeId) (s t : State) : Prop :=
  ∃ noted, t.log = noted ++ s.log ∧
    ∀ node walked scopes ok, .stmtVisit node walked scopes ok ∈ noted → active <:+ walked

namespace VisitsInside

variable {active : List NodeId} {s t u : State}

theorem of_log (h : t.log = s.log) : VisitsInside active s t := ⟨[], h, nofun⟩

theorem trans (hst : VisitsInside active s t) (htu : VisitsInside active t u) :
    VisitsInside active s u := by
  obtain ⟨noted, hlog, hnoted⟩ := hst
  obtain ⟨noted', hlog', hnoted'⟩ := htu
  refine ⟨noted' ++ noted, by rw [hlog', hlog, List.append_assoc], ?_⟩
  intro node walked scopes ok hmem
  rcases List.mem_append.1 hmem with hmem | hmem
  · exact hnoted' node walked scopes ok hmem
  · exact hnoted node walked scopes ok hmem

theorem note (s : State) (e : Event)
    (h : ∀ node walked scopes ok, e = .stmtVisit node walked scopes ok → active <:+ walked) :
    VisitsInside active s ((Walk.note e).run s).2 :=
  ⟨[e], rfl, fun node walked scopes ok hmem =>
    h node walked scopes ok (List.mem_singleton.1 hmem).symm⟩

/-- Inside a function that was entered, the functions that wait are still being walked. -/
theorem of_cons {id : NodeId} (h : VisitsInside (id :: active) s t) : VisitsInside active s t := by
  obtain ⟨noted, hlog, hnoted⟩ := h
  exact ⟨noted, hlog, fun node walked scopes ok hmem =>
    (List.suffix_cons id active).trans (hnoted node walked scopes ok hmem)⟩

theorem mem_log {e : Event} (h : VisitsInside active s t) (hmem : e ∈ s.log) : e ∈ t.log := by
  obtain ⟨noted, hlog, _⟩ := h
  exact hlog ▸ List.mem_append_right noted hmem

end VisitsInside

theorem tracked_visits (active : List NodeId) : Tracked (VisitsInside active) where
  refl _ := .of_log rfl
  trans := .trans
  note s e plain := by
    refine .note s e ?_
    rintro node walked scopes ok rfl
    cases plain

/-- A function being walked stays what it is; it can come to know, once, what it returns as a plain `number`. -/
structure Frame.Gains (f g : Frame) : Prop where
  function : g.function = f.function
  expected : g.expected = f.expected
  inferred : g.inferred = f.inferred ∨
    f.inferred = none ∧ g.inferred.isSome = true ∧ f.expected = .shape .number

namespace Frame.Gains

variable {f g k : Frame}

theorem refl (f : Frame) : f.Gains f := ⟨rfl, rfl, Or.inl rfl⟩

theorem trans (hfg : f.Gains g) (hgk : g.Gains k) : f.Gains k := by
  refine ⟨hgk.function.trans hfg.function, hgk.expected.trans hfg.expected, ?_⟩
  rcases hfg.inferred with hfg' | ⟨hnone, hsome, hnumber⟩
  · rcases hgk.inferred with hgk' | ⟨hnone, hsome, hnumber⟩
    · exact Or.inl (hgk'.trans hfg')
    · exact Or.inr ⟨hfg' ▸ hnone, hsome, hfg.expected ▸ hnumber⟩
  · rcases hgk.inferred with hgk' | ⟨hnone', _⟩
    · exact Or.inr ⟨hnone, hgk' ▸ hsome, hnumber⟩
    · rw [hnone'] at hsome
      cases hsome

theorem infer (h : f.expected = .shape .number) (v : Value Float) : f.Gains (f.infer v) := by
  refine ⟨rfl, rfl, ?_⟩
  cases hinferred : f.inferred with
  | none => exact Or.inr ⟨rfl, by simp [Frame.infer, hinferred], h⟩
  | some w => exact Or.inl (by simp [Frame.infer, hinferred])

end Frame.Gains

/-- The same functions are being walked, and the innermost of them stays what it is. -/
structure SameCalls (s t : State) : Prop where
  active : t.active = s.active
  frame : Option.Rel Frame.Gains s.frame t.frame

theorem SameCalls.of_frame {s t : State} (hactive : t.active = s.active) (hframe : t.frame = s.frame) :
    SameCalls s t := by
  refine ⟨hactive, ?_⟩
  rw [hframe]
  cases s.frame with
  | none => exact .none
  | some f => exact .some (.refl f)

theorem tracked_sameCalls : Tracked SameCalls where
  refl _ := .of_frame rfl rfl
  trans := by
    rintro s t u ⟨hactive, hframe⟩ ⟨hactive', hframe'⟩
    refine ⟨hactive'.trans hactive, ?_⟩
    generalize s.frame = f at hframe
    generalize t.frame = g at hframe hframe'
    generalize u.frame = k at hframe'
    cases hframe with
    | none => exact hframe'
    | some hfg =>
      cases hframe' with
      | some hgk => exact .some (hfg.trans hgk)
  note _ _ _ := .of_frame rfl rfl

/-- What stays as it was while statements are visited. -/
structure Context.Persists (ctx : Context) (s t : State) : Prop where
  depth : t.scopes.depth = s.scopes.depth
  top : s.scopes.KeepsShapes t.scopes
  below : List.Forall₂ Scope.Faded s.scopes.below t.scopes.below
  calls : SameCalls s t
  visits : VisitsInside ctx.active s t

theorem Context.Persists.refl (ctx : Context) (s : State) : ctx.Persists s s where
  depth := rfl
  top := .refl s.scopes
  below := List.forall₂_same.2 fun scope _ => .refl scope
  calls := tracked_sameCalls.refl s
  visits := .of_log rfl

theorem Context.Persists.trans {ctx : Context} {s t u : State} (hst : ctx.Persists s t)
    (htu : ctx.Persists t u) : ctx.Persists s u where
  depth := htu.depth.trans hst.depth
  top := hst.top.trans htu.top
  below := Scope.Faded.forall₂_trans hst.below htu.below
  calls := tracked_sameCalls.trans hst.calls htu.calls
  visits := hst.visits.trans htu.visits

namespace Walk

theorem giveBack_sameCalls (ctx : Context) (node : Node) (value : Option (Value Float)) (s : State) :
    SameCalls s ((giveBack ctx node value).run s).2 := by
  rcases giveBack_cases ctx node value s with
    ⟨p, _, hrun⟩ | hrun | ⟨frame, v, ⟨hframe, hnumber⟩, hrun⟩
  all_goals rw [hrun]
  · exact .of_frame rfl rfl
  · exact .of_frame rfl rfl
  · refine ⟨rfl, ?_⟩
    rw [run_infer, hframe]
    exact .some (.infer hnumber v)

theorem giveBack_visits (ctx : Context) (node : Node) (value : Option (Value Float)) (s : State)
    (active : List NodeId) : VisitsInside active s ((giveBack ctx node value).run s).2 := by
  rcases giveBack_cases ctx node value s with ⟨p, _, hrun⟩ | hrun | ⟨frame, v, _, hrun⟩
  all_goals rw [hrun]
  · exact raise_tracked (tracked_visits active) p node.span s
  · exact .of_log rfl
  · exact .of_log rfl

theorem indifferent_sameCalls {ctx : Context}
    (henter : ∀ id bindings s, SameCalls s ((ctx.enter id bindings).run s).2) :
    ctx.Indifferent SameCalls where
  toTracked := tracked_sameCalls
  call _ _ args values s :=
    applyCall_tracked tracked_sameCalls henter (fun _ _ => .of_frame rfl rfl) (fun _ _ _ => .of_frame rfl rfl)
      args values s
  scopes _ _ := .of_frame rfl rfl
  start _ _ := .of_frame rfl rfl
  visit _ _ _ _ := .of_frame rfl rfl
  giveBack := giveBack_sameCalls ctx

/-- The frame that a body is walked in makes way for the one before it. -/
theorem body_sameCalls {ctx : Context} (hc : ctx.Indifferent SameCalls) (f : FunctionDecl)
    (bindings : Bindings Float) (s : State) : SameCalls s ((body ctx f bindings).run s).2 := by
  have hstmts := stmts_indifferent hc f.body.stmts (s.opened ctx.catalog f bindings)
  rw [run_body]
  exact .of_frame hstmts.active rfl

theorem calling_sameCalls {β : Type} {walk : Walk β} (h : ∀ s, SameCalls s (walk.run s).2) (id : NodeId)
    (s : State) : SameCalls s ((calling id walk).run s).2 := by
  obtain ⟨hactive, hframe⟩ := h { s with active := id :: s.active }
  rw [run_calling]
  exact ⟨congrArg List.tail hactive, hframe⟩

theorem enter_sameCalls (env : Setting) (active : List NodeId) (id : NodeId) (bindings : Bindings Float)
    (s : State) : SameCalls s ((enter env active id bindings).run s).2 := by
  fun_induction enter env active id bindings generalizing s with
  | case1 active id bindings hf => exact .of_frame rfl rfl
  | case2 active id bindings f hf hactive => exact .of_frame rfl rfl
  | case3 active id bindings f hf inactive ctx ih =>
    rcases remembered_cases env.reuse (instanceKey id bindings) (calling id (body ctx f bindings)) s with
      hrun | ⟨instances, hrun⟩ <;> rw [hrun]
    · exact .of_frame rfl rfl
    · have hc : ctx.Indifferent SameCalls := indifferent_sameCalls ih
      obtain ⟨hactive, hframe⟩ := calling_sameCalls (body_sameCalls hc f bindings) id s
      exact ⟨hactive, hframe⟩

theorem around_sameCalls (env : Setting) (active : List NodeId) : (env.around active).Indifferent SameCalls :=
  indifferent_sameCalls (enter_sameCalls env active)

theorem calling_body_sameCalls (env : Setting) (f : FunctionDecl) (bindings : Bindings Float) (s : State) :
    SameCalls s ((calling f.id (body (env.around [f.id]) f bindings)).run s).2 :=
  calling_sameCalls (body_sameCalls (around_sameCalls env [f.id]) f bindings) f.id s

theorem function_sameCalls (env : Setting) (f : FunctionDecl) (s : State) :
    SameCalls s ((function env f).run s).2 :=
  function_tracked tracked_sameCalls env f (calling_body_sameCalls env f) s

theorem indifferent_visits {ctx : Context}
    (henter : ∀ id bindings s, VisitsInside ctx.active s ((ctx.enter id bindings).run s).2) :
    ctx.Indifferent (VisitsInside ctx.active) where
  toTracked := tracked_visits ctx.active
  call node callee args values s := by
    have visited (bindings : Option (Bindings Float)) (result : CallResult) (t : State) :
        VisitsInside ctx.active t ((note (.callVisit node callee bindings result)).run t).2 :=
      .note t _ nofun
    exact applyCall_tracked (tracked_visits ctx.active) henter (fun id t => .note t _ nofun) visited
      args values s
  scopes _ _ := .of_log rfl
  start _ s := .note s _ nofun
  visit node scopes ok s := .note s _ fun _ _ _ _ h => by
    cases h
    exact List.suffix_rfl
  giveBack node value s := giveBack_visits ctx node value s ctx.active

theorem body_visits {ctx : Context} (hc : ctx.Indifferent (VisitsInside ctx.active)) (f : FunctionDecl)
    (bindings : Bindings Float) (s : State) :
    VisitsInside ctx.active s ((body ctx f bindings).run s).2 :=
  stmts_indifferent hc f.body.stmts (s.opened ctx.catalog f bindings)

theorem enter_visits (env : Setting) (active : List NodeId) (id : NodeId) (bindings : Bindings Float)
    (s : State) : VisitsInside active s ((enter env active id bindings).run s).2 := by
  fun_induction enter env active id bindings generalizing s with
  | case1 active id bindings hf => exact .of_log rfl
  | case2 active id bindings f hf hactive => exact .of_log rfl
  | case3 active id bindings f hf inactive ctx ih =>
    rcases remembered_cases env.reuse (instanceKey id bindings) (calling id (body ctx f bindings)) s with
      hrun | ⟨instances, hrun⟩ <;> rw [hrun]
    · exact .of_log rfl
    · have hc : ctx.Indifferent (VisitsInside ctx.active) := indifferent_visits ih
      exact (body_visits hc f bindings { s with active := id :: s.active }).of_cons

theorem bindPlaceholder_shapes (c : Catalog Float) (name : String) (type : TypeRef) (s : State) :
    s.scopes.KeepsShapes ((bindPlaceholder c name type).run s).2.scopes := by
  rcases bindPlaceholder_cases c name type s with h | ⟨scopes, hdeclare, h⟩ <;> rw [h]
  · exact .refl _
  · exact ScopeStack.keepsShapes_declare hdeclare

theorem declare_shapes (c : Catalog Float) (node : Node) (type : TypeRef) (name : String)
    (init : Option (Option (Value Float))) (s : State) :
    s.scopes.KeepsShapes ((declare c node type name init).run s).2.scopes := by
  rcases declare_cases c node type name init s with ⟨_, hrun⟩ | ⟨p, _, hrun⟩ | ⟨v, hrun⟩
  all_goals rw [hrun]
  · exact bindPlaceholder_shapes c name type s
  · exact bindPlaceholder_shapes c name type ((raise p node.span).run s).2
  · cases h : s.scopes.declare name v with
    | ok scopes => exact ScopeStack.keepsShapes_declare h
    | error e => exact .refl _

theorem assign_shapes (c : Catalog Float) (node : Node) (target : String) (value : Option (Value Float))
    (s : State) : s.scopes.KeepsShapes ((assign c node target value).run s).2.scopes := by
  rcases assign_cases c node target value s with
    ⟨_, hrun⟩ | ⟨p, _, hrun⟩ | ⟨current, v, hcurrent, hshape, hrun⟩
  all_goals rw [hrun]
  · exact .refl _
  · exact .refl _
  · cases h : s.scopes.assign target v with
    | ok scopes => exact ScopeStack.keepsShapes_assign h hcurrent hshape
    | error e => exact .refl _

/-- The variable that a statement is about keeps its category and unit like all others. -/
theorem stmt_shapes {ctx : Context} (hc : ctx.Steady SameScopes) (st : Stmt) (s : State) :
    s.scopes.KeepsShapes ((stmt ctx st).run s).2.scopes := by
  have untargeted (h : st.target? = none) :
      s.scopes.KeepsShapes ((stmt ctx st).run s).2.scopes :=
    (stmt_moves hc st s).keepsShapes fun _ _ hname => by simp [h] at hname
  cases st with
  | declare node type name init =>
    cases init with
    | none =>
      rw [stmt]
      exact declare_shapes ctx.catalog node type name none s
    | some init =>
      rw [stmt]
      have hsame : ((expr ctx init).run s).2.scopes = s.scopes := expr_stable hc.stable init s
      exact hsame ▸ declare_shapes ctx.catalog node type name _ ((expr ctx init).run s).2
  | assign node target value =>
    rw [stmt]
    have hsame : ((expr ctx value).run s).2.scopes = s.scopes := expr_stable hc.stable value s
    exact hsame ▸ assign_shapes ctx.catalog node target _ ((expr ctx value).run s).2
  | _ => exact untargeted rfl

theorem around_visits (env : Setting) (active : List NodeId) :
    (env.around active).Indifferent (VisitsInside active) := indifferent_visits (enter_visits env active)

variable (env : Setting) (active : List NodeId)

theorem stmt_persists (st : Stmt) (s : State) :
    (env.around active).Persists s ((stmt (env.around active) st).run s).2 := by
  have hc := context_sameScopes env active
  have hkeeps := (stmt_moves hc st s).toKeeps
  exact {
    depth := hkeeps.depth_eq
    top := stmt_shapes hc st s
    below := hkeeps.below.faded
    calls := stmt_indifferent (around_sameCalls env active) st s
    visits := stmt_indifferent (around_visits env active) st s }

theorem stmts_persist (sts : List Stmt) (s : State) :
    (env.around active).Persists s ((stmts (env.around active) sts).run s).2 := by
  induction sts generalizing s with
  | nil =>
    rw [stmts]
    exact .refl _ s
  | cons st rest ih =>
    rw [stmts]
    exact (stmt_persists env active st s).trans (ih _)

theorem stmts_visited (sts : List Stmt) (s : State) {st : Stmt} (hst : st ∈ sts) :
    ∃ scopes ok, .stmtVisit st.node active scopes ok ∈ ((stmts (env.around active) sts).run s).2.log := by
  induction sts generalizing s with
  | nil => cases hst
  | cons first rest ih =>
    rw [stmts]
    set t := ((stmt (env.around active) first).run s).2
    rcases List.mem_cons.1 hst with rfl | hst
    · have hhead := List.mem_of_mem_head? (head_stmt (env.around active) st s)
      exact ⟨_, _, (stmts_persist env active rest t).visits.mem_log hhead⟩
    · exact ih t hst

end Walk

section Visits

namespace Visit

structure Agrees (v : Visit) : Prop where
  active : v.before.active = v.active
  outer : v.task.isOuter = true → v.active = []

variable {env : Setting} {v : Visit}

theorem after_sameCalls (hv : v.task.isPlain = true) : SameCalls v.before (v.after env) := by
  have hc := Walk.around_sameCalls env v.active
  obtain ⟨active, task, s⟩ := v
  cases task with
  | expr e => exact Walk.expr_stable hc.toStable e s
  | exprs es => exact Walk.exprs_stable hc.toStable es s
  | condition e => exact Walk.condition_stable hc.toStable e s
  | stmt st => exact Walk.stmt_indifferent hc st s
  | stmts sts => exact Walk.stmts_indifferent hc sts s
  | block control b => exact Walk.block_indifferent hc control b s
  | openBlock control b => exact Walk.openBlock_indifferent hc control b s
  | branches control arms => exact Walk.branches_indifferent hc control arms s
  | call | body | function | functions | program => cases hv

theorem relays_active (env : Setting) (v : Visit) : v.Relays env fun s => s.active = v.active where
  after _ plain hs := (after_sameCalls plain).active.trans hs
  function _ hs := (Walk.function_sameCalls env _ v.before).active.trans hs
  block hs := hs
  start _ hs := hs

theorem Agrees.inside (h : v.Agrees) {w : Visit} (hw : w ∈ v.parts env) : w.Agrees := by
  cases inside_of_mem_parts (relays_active env v) h.active hw with
  | around _ plain _ found =>
    exact ⟨found, fun outer => absurd ((Task.isOuter_of_isPlain plain).symm.trans outer) Bool.false_ne_true⟩
  | call node callee args _ _ found => exact ⟨found, nofun⟩
  | opened => exact ⟨h.active, nofun⟩
  | called _ entered =>
    obtain ⟨id, f, bindings, _, _, rfl⟩ := exists_of_mem_called entered
    exact ⟨congrArg (id :: ·) h.active, nofun⟩
  | declared _ _ outer _ found => exact ⟨found, fun _ => h.outer outer⟩
  | @entry f task _ =>
    have hheader := Walk.header_tracked tracked_sameCalls env f v.before
    have houter : v.active = [] := h.outer (by rw [task]; rfl)
    exact ⟨congrArg (f.id :: ·) (hheader.active.trans (h.active.trans houter)), nofun⟩

theorem Reached.agrees {p : Program} (hv : Reached env p v) : v.Agrees := by
  induction hv with
  | root => exact ⟨rfl, fun _ => rfl⟩
  | part _ hinside ih => exact ih.inside hinside

end Visit

end Visits

theorem depth_run (c : Catalog Float) (t : Signatures) (p : Program) (reuse : Bool) :
    (run c t p reuse).scopes.depth = 1 := by
  set env := Setting.ofProgram c t p reuse
  set s := ((Walk.stmts (env.around []) p.globals).run (start c)).2
  have hglobals : s.scopes.depth = 1 := (Walk.stmts_persist env [] p.globals (start c)).depth
  exact (congrArg ScopeStack.depth (Walk.functions_scopes env p.functions s)).trans hglobals

theorem sameCalls_run (c : Catalog Float) (t : Signatures) (p : Program) (reuse : Bool) :
    SameCalls (start c) (run c t p reuse) := by
  set env := Setting.ofProgram c t p reuse
  exact tracked_sameCalls.trans (Walk.stmts_persist env [] p.globals (start c)).calls
    (Walk.functions_tracked tracked_sameCalls env (Walk.calling_body_sameCalls env) p.functions _)

/-- Visiting a statement, valid or failing, anywhere in a program, keeps the number of open scopes and
the names in them; around the innermost scope bindings are kept or forgotten, and in it they keep category
and unit. The functions being walked are the same afterwards, and the function around is the one that it was: its
name and what it has to return do not change, and what it returns as a plain number can become known, but does
not change any more. So it is for all statements of a list. At every visit that the walk comes to, the functions
that it is walked for are those in the state; and in the end only the global scope is open, and no function is
being walked. -/
theorem statements_persist (c : Catalog Float) (t : Signatures) (p : Program) (reuse : Bool) :
    let env := Setting.ofProgram c t p reuse
    (∀ active st s,
      let s' := ((Walk.stmt (env.around active) st).run s).2
      (env.around active).Persists s s' ∧
        ∃ ok, s'.log.head? = some (.stmtVisit st.node active s.scopes ok)) ∧
    (∀ active sts s,
      let s' := ((Walk.stmts (env.around active) sts).run s).2
      (env.around active).Persists s s' ∧
        ∀ st ∈ sts, ∃ scopes ok, .stmtVisit st.node active scopes ok ∈ s'.log) ∧
    (∀ v, Visit.Reached env p v → v.before.active = v.active) ∧
    (run c t p reuse).scopes.depth = 1 ∧ (run c t p reuse).active = [] ∧ (run c t p reuse).frame = none := by
  intro env
  obtain ⟨hactive, hframe⟩ := sameCalls_run c t p reuse
  refine ⟨fun active st s => ?_, fun active sts s => ?_, fun v hv => hv.agrees.active, depth_run c t p reuse,
    hactive, ?_⟩
  · exact ⟨Walk.stmt_persists env active st s, _, Walk.head_stmt _ st s⟩
  · exact ⟨Walk.stmts_persist env active sts s, fun st hst => Walk.stmts_visited env active sts s hst⟩
  · generalize (run c t p reuse).frame = frame at hframe
    cases hframe
    rfl

end Metrology.Analysis

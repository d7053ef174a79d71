import Metrology.Catalog.Build
import Metrology.Proofs.Analysis.Persistence
import Metrology.Proofs.Fallible

/-! Where known values come from. A body starts with nothing known, and a call leaves the scopes of its caller
as they are, whatever the functions that it enters assign. So what is known after a call was known before it,
and was told by a statement of the caller itself, in the same scope. -/
namespace Metrology.Analysis

/-- A visit closes what it opens: it goes on in the scopes that it finds. -/
theorem Visit.after_keeps (env : Setting) (v : Visit) : v.before.scopes.Keeps (v.after env).scopes := by
  have hc := Walk.context_sameScopes env v.active
  have keeps {t : State} (h : SameScopes v.before t) : v.before.scopes.Keeps t.scopes :=
    (Walk.moves_of_sameScopes h none).toKeeps
  unfold after walk
  cases v.task with
  | expr e => exact keeps (Walk.expr_stable hc.stable e v.before)
  | exprs es => exact keeps (Walk.exprs_stable hc.stable es v.before)
  | call node callee args values => exact keeps (hc.stable.call node callee args values v.before)
  | condition e => exact keeps (Walk.condition_stable hc.stable e v.before)
  | stmt st => exact (Walk.stmt_moves hc st v.before).toKeeps
  | stmts sts => exact Walk.stmts_keeps hc sts v.before
  | block control b => exact (Walk.block_moves hc control b v.before).toKeeps
  | openBlock control b => exact Walk.openBlock_keeps hc control b v.before
  | branches control arms => exact (Walk.branches_moves hc control arms v.before).toKeeps
  | body f bindings => exact keeps (Walk.body_scopes hc f bindings v.before)
  | function f => exact keeps (Walk.function_scopes env f v.before)
  | functions fs => exact keeps (Walk.functions_scopes env fs v.before)
  | program p =>
    have hfunctions := Walk.functions_scopes env p.functions ((Walk.stmts (env.around []) p.globals).run v.before).2
    exact (Walk.stmts_keeps (Walk.context_sameScopes env []) p.globals v.before).trans
      (Walk.moves_of_sameScopes hfunctions none).toKeeps

/-- A walk over a body comes from one state to another by whole visits, in scopes that stay open. -/
inductive StaysOpen (env : Setting) (p : Program) (active : List NodeId) (s : State) : State → Prop
  | refl : StaysOpen env p active s s
  | note {t : State} (e : Event) (before : StaysOpen env p active s t) :
      StaysOpen env p active s ((Walk.note e).run t).2
  | visit {w : Visit} (reached : Visit.Reached env p w) (same : w.active = active)
      (before : StaysOpen env p active s w.before) : StaysOpen env p active s (w.after env)

namespace StaysOpen

variable {env : Setting} {p : Program} {active : List NodeId} {s t u : State}

theorem trans (hst : StaysOpen env p active s t) (htu : StaysOpen env p active t u) :
    StaysOpen env p active s u := by
  induction htu with
  | refl => exact hst
  | note e _ ih => exact ih.note e
  | visit reached same _ ih => exact ih.visit reached same

theorem keeps (h : StaysOpen env p active s t) : s.scopes.Keeps t.scopes := by
  induction h with
  | refl => exact .refl s.scopes
  | note e _ ih => exact ih
  | visit reached same _ ih => exact ih.trans (Visit.after_keeps env _)

end StaysOpen

/-- A variable has the value that a statement of the same body gave it, in a scope that is open since then. In
between only that body, and what it calls, has been walked. -/
def SetBy (env : Setting) (p : Program) (active : List NodeId) (s : State) (name : String) : Prop :=
  ∃ w st, Visit.Reached env p w ∧ w.active = active ∧ w.task = .stmt st ∧ st.target? = some name ∧
    VisitsInside active (w.after env) s ∧ StaysOpen env p active (w.after env) s ∧
    (w.after env).scopes.depth = s.scopes.depth ∧ (w.after env).scopes.get? name = s.scopes.get? name

/-- Whatever is known has been told so. -/
def Told (env : Setting) (p : Program) (active : List NodeId) (s : State) : Prop :=
  ∀ name, s.scopes.Knows name → SetBy env p active s name

structure Passes (active : List NodeId) (s t : State) : Prop where
  scopes : SameScopes s t
  visits : VisitsInside active s t

namespace Told

variable {env : Setting} {p : Program} {active : List NodeId} {s t : State}

theorem of_unknown (h : ∀ name, ¬ s.scopes.Knows name) : Told env p active s :=
  fun name hknows => absurd hknows (h name)

/-- It is enough to look at the variable that is given a value. -/
theorem moves (h : Told env p active s) {target : Option String} (hmoves : s.scopes.Moves target t.scopes)
    (hvisits : VisitsInside active s t) (hopen : StaysOpen env p active s t)
    (htarget : ∀ name, target = some name → SetBy env p active t name) : Told env p active t := by
  intro name hknows
  by_cases hname : target = some name
  · exact htarget name hname
  · have hfades := hmoves.top name hname
    obtain ⟨w, st, hw, hactive, htask, hst, hsince, hstays, -, hvalue⟩ := h name (hknows.of_fades hfades)
    have hstill := hstays.trans hopen
    exact ⟨w, st, hw, hactive, htask, hst, hsince.trans hvisits, hstill, hstill.keeps.depth_eq.symm,
      hvalue.trans (hknows.get?_eq hfades).symm⟩

theorem closed (h : Told env p active s) (hmoves : s.scopes.Moves none t.scopes)
    (hvisits : VisitsInside active s t) (hopen : StaysOpen env p active s t) : Told env p active t := by
  refine h.moves hmoves hvisits hopen ?_
  rintro name ⟨⟩

theorem passes (h : Told env p active s) (hst : Passes active s t) (hopen : StaysOpen env p active s t) :
    Told env p active t := h.closed (Walk.moves_of_sameScopes hst.scopes none) hst.visits hopen

end Told

/-- The function that is called, where something is a call: in an expression, as a statement of its own, or with
its arguments visited already. -/
def Task.callee? : Task → Option String
  | .expr (.call _ callee _) | .stmt (.expr _ (.call _ callee _)) | .call _ callee _ _ => some callee
  | _ => none

namespace Visit

/-- What is known at a visit has been told by statements of the same body. -/
def Informed (env : Setting) (p : Program) (v : Visit) : Prop :=
  v.task.isInner = true → Told env p v.active v.before

variable {env : Setting} {p : Program} {v : Visit}

theorem around_passes (env : Setting) (v : Visit) :
    (env.around v.active).Stable (Passes v.active) where
  refl _ := ⟨rfl, .of_log rfl⟩
  trans hst htu := ⟨htu.scopes.trans hst.scopes, hst.visits.trans htu.visits⟩
  note s e plain := ⟨rfl, (tracked_visits v.active).note s e plain⟩
  call node callee args values s :=
    ⟨(Walk.context_sameScopes env v.active).stable.call node callee args values s,
      (Walk.around_visits env v.active).call node callee args values s⟩

theorem Reached.staysOpen {w : Visit} (hw : Reached env p w) :
    StaysOpen env p w.active w.before (w.after env) := .visit hw rfl .refl

/-- A statement tells the value of its target. -/
theorem told_stmt {st : Stmt} {s : State} (hst : Reached env p (v.part (.stmt st) s))
    (h : Told env p v.active s) :
    Told env p v.active ((Walk.stmt (env.around v.active) st).run s).2 := by
  have hmoves := Walk.stmt_moves (Walk.context_sameScopes env v.active) st s
  have hvisits := Walk.stmt_indifferent (Walk.around_visits env v.active) st s
  exact h.moves hmoves hvisits hst.staysOpen fun name htarget =>
    ⟨_, st, hst, rfl, rfl, htarget, .of_log rfl, .refl, rfl, rfl⟩

theorem told_startBody {s : State} (control : Control) (h : Told env p v.active s) :
    Told env p v.active ((Walk.startBody control).run s).2 :=
  h.passes ⟨rfl, (Walk.around_visits env v.active).start control s⟩ (.note _ .refl)

theorem told_push_block (s : State) : Told env p v.active { s with scopes := s.scopes.push .block } :=
  Told.of_unknown s.scopes.not_knows_push_block

theorem told_stmts {sts : List Stmt} {s : State} (hsts : Reached env p (v.part (.stmts sts) s))
    (h : Told env p v.active s) :
    Told env p v.active ((Walk.stmts (env.around v.active) sts).run s).2 := by
  induction sts generalizing s with
  | nil => exact h
  | cons st sts ih =>
    have hst : Reached env p (v.part (.stmt st) s) := hsts.part List.mem_cons_self
    exact ih (hsts.part (List.mem_cons_of_mem _ List.mem_cons_self)) (told_stmt hst h)

theorem Reached.told_after (hv : Reached env p v) (plain : v.task.isPlain = true)
    (h : Told env p v.active v.before) : Told env p v.active (v.after env) := by
  have hpasses := around_passes env v
  have hscopes := Walk.context_sameScopes env v.active
  have hvisits := Walk.around_visits env v.active
  have hopen := hv.staysOpen
  obtain ⟨active, task, s⟩ := v
  cases task with
  | expr e => exact h.passes (Walk.expr_stable hpasses e s) hopen
  | exprs es => exact h.passes (Walk.exprs_stable hpasses es s) hopen
  | condition e => exact h.passes (Walk.condition_stable hpasses e s) hopen
  | stmt st => exact told_stmt (v := ⟨active, .stmt st, s⟩) hv h
  | stmts sts => exact told_stmts (v := ⟨active, .stmts sts, s⟩) hv h
  | block control b =>
    exact h.closed (Walk.block_moves hscopes control b s) (Walk.block_indifferent hvisits control b s) hopen
  | openBlock control b =>
    obtain ⟨sts, span⟩ := b
    have hstart := told_startBody (v := ⟨active, .openBlock control (.mk sts span), s⟩) control h
    exact told_stmts (hv.part List.mem_cons_self) hstart
  | branches control arms =>
    exact h.closed (Walk.branches_moves hscopes control arms s)
      (Walk.branches_indifferent hvisits control arms s) hopen
  | call | body | function | functions | program => cases plain

theorem Reached.relays_told (hv : Reached env p v) :
    v.Relays env fun s => v.task.isInner = true → Told env p v.active s where
  after hpart plain hs inner := (hv.part hpart).told_after plain (hs inner)
  function task _ inner := by
    rw [task] at inner
    cases inner
  block _ _ := told_push_block _
  start control hs inner := told_startBody control (hs inner)

theorem Informed.inside (hv : Reached env p v) (h : v.Informed env p) {w : Visit} (hw : w ∈ v.parts env) :
    w.Informed env p := by
  intro hinner
  cases inside_of_mem_parts hv.relays_told h hw with
  | around _ _ inner found => exact found inner
  | call _ _ _ _ inner found => exact found inner
  | opened =>
    refine Told.of_unknown fun name => ?_
    exact ScopeStack.not_knows_bindForgotten (ScopeStack.not_knows_push_function _ name) _
  | called _ entered =>
    obtain ⟨id, f, bindings, _, _, rfl⟩ := exists_of_mem_called entered
    cases hinner
  | declared _ declares => exact absurd (declares.2.symm.trans hinner) Bool.false_ne_true
  | entry => cases hinner

/-- At every visit that a walk comes to, what is known has been told by the same body. -/
theorem Reached.informed (hv : Reached env p v) : v.Informed env p := by
  induction hv with
  | root => exact fun _ => Told.of_unknown fun name => nofun
  | part hv hinside ih => exact ih.inside hv hinside

end Visit

theorem call_sameScopes (env : Setting) {v : Visit} {callee : String} (hcall : v.task.callee? = some callee) :
    SameScopes v.before (v.after env) := by
  have hstable := (Walk.context_sameScopes env v.active).stable
  unfold Visit.after Visit.walk
  cases htask : v.task with
  | expr e => exact Walk.expr_stable hstable e v.before
  | call node callee args values => exact hstable.call node callee args values v.before
  | stmt st =>
    rw [htask] at hcall
    change SameScopes v.before ((Walk.stmt (env.around v.active) st).run v.before).2
    unfold Task.callee? at hcall
    split at hcall
    · next heq => cases heq
    · next heq =>
      cases heq
      rw [Walk.stmt]
      exact Walk.call_stable hstable _ _ _ v.before
    · next heq => cases heq
    · cases hcall
  | _ =>
    rw [htask] at hcall
    cases hcall

/-- A call, with its arguments or after them, leaves the scopes of its caller as they are, whatever is assigned in
the functions that it enters. So what is known of a variable after the call was known before it, and is what the
caller itself has last told, by a statement in the scope that the call stands in. -/
theorem known_across_calls (c : Catalog Float) (t : Signatures) (p : Program) (reuse : Bool) {v : Visit}
    (hv : v.Reached (.ofProgram c t p reuse) p) {callee : String} (hcall : v.task.callee? = some callee) :
    (v.after (.ofProgram c t p reuse)).scopes = v.before.scopes ∧
    ∀ name, (v.after (.ofProgram c t p reuse)).scopes.Knows name →
      SetBy (.ofProgram c t p reuse) p v.active v.before name := by
  have hscopes := call_sameScopes (.ofProgram c t p reuse) hcall
  refine ⟨hscopes, fun name hknows => hv.informed ?_ name (hscopes ▸ hknows)⟩
  cases htask : v.task with
  | body | function | functions =>
    rw [htask] at hcall
    cases hcall
  | _ => rfl

def spillingCall : Stmt := .expr ⟨3, .none⟩ (.call ⟨4, .none⟩ "fill" [])

/-- A global is given a value, a function that gives it another one is called, and the global divides. -/
def spilling : Program where
  items := [
    .global (.declare ⟨1, .none⟩ .number "level" (some (.number ⟨2, .none⟩ 0 none))),
    .global spillingCall,
    .global (.print ⟨5, .none⟩
      (.binary ⟨6, .none⟩ .div (.number ⟨7, .none⟩ 6 none) (.var ⟨8, .none⟩ "level"))),
    .function ⟨⟨9, .none⟩, "fill", [], none, .mk [
      .assign ⟨10, .none⟩ "level" (.number ⟨11, .none⟩ 2 none)] .none, false⟩,
    .function ⟨⟨12, .none⟩, "main", [], none, .mk [] .none, true⟩]

theorem spilling_call : ∃ c t v, Catalog.build ({} : Description Float) = .ok c ∧
    Signatures.collect spilling = .ok t ∧ Visit.Reached (.ofProgram c t spilling true) spilling v ∧
    v.active = [] ∧ v.task = .stmt spillingCall ∧
    (v.after (.ofProgram c t spilling true)).scopes.Knows "level" := by
  have hevals : ((Catalog.build ({} : Description Float)).toOption.bind fun c =>
      (Signatures.collect spilling).toOption.bind fun t =>
        let env := Setting.ofProgram c t spilling true
        ((Visit.root env spilling).follow env [0, 1, 0]).map fun v =>
          decide ((v.after env).scopes.Knows "level")) = some true := by decide +kernel
  obtain ⟨c, hc, hevals⟩ := Option.bind_eq_some_iff.1 hevals
  obtain ⟨t, ht, hevals⟩ := Option.bind_eq_some_iff.1 hevals
  obtain ⟨v, hv, hknows⟩ := Option.map_eq_some_iff.1 hevals
  rw [Fallible.toOption_eq_some] at hc ht
  refine ⟨c, t, v, hc, ht, Visit.Reached.root.follow hv, ?_, ?_, of_decide_eq_true hknows⟩
  all_goals
    cases hv
    rfl

/-- What is known of the global after the call is what was declared. -/
theorem spilling_told : ∃ c t v, Catalog.build ({} : Description Float) = .ok c ∧
    Signatures.collect spilling = .ok t ∧ Visit.Reached (.ofProgram c t spilling true) spilling v ∧
    v.task = .stmt spillingCall ∧
    (v.after (.ofProgram c t spilling true)).scopes = v.before.scopes ∧
    SetBy (.ofProgram c t spilling true) spilling v.active v.before "level" := by
  obtain ⟨c, t, v, hc, ht, hv, -, htask, hknows⟩ := spilling_call
  have hcall : v.task.callee? = some "fill" := by
    rw [htask]
    rfl
  obtain ⟨hscopes, htold⟩ := known_across_calls c t spilling true hv hcall
  exact ⟨c, t, v, hc, ht, hv, htask, hscopes, htold "level" hknows⟩

/-- After a call at global level of a function that assigns a global, the global can be known, and a check then
trusts the value that it had before. -/
theorem spilling_level_known : ∃ c t v a, Catalog.build ({} : Description Float) = .ok c ∧
    Signatures.collect spilling = .ok t ∧ Visit.Reached (.ofProgram c t spilling true) spilling v ∧
    v.active = [] ∧ v.task = .stmt spillingCall ∧
    (∃ f ∈ spilling.functions, f.name = "fill" ∧ f.params = [] ∧
      ∃ node value, .assign node "level" value ∈ f.body.stmts) ∧
    (v.after (.ofProgram c t spilling true)).scopes.Knows "level" ∧
    analyze c spilling = .ok a ∧ a.diagnostics.map (·.kind) = [.divisionByZero] := by
  obtain ⟨c, t, v, hc, ht, hv, hactive, htask, hknows⟩ := spilling_call
  have hevals : ((Catalog.build ({} : Description Float)).toOption.bind fun c =>
      (analyze c spilling).toOption.map fun a => a.diagnostics.map (·.kind)) =
      some [.divisionByZero] := by decide +kernel
  rw [hc] at hevals
  obtain ⟨_, ⟨⟩, hevals⟩ := Option.bind_eq_some_iff.1 hevals
  obtain ⟨a, ha, hkinds⟩ := Option.map_eq_some_iff.1 hevals
  have hfill := List.mem_of_mem_head? (show spilling.functions.head? = some _ from rfl)
  exact ⟨c, t, v, a, hc, ht, hv, hactive, htask,
    ⟨_, hfill, rfl, rfl, _, _, List.mem_cons_self⟩, hknows, Fallible.toOption_eq_some.1 ha, hkinds⟩

end Metrology.Analysis

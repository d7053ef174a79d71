import Metrology.Proofs.Analysis.Noninterference
import Metrology.Proofs.Analysis.Visits

/-! The two forms of a loop. A loop without a head visits its condition in the scope around it, with all that is
known there; a loop with a head visits it in a block of its own, where nothing is known. A loop that has nothing in
its head but a condition therefore comes to the same in both forms if the condition does, and in particular if it
uses no known variable: the bodies cannot tell that there is one block more around one of them. -/
namespace Metrology.Analysis

structure SameSaid (s s' : State) : Prop where
  diagnostics : (ofLog s'.log).diagnostics = (ofLog s.log).diagnostics
  instances : s'.instances = s.instances

theorem diagnostics_silent {e : Event} (he : e.isSilent = true) (log : List Event) :
    (ofLog (e :: log)).diagnostics = (ofLog log).diagnostics := by
  rw [ofLog, (collect_silent he log).1, ofLog]

theorem recalling_sameSaid : Recalling SameSaid where
  raised {s s'} h d := by
    have hraised (log : List Event) :
        (ofLog (.raised d :: log)).diagnostics = report (ofLog log).diagnostics d := by
      rw [ofLog, raised_cons, List.foldl_append]
      rfl
    exact ⟨(hraised s'.log).trans ((congrArg (report · d) h.diagnostics).trans (hraised s.log).symm), h.instances⟩
  recorded h id v _ := ⟨h.diagnostics, h.instances⟩
  silent {s s'} h e e' he he' :=
    ⟨(diagnostics_silent he' s'.log).trans (h.diagnostics.trans (diagnostics_silent he s.log).symm), h.instances⟩
  indifferent h _ _ _ _ _ _ := ⟨h.diagnostics, h.instances⟩
  lookup h key := by rw [h.instances]
  push h key result := ⟨h.diagnostics, congrArg ((key, result) :: ·) h.instances⟩

/-- Two visits return the same and find the same. -/
structure SameVerdict (r r' : Bool × State) : Prop where
  result : r'.1 = r.1
  said : SameSaid r.2 r'.2

/-- Two visits that find the same leave the same behind, too. -/
structure Interchangeable (r r' : Bool × State) : Prop extends SameVerdict r r' where
  scopes : r'.2.scopes = r.2.scopes
  active : r'.2.active = r.2.active
  frame : r'.2.frame = r.2.frame

def State.inHead (s : State) : State := { s with scopes := (s.scopes.push .block).push .block }

/-- A condition is judged the same in the scope around a loop, with all that is known there, and inside the head,
where nothing is known. -/
def JudgedAlike (ctx : Context) (test : Expr) (s : State) : Prop :=
  SameVerdict ((Walk.condition ctx test).run s) ((Walk.condition ctx test).run s.inHead)

/-- A loop comes to the same with its condition in a head. -/
def FormsAgree (ctx : Context) (node : Node) (test : Expr) (body : Block) (s : State) : Prop :=
  Interchangeable ((Walk.stmt ctx (.whileLoop node test body)).run s)
    ((Walk.stmt ctx (.forLoop node none (some test) none body)).run s)

/-- Two walks over a condition, one around a loop and one inside its head. -/
structure AcrossHead (s t t' : State) : Prop where
  outside : t.scopes = s.scopes
  inside : t'.scopes = s.inHead.scopes
  said : SameSaid t t'

theorem steady_frame : Steady fun s t => t.frame = s.frame where
  refl _ := rfl
  trans hst htu := htu.trans hst
  note _ _ _ := rfl

namespace Walk

variable (env : Setting) (active : List NodeId)

theorem run_condition_keeps (test : Expr) (s : State) :
    ((condition (env.around active) test).run s).2.scopes = s.scopes ∧
      ((condition (env.around active) test).run s).2.frame = s.frame := by
  have hframe : (env.around active).Steady fun s t => t.frame = s.frame :=
    ⟨steady_frame, enter_frame env active⟩
  exact ⟨condition_stable (context_sameScopes env active).stable test s,
    condition_stable hframe.stable test s⟩

theorem run_stmt_active (st : Stmt) (s : State) :
    ((stmt (env.around active) st).run s).2.active = s.active :=
  (stmt_indifferent (around_sameCalls env active) st s).active

theorem around_parallel (F : Footing Float) :
    (env.around active).Parallel (Astride F SameSaid) (env.around active) :=
  context_parallel recalling_sameSaid F fun id _ _ _ h =>
    enter_alike recalling_sameSaid env active id rfl h

theorem run_whileLoop (ctx : Context) (node : Node) (test : Expr) (sts : List Stmt) (span : Span) (s : State) :
    (stmt ctx (.whileLoop node test (.mk sts span))).run s =
      let tested := (condition ctx test).run s
      let pushed := tested.2.scopes.push .block
      let r := (stmts ctx sts).run
        { tested.2 with scopes := pushed, log := .bodyStart (.whileLoop node) pushed :: tested.2.log }
      (tested.1 && r.1, { r.2 with
        scopes := r.2.scopes.truncate tested.2.scopes.depth
        log := .stmtVisit node ctx.active s.scopes (tested.1 && r.1) :: r.2.log }) := by
  rw [stmt, block]
  rfl

theorem run_forLoop (ctx : Context) (node : Node) (test : Expr) (sts : List Stmt) (span : Span) (s : State) :
    (stmt ctx (.forLoop node none (some test) none (.mk sts span))).run s =
      let tested := (condition ctx test).run s.inHead
      let r := (stmts ctx sts).run
        { tested.2 with log := .bodyStart (.forLoop node none) tested.2.scopes :: tested.2.log }
      (tested.1 && r.1, { r.2 with
        scopes := (r.2.scopes.truncate (s.scopes.push .block).depth).truncate s.scopes.depth
        log := .stmtVisit node ctx.active s.scopes (tested.1 && r.1) :: r.2.log }) := by
  rw [stmt, optionStmt, openBlock]
  rfl

/-- Bodies cannot tell that there is one block more around them. -/
theorem formsAgree_of_judgedAlike {test : Expr} {s : State} (h : JudgedAlike (env.around active) test s)
    (node : Node) (body : Block) : FormsAgree (env.around active) node test body s := by
  obtain ⟨sts, span⟩ := body
  obtain ⟨hscopes, hframe⟩ := run_condition_keeps env active test s
  obtain ⟨hscopes', hframe'⟩ := run_condition_keeps env active test s.inHead
  have hactive := run_stmt_active env active (.whileLoop node test (.mk sts span)) s
  have hactive' := run_stmt_active env active (.forLoop node none (some test) none (.mk sts span)) s
  unfold JudgedAlike at h
  unfold FormsAgree
  rw [run_whileLoop] at hactive ⊢
  rw [run_forLoop] at hactive' ⊢
  generalize (condition (env.around active) test).run s = tested at *
  generalize (condition (env.around active) test).run s.inHead = tested' at *
  obtain ⟨ok, t⟩ := tested
  obtain ⟨ok', t'⟩ := tested'
  obtain rfl : ok' = ok := h.result
  dsimp only at hscopes hframe hscopes' hframe' hactive hactive' ⊢
  rw [hscopes] at hactive ⊢
  rw [hscopes'] at hactive' ⊢
  have hstart : Astride (.oneBlockMore s.scopes.below.length) SameSaid 0
      { t with
        scopes := s.scopes.push .block
        log := .bodyStart (.whileLoop node) (s.scopes.push .block) :: t.log }
      { t' with
        scopes := s.inHead.scopes
        log := .bodyStart (.forLoop node none) s.inHead.scopes :: t'.log } := by
    have hsaid := recalling_sameSaid.rescope h.said (s.scopes.push .block) s.inHead.scopes
    exact ⟨ScopeStack.aligned_push_blocks s.scopes, hframe'.trans hframe.symm,
      recalling_sameSaid.silent hsaid _ _ rfl rfl⟩
  obtain ⟨hresult, -, hend⟩ := stmts_lockstep (around_parallel env active _) 0 sts _ _ hstart
  refine ⟨⟨congrArg (ok' && ·) hresult, ?_⟩, hend.scopes.close_blocks, hactive'.trans hactive.symm, hend.frame⟩
  exact recalling_sameSaid.silent (recalling_sameSaid.rescope hend.history _ _) _ _ rfl rfl

/-- An empty body adds nothing to the condition. -/
theorem judgedAlike_of_formsAgree {ctx : Context} {node : Node} {test : Expr} {s : State}
    (h : FormsAgree ctx node test (.mk [] .none) s) : JudgedAlike ctx test s := by
  rw [FormsAgree, run_whileLoop, run_forLoop, stmts] at h
  unfold JudgedAlike
  generalize (condition ctx test).run s = tested at *
  generalize (condition ctx test).run s.inHead = tested' at *
  have hresult : (tested'.1 && true) = (tested.1 && true) := h.result
  have hfound (e e' : Event) (he : e.isSilent = true) (he' : e'.isSilent = true) (log : List Event) :
      (ofLog (e :: e' :: log)).diagnostics = (ofLog log).diagnostics :=
    (diagnostics_silent he _).trans (diagnostics_silent he' log)
  rw [Bool.and_true, Bool.and_true] at hresult
  refine ⟨hresult, ?_, h.said.instances⟩
  exact (hfound _ _ rfl rfl _).symm.trans (h.said.diagnostics.trans (hfound _ _ rfl rfl _))

/-- Functions that are called cannot tell, either, since they see global names only. -/
theorem around_acrossHead (s : State) :
    (env.around active).Alike (AcrossHead s) (env.around active) where
  note h e := ⟨h.outside, h.inside, recalling_sameSaid.note h.said e⟩
  catalog := rfl
  lookup _ := rfl
  active := rfl
  enter id bindings t t' h := by
    have hground : OneGround SameSaid t t' := by
      refine ⟨?_, ?_, h.said⟩
      · rw [h.outside, h.inside]
        rfl
      · rw [h.outside, h.inside, State.inHead, ScopeStack.global_push_block, ScopeStack.global_push_block]
        exact .refl _
    obtain ⟨hresult, hend⟩ := enter_alike recalling_sameSaid env active id (b := bindings) rfl hground
    exact ⟨hresult, trivial, (enter_scopes env active id bindings t).trans h.outside,
      (enter_scopes env active id bindings t').trans h.inside, hend⟩

/-- Among variables that are not known, a condition cannot tell that it is in a head. -/
theorem judgedAlike_of_unknown {test : Expr} {s : State} (h : ∀ name ∈ test.variables, ¬ s.scopes.Knows name) :
    JudgedAlike (env.around active) test s := by
  have hshows : ∀ name ∈ test.variables, Shows (AcrossHead s) name := by
    intro name hname t t' hacross
    rw [hacross.outside, hacross.inside]
    exact ScopeStack.get?_push_blocks (h name hname)
  have hstart : AcrossHead s s s.inHead := ⟨rfl, rfl, rfl, rfl⟩
  obtain ⟨hresult, -, hend⟩ :=
    condition_lockstep (around_acrossHead env active s) test hshows s s.inHead hstart
  exact ⟨hresult, hend.said⟩

end Walk

/-- A loop comes to the same in both forms, whatever its body, exactly if its condition is judged the same around the
loop and inside a head. It is if it uses no known variable. -/
theorem loop_forms_agree_iff (env : Setting) (active : List NodeId) (s : State) (node : Node) (test : Expr) :
    ((∀ body, FormsAgree (env.around active) node test body s) ↔
      JudgedAlike (env.around active) test s) ∧
    ((∀ name ∈ test.variables, ¬ s.scopes.Knows name) →
      ∀ body, FormsAgree (env.around active) node test body s) := by
  refine ⟨⟨fun h => Walk.judgedAlike_of_formsAgree (h _), fun h => ?_⟩, fun h => ?_⟩
  · exact Walk.formsAgree_of_judgedAlike env active h node
  · have hjudged := Walk.judgedAlike_of_unknown env active h
    exact Walk.formsAgree_of_judgedAlike env active hjudged node

/-- A loop that divides by a variable, which is zero at first. -/
def halving : Program where
  items := [
    .function ⟨⟨0, .none⟩, "main", [], none, .mk [
      .declare ⟨1, .none⟩ .number "parts" (some (.number ⟨2, .none⟩ 0 none)),
      .whileLoop ⟨3, .none⟩
        (.binary ⟨4, .none⟩ .lt
          (.binary ⟨5, .none⟩ .div (.number ⟨6, .none⟩ 6 none) (.var ⟨7, .none⟩ "parts")) (.number ⟨8, .none⟩ 9 none))
        (.mk [.assign ⟨9, .none⟩ "parts" (.number ⟨10, .none⟩ 2 none)] .none)] .none, true⟩]

def Task.whileLoop? : Task → Option (Node × Expr × Block)
  | .stmt (.whileLoop node test b) => some (node, test, b)
  | _ => none

theorem Task.eq_of_whileLoop? {task : Task} {loop : Node × Expr × Block} (h : task.whileLoop? = some loop) :
    task = .stmt (.whileLoop loop.1 loop.2.1 loop.2.2) := by
  unfold whileLoop? at h
  split at h
  · cases h
    rfl
  · cases h

/-- The division by zero shows in the scope around the loop only. -/
theorem halving_forms_differ : ∃ c t v node test body, Catalog.build ({} : Description Float) = .ok c ∧
    Signatures.collect halving = .ok t ∧ Visit.Reached (.ofProgram c t halving true) halving v ∧
    v.task = .stmt (.whileLoop node test body) ∧
    ¬ ∀ body, FormsAgree ((Setting.ofProgram c t halving true).around v.active) node test body v.before := by
  have hevals : ((Catalog.build ({} : Description Float)).toOption.bind fun c =>
      (Signatures.collect halving).toOption.bind fun t =>
        let env := Setting.ofProgram c t halving true
        ((Visit.root env halving).follow env [1, 0, 0, 0, 1, 0]).bind fun v =>
          v.task.whileLoop?.map fun loop =>
            let found (s : State) :=
              (ofLog ((Walk.condition (env.around v.active) loop.2.1).run s).2.log).diagnostics.map (·.kind)
            (found v.before, found v.before.inHead)) =
      some ([.divisionByZero], []) := by decide +kernel
  obtain ⟨c, hc, hevals⟩ := Option.bind_eq_some_iff.1 hevals
  obtain ⟨t, ht, hevals⟩ := Option.bind_eq_some_iff.1 hevals
  obtain ⟨v, hv, hevals⟩ := Option.bind_eq_some_iff.1 hevals
  obtain ⟨loop, hloop, hevals⟩ := Option.map_eq_some_iff.1 hevals
  obtain ⟨haround, hhead⟩ := Prod.mk.inj hevals
  rw [Fallible.toOption_eq_some] at hc ht
  refine ⟨c, t, v, loop.1, loop.2.1, loop.2.2, hc, ht, Visit.Reached.root.follow hv, Task.eq_of_whileLoop? hloop,
    fun h => ?_⟩
  obtain ⟨hagree, -⟩ := loop_forms_agree_iff (.ofProgram c t halving true) v.active v.before loop.1 loop.2.1
  have hverdict := hagree.1 h
  have hkinds := congrArg (List.map (·.kind)) hverdict.said.diagnostics
  cases hhead.symm.trans (hkinds.trans haround)

end Metrology.Analysis

import Metrology.Catalog.Build
import Metrology.Proofs.Analysis.Frame
import Metrology.Proofs.Fallible

/-! What is known where a body begins. Whatever branches and loops depend on is forgotten before their
bodies are walked, but the update of a for loop comes between: the one variable that it sets may be
known again. -/
namespace Metrology.Analysis

/-- The update of a loop has just given a variable a known value. `earlier` is the log before the body. -/
def Control.Refreshes (control : Control) (name : String) (earlier : List Event) : Prop :=
  ∃ node update active scopes q rest, control = .forLoop node (some update) ∧
    update.target? = some name ∧ q.isKnown = true ∧
    earlier = .stmtVisit update.node active scopes true ::
      .recorded update.node.id (.measurement q) :: rest

/-- Where bodies begin, all is unknown that no update refreshes. -/
def Grounded : List Event → Prop
  | [] => True
  | .bodyStart control scopes :: earlier =>
    (∀ name, scopes.Knows name ↔ control.Refreshes name earlier) ∧ Grounded earlier
  | _ :: earlier => Grounded earlier

def bodies : Stmt → List (Control × Block)
  | .branch node arms otherwise =>
    (arms.map Branch.body ++ otherwise.toList).map fun body => (.branch node, body)
  | .whileLoop node _ body => [(.whileLoop node, body)]
  | .forLoop node _ _ update body => [(.forLoop node update, body)]
  | _ => []

/-- A body begins somewhere in a log, and its first statement is visited with the scopes there. -/
def Begun (active : List NodeId) (control : Control) (first : Stmt) (log : List Event) : Prop :=
  ∃ later scopes earlier ok, log = later ++ .bodyStart control scopes :: earlier ∧
    .stmtVisit first.node active scopes ok ∈ later

theorem Begun.mono {active : List NodeId} {control : Control} {first : Stmt} {log log' : List Event}
    (h : Begun active control first log) (hl : log <:+ log') : Begun active control first log' := by
  obtain ⟨later, scopes, earlier, ok, rfl, hmem⟩ := h
  obtain ⟨more, rfl⟩ := hl
  exact ⟨more ++ later, scopes, earlier, ok, (List.append_assoc _ _ _).symm,
    List.mem_append_right more hmem⟩

namespace Walk

theorem not_known_placeholder {c : Catalog Float} {type : TypeRef} {q : Quantity Float}
    (h : placeholderFor c type = .measurement q) : q.isKnown = false := by
  unfold placeholderFor at h
  cases hs : (Shape.resolve c type).getD .number <;> rw [hs] at h <;> cases h <;> rfl

theorem bindPlaceholder_knows {c : Catalog Float} {name : String} {type : TypeRef} {s : State}
    (h : ((bindPlaceholder c name type).run s).2.scopes.Knows name) : s.scopes.Knows name := by
  rcases bindPlaceholder_cases c name type s with hrun | ⟨scopes, hdeclare, hrun⟩ <;> rw [hrun] at h
  · exact h
  · obtain ⟨q, hq, hknown⟩ := h
    rw [(ScopeStack.moves_declare hdeclare).2] at hq
    rw [not_known_placeholder (Option.some.inj hq)] at hknown
    cases hknown

/-- A variable is set and its value recorded, or nothing becomes known of it. -/
def Sets (node : Node) (name : String) (s : State) (r : Bool × State) : Prop :=
  (r.1 = true ∧ ∃ v rest, r.2.log = .recorded node.id v :: rest ∧ r.2.scopes.get? name = some v) ∨
    (r.1 = false ∧ (r.2.scopes.Knows name → s.scopes.Knows name))

theorem commit_sets {node : Node} {name : String} {v : Value Float}
    {r : Except ScopeError (ScopeStack Float)} (s : State)
    (h : ∀ scopes, r = .ok scopes → scopes.get? name = some v) :
    Sets node name s ((commit node v r).run s) := by
  cases r with
  | ok scopes => exact Or.inl ⟨rfl, v, s.log, rfl, h scopes rfl⟩
  | error e => exact Or.inr ⟨rfl, id⟩

theorem declare_sets (c : Catalog Float) (node : Node) (type : TypeRef) (name : String)
    (init : Option (Option (Value Float))) (s : State) :
    Sets node name s ((declare c node type name init).run s) := by
  rcases declare_cases c node type name init s with ⟨_, hrun⟩ | ⟨p, _, hrun⟩ | ⟨v, hrun⟩
  all_goals rw [hrun]
  · exact Or.inr ⟨rfl, bindPlaceholder_knows⟩
  · exact Or.inr ⟨rfl, bindPlaceholder_knows⟩
  · exact commit_sets s fun scopes h => (ScopeStack.moves_declare h).2

theorem assign_sets (c : Catalog Float) (node : Node) (target : String) (value : Option (Value Float))
    (s : State) : Sets node target s ((assign c node target value).run s) := by
  rcases assign_cases c node target value s with
    ⟨_, hrun⟩ | ⟨p, _, hrun⟩ | ⟨current, v, _, _, hrun⟩
  all_goals rw [hrun]
  · exact Or.inr ⟨rfl, id⟩
  · exact Or.inr ⟨rfl, id⟩
  · exact commit_sets s fun scopes h => (ScopeStack.moves_assign h).2

variable {ctx : Context}

theorem stmt_sets (hc : ctx.Steady SameScopes) {st : Stmt} {name : String} (h : st.target? = some name)
    (s : State) : ∃ r, Sets st.node name s r ∧
      ((stmt ctx st).run s).2 =
        { r.2 with log := .stmtVisit st.node ctx.active s.scopes r.1 :: r.2.log } := by
  cases st with
  | declare node type name' init =>
    cases h
    cases init with
    | none =>
      rw [stmt]
      exact ⟨_, declare_sets ctx.catalog node type name none s, rfl⟩
    | some init =>
      rw [stmt]
      have hsets := declare_sets ctx.catalog node type name (some ((expr ctx init).run s).1)
        ((expr ctx init).run s).2
      have hsame : ((expr ctx init).run s).2.scopes = s.scopes := expr_stable hc.stable init s
      rw [Sets, hsame] at hsets
      exact ⟨_, hsets, rfl⟩
  | assign node target value =>
    cases h
    rw [stmt]
    have hsets := assign_sets ctx.catalog node name ((expr ctx value).run s).1 ((expr ctx value).run s).2
    have hsame : ((expr ctx value).run s).2.scopes = s.scopes := expr_stable hc.stable value s
    rw [Sets, hsame] at hsets
    exact ⟨_, hsets, rfl⟩
  | _ => cases h

/-- When nothing was known before the update of a loop, then after it what the update refreshes. -/
theorem update_knows_iff (hc : ctx.Steady SameScopes) (node : Node) (update : Option Stmt) {s : State}
    (hs : ∀ name, ¬ s.scopes.Knows name) (name : String) :
    ((optionStmt ctx update).run s).2.scopes.Knows name ↔
      (Control.forLoop node update).Refreshes name ((optionStmt ctx update).run s).2.log := by
  cases update with
  | none =>
    rw [optionStmt]
    refine iff_of_false (hs name) ?_
    rintro ⟨_, _, _, _, _, _, h, _⟩
    cases h
  | some u =>
    rw [optionStmt]
    by_cases htarget : u.target? = some name
    · obtain ⟨r, hsets, hrun⟩ := stmt_sets hc htarget s
      rw [hrun]
      rcases hsets with ⟨hok, v, rest, hlog, hget⟩ | ⟨hok, hknows⟩
      · constructor
        · rintro ⟨q, hq, hknown⟩
          cases hget.symm.trans hq
          exact ⟨node, u, ctx.active, s.scopes, q, rest, rfl, htarget, hknown, by rw [hok, hlog]⟩
        · rintro ⟨_, _, _, _, q, _, hu, _, hknown, hpast⟩
          cases hu
          rw [hok, hlog] at hpast
          cases hpast
          exact ⟨q, hget, hknown⟩
      · refine iff_of_false (fun h => hs name (hknows h)) ?_
        rintro ⟨_, _, _, _, _, _, hu, _, _, hpast⟩
        cases hu
        rw [hok] at hpast
        cases hpast
    · refine iff_of_false (fun h => hs name (h.of_fades ((stmt_moves hc u s).top name htarget))) ?_
      rintro ⟨_, _, _, _, _, _, hu, ht, _⟩
      cases hu
      exact htarget ht

end Walk

def StaysGrounded (s t : State) : Prop := s.log <:+ t.log ∧ (Grounded s.log → Grounded t.log)

theorem staysGrounded (s : State) : StaysGrounded s s := ⟨List.suffix_rfl, id⟩

theorem steady_staysGrounded : Steady StaysGrounded where
  refl := staysGrounded
  trans hst htu := ⟨hst.1.trans htu.1, htu.2 ∘ hst.2⟩
  note s e he := by
    refine ⟨List.suffix_cons e s.log, ?_⟩
    intro h
    cases e with
    | bodyStart control scopes => exact absurd rfl (he control scopes)
    | _ => exact h

structure Context.Grounds (ctx : Context) : Prop where
  scopes : ctx.Steady SameScopes
  log : ctx.Steady StaysGrounded

namespace Walk

variable {ctx : Context} {s : State}

theorem startBody_grounded {control : Control}
    (h : ∀ name, s.scopes.Knows name ↔ control.Refreshes name s.log) :
    StaysGrounded s ((startBody control).run s).2 := ⟨List.suffix_cons _ _, fun hs => ⟨h, hs⟩⟩

theorem raise_grounded (p : Problem) (span : Span) (s : State) :
    StaysGrounded s ((raise p span).run s).2 := raise_tracked steady_staysGrounded.tracked p span s

theorem commit_grounded (node : Node) (v : Value Float) (r : Except ScopeError (ScopeStack Float))
    (s : State) : StaysGrounded s ((commit node v r).run s).2 := by
  cases r with
  | ok scopes => exact steady_staysGrounded.note { s with scopes } (.recorded node.id v) nofun
  | error e => exact raise_grounded _ _ s

theorem bindPlaceholder_grounded (c : Catalog Float) (name : String) (type : TypeRef) (s : State) :
    StaysGrounded s ((bindPlaceholder c name type).run s).2 := by
  rcases bindPlaceholder_cases c name type s with h | ⟨scopes, _, h⟩ <;> rw [h] <;>
    exact staysGrounded s

theorem declare_grounded (c : Catalog Float) (node : Node) (type : TypeRef) (name : String)
    (init : Option (Option (Value Float))) (s : State) :
    StaysGrounded s ((declare c node type name init).run s).2 := by
  rcases declare_cases c node type name init s with ⟨_, hrun⟩ | ⟨p, _, hrun⟩ | ⟨v, hrun⟩
  all_goals rw [hrun]
  · exact bindPlaceholder_grounded c name type s
  · exact steady_staysGrounded.trans (raise_grounded p _ s) (bindPlaceholder_grounded c name type _)
  · exact commit_grounded node v _ s

theorem assign_grounded (c : Catalog Float) (node : Node) (target : String)
    (value : Option (Value Float)) (s : State) :
    StaysGrounded s ((assign c node target value).run s).2 := by
  rcases assign_cases c node target value s with
    ⟨_, hrun⟩ | ⟨p, _, hrun⟩ | ⟨current, v, _, _, hrun⟩
  all_goals rw [hrun]
  · exact staysGrounded s
  · exact raise_grounded p _ s
  · exact commit_grounded node v _ s

theorem giveBack_grounded (ctx : Context) (node : Node) (value : Option (Value Float)) (s : State) :
    StaysGrounded s ((giveBack ctx node value).run s).2 := by
  rcases giveBack_cases ctx node value s with ⟨p, _, hrun⟩ | hrun | ⟨name, v, _, hrun⟩ <;> rw [hrun]
  · exact raise_grounded p _ s
  · exact staysGrounded s
  · exact staysGrounded s

theorem not_refreshes_branch (node : Node) (name : String) (log : List Event) :
    ¬ (Control.branch node).Refreshes name log := by
  rintro ⟨_, _, _, _, _, _, h, _⟩
  cases h

theorem not_refreshes_whileLoop (node : Node) (name : String) (log : List Event) :
    ¬ (Control.whileLoop node).Refreshes name log := by
  rintro ⟨_, _, _, _, _, _, h, _⟩
  cases h

theorem carries_grounded (hc : ctx.Grounds) (target : Option String) : ctx.Carries target StaysGrounded where
  toStable := hc.log.stable
  visit _ _ _ s := steady_staysGrounded.note s _ nofun
  declare node type name init s _ := declare_grounded _ node type name init s
  assign node name value s _ := assign_grounded _ node name value s
  giveBack := giveBack_grounded ctx

theorem composed_grounded (hc : ctx.Grounds) :
    Composed ctx ctx (fun control => ∀ name log, ¬ control.Refreshes name log)
      (fun _ x _ => ∀ s, StaysGrounded s (x.run s).2) (fun _ x _ => ∀ s, StaysGrounded s (x.run s).2) where
  branch := not_refreshes_branch
  whileLoop := not_refreshes_whileLoop
  weaken := id
  nothing := staysGrounded
  both hx hy s := hc.log.trans (hx s) (hy _)
  bothClosed hx hy s := hc.log.trans (hx s) (hy _)
  simple st hst := simple_carries (carries_grounded hc st.target?) hst
  test e := condition_stable hc.log.stable e
  visiting _ _ _ _ hx s := hc.log.trans (hx s) (steady_staysGrounded.note _ _ nofun)
  body {control} hblank _ _ _ hx s := by
    let t : State := { s with scopes := s.scopes.push .block }
    have hstart : StaysGrounded t ((startBody control).run t).2 := startBody_grounded fun name =>
      iff_of_false (ScopeStack.not_knows_push_block s.scopes name) (hblank name t.log)
    exact hc.log.trans hstart (hx _)
  loop node init test update _ _ x _ hinit htest hupdate hx s := by
    let t := ((optionStmt ctx init).run { s with scopes := s.scopes.push .block }).2
    let u := ((optionCondition ctx test).run { t with scopes := t.scopes.push .block }).2
    have hsame : u.scopes = t.scopes.push .block := optionCondition_stable hc.scopes.stable test _
    -- the scope is opened with everything forgotten, and the condition leaves it so
    have hforgot : ∀ name, ¬ u.scopes.Knows name := by
      intro name
      rw [hsame]
      exact ScopeStack.not_knows_push_block t.scopes name
    have hstart := startBody_grounded (update_knows_iff hc.scopes node update hforgot)
    have hround := hc.log.trans (hc.log.trans (htest _) (hupdate u)) (hc.log.trans hstart (hx _))
    exact hc.log.trans (hinit { s with scopes := s.scopes.push .block }) hround

theorem stmt_grounded (hc : ctx.Grounds) (st : Stmt) (s : State) : StaysGrounded s ((stmt ctx st).run s).2 :=
  (composed_grounded hc).stmt st s

theorem stmts_grounded (hc : ctx.Grounds) (sts : List Stmt) (s : State) :
    StaysGrounded s ((stmts ctx sts).run s).2 := (composed_grounded hc).stmts sts s

theorem stmts_begin (hc : ctx.Grounds) (control : Control) (first : Stmt) (rest : List Stmt) (s : State) :
    Begun ctx.active control first
      ((stmts ctx (first :: rest)).run ((startBody control).run s).2).2.log := by
  set t := ((startBody control).run s).2
  have hvisit := head_stmt ctx first t
  obtain ⟨later, hlater⟩ := (stmt_grounded hc first t).1
  have hfirst : Begun ctx.active control first ((stmt ctx first).run t).2.log := by
    refine ⟨later, s.scopes, s.log, ((stmt ctx first).run t).1, hlater.symm, ?_⟩
    rw [← hlater] at hvisit
    cases later with
    | nil => cases hvisit
    | cons e later => exact List.mem_cons.2 (Or.inl (Option.some.inj hvisit).symm)
  rw [stmts]
  exact hfirst.mono (stmts_grounded hc rest _).1

theorem block_begins (hc : ctx.Grounds) (control : Control) {b : Block} {first : Stmt}
    {rest : List Stmt} (hb : b.stmts = first :: rest) (s : State) :
    Begun ctx.active control first ((block ctx control b).run s).2.log := by
  obtain ⟨body, span⟩ := b
  cases hb
  rw [block]
  exact stmts_begin hc control first rest { s with scopes := s.scopes.push .block }

theorem branches_begin (hc : ctx.Grounds) {control : Control}
    (hcontrol : ∀ name log, ¬ control.Refreshes name log) {arms : List Branch} {b : Block}
    (h : b ∈ arms.map Branch.body) {first : Stmt} {rest : List Stmt} (hb : b.stmts = first :: rest)
    (s : State) : Begun ctx.active control first ((branches ctx control arms).run s).2.log := by
  induction arms generalizing s with
  | nil => cases h
  | cons arm arms ih =>
    obtain ⟨test, body⟩ := arm
    rw [branches]
    rcases List.mem_cons.1 h with rfl | h
    · have hbegun := block_begins hc control hb ((condition ctx test).run s).2
      exact hbegun.mono ((composed_grounded hc).branches hcontrol arms _).1
    · exact ih h ((block ctx control body).run ((condition ctx test).run s).2).2

/-- Whenever a statement is walked, so are its bodies, and each visits its first statement with the scopes
noted where it begins. -/
theorem stmt_begins (hc : ctx.Grounds) {st : Stmt} {control : Control} {b : Block}
    (h : (control, b) ∈ bodies st) {first : Stmt} {rest : List Stmt} (hb : b.stmts = first :: rest)
    (s : State) : Begun ctx.active control first ((stmt ctx st).run s).2.log := by
  cases st with
  | branch node arms otherwise =>
    obtain ⟨_, hmem, heq⟩ := List.mem_map.1 h
    cases heq
    rw [stmt]
    rcases List.mem_append.1 hmem with harm | helse
    · have hbegun := branches_begin hc (not_refreshes_branch node) harm hb s
      have hrest := (composed_grounded hc).optionBlock (not_refreshes_branch node) otherwise
        ((branches ctx (.branch node) arms).run s).2
      exact hbegun.mono (hrest.1.trans (List.suffix_cons _ _))
    · obtain rfl := Option.mem_toList.1 helse
      have hbegun := block_begins hc (.branch node) hb ((branches ctx (.branch node) arms).run s).2
      rw [optionBlock]
      exact hbegun.mono (List.suffix_cons _ _)
  | whileLoop node test body =>
    cases List.mem_singleton.1 h
    rw [stmt]
    exact (block_begins hc (.whileLoop node) hb ((condition ctx test).run s).2).mono
      (List.suffix_cons _ _)
  | forLoop node init test update body =>
    cases List.mem_singleton.1 h
    obtain ⟨body, span⟩ := b
    cases hb
    rw [stmt, openBlock]
    let t := ((optionStmt ctx init).run { s with scopes := s.scopes.push .block }).2
    let u := ((optionCondition ctx test).run { t with scopes := t.scopes.push .block }).2
    have hbegun := stmts_begin hc (.forLoop node update) first rest ((optionStmt ctx update).run u).2
    exact hbegun.mono (List.suffix_cons _ _)
  | _ => cases h

theorem body_grounded (hc : ctx.Grounds) (f : FunctionDecl) (bindings : Bindings Float) (s : State) :
    StaysGrounded s ((body ctx f bindings).run s).2 :=
  stmts_grounded hc f.body.stmts (s.opened ctx.catalog f bindings)

theorem enter_grounded (env : Setting) (active : List NodeId) (id : NodeId) (bindings : Bindings Float)
    (s : State) : StaysGrounded s ((enter env active id bindings).run s).2 := by
  fun_induction enter env active id bindings generalizing s with
  | case1 active id bindings hf => exact staysGrounded s
  | case2 active id bindings f hf hactive => exact staysGrounded s
  | case3 active id bindings f hf inactive ctx ih =>
    have hc : ctx.Grounds := ⟨context_sameScopes env _, steady_staysGrounded, ih⟩
    rcases remembered_cases env.reuse (instanceKey id bindings) (calling id (body ctx f bindings)) s with
      hrun | ⟨instances, hrun⟩ <;> rw [hrun]
    · exact staysGrounded s
    · exact body_grounded hc f bindings { s with active := id :: s.active }

theorem context_grounds (env : Setting) (active : List NodeId) : (env.around active).Grounds :=
  ⟨context_sameScopes env active, steady_staysGrounded, enter_grounded env active⟩

theorem program_grounded (env : Setting) (p : Program) (s : State) :
    StaysGrounded s ((program env p).run s).2 := by
  have hglobals := stmts_grounded (context_grounds env []) p.globals s
  exact steady_staysGrounded.trans hglobals (functions_tracked steady_staysGrounded.tracked env
    (fun f bindings s => body_grounded (context_grounds env _) f bindings { s with active := f.id :: s.active })
    p.functions _)

end Walk

theorem grounded_run (c : Catalog Float) (t : Signatures) (p : Program) (reuse : Bool) :
    Grounded (run c t p reuse).log :=
  (Walk.program_grounded (.ofProgram c t p reuse) p (start c)).2 trivial

theorem Grounded.bodyStart {later earlier : List Event} {control : Control} {scopes : ScopeStack Float}
    (h : Grounded (later ++ .bodyStart control scopes :: earlier)) (name : String) :
    scopes.Knows name ↔ control.Refreshes name earlier := by
  induction later with
  | nil => exact h.1 name
  | cons e later ih =>
    cases e with
    | bodyStart => exact ih h.2
    | _ => exact ih h

/-- Where a body begins during a walk, a variable is known exactly when the body is that of a for loop
whose update has just given the variable a known value. And wherever a branch or a loop is walked, its
bodies begin. -/
theorem knows_at_body_start_iff (c : Catalog Float) (t : Signatures) (p : Program) (reuse : Bool) :
    (∀ later control scopes earlier,
      (run c t p reuse).log = later ++ .bodyStart control scopes :: earlier →
      ∀ name, scopes.Knows name ↔ control.Refreshes name earlier) ∧
    ∀ active st control body first rest s,
      (control, body) ∈ bodies st → Block.stmts body = first :: rest →
      Begun active control first
        ((Walk.stmt ((Setting.ofProgram c t p reuse).around active) st).run s).2.log := by
  constructor
  · intro later control scopes earlier h name
    have hrun := grounded_run c t p reuse
    rw [h] at hrun
    exact hrun.bodyStart name
  · intro active st control body first rest s hbody hfirst
    exact Walk.stmt_begins (Walk.context_grounds _ active) hbody hfirst s

/-- A loop whose update starts the counter over. -/
def rewindingLoop : Stmt :=
  .forLoop ⟨1, .none⟩ (some (.declare ⟨2, .none⟩ .number "i" (some (.number ⟨3, .none⟩ 1 none))))
    (some (.binary ⟨4, .none⟩ .lt (.var ⟨5, .none⟩ "i") (.number ⟨6, .none⟩ 9 none)))
    (some (.assign ⟨7, .none⟩ "i" (.number ⟨8, .none⟩ 0 none)))
    (.mk [.print ⟨9, .none⟩ (.var ⟨10, .none⟩ "i")] .none)

def rewinding : Program where
  items := [.function ⟨⟨0, .none⟩, "main", [], none, .mk [rewindingLoop] .none, true⟩]

/-- Its body begins with the counter known, though it runs many times. -/
theorem rewinding_knows_counter : ∃ c t later control scopes earlier,
    Catalog.build ({} : Description Float) = .ok c ∧ Signatures.collect rewinding = .ok t ∧
    (run c t rewinding true).log = later ++ .bodyStart control scopes :: earlier ∧
    scopes.Knows "i" ∧ control.Refreshes "i" earlier ∧
    ∃ control first, Begun [] control first
      ((Walk.stmt ((Setting.ofProgram c t rewinding true).around []) rewindingLoop).run (start c)).2.log := by
  have hevals : (Catalog.build ({} : Description Float)).toOption.bind (fun c =>
      (Signatures.collect rewinding).toOption.map fun t =>
        (run c t rewinding true).log.any fun
          | .bodyStart _ scopes => decide (scopes.Knows "i")
          | _ => false) = some true := by decide +kernel
  obtain ⟨c, hc, hevals⟩ := Option.bind_eq_some_iff.1 hevals
  obtain ⟨t, ht, hevals⟩ := Option.map_eq_some_iff.1 hevals
  obtain ⟨e, he, hknown⟩ := List.any_eq_true.1 hevals
  obtain ⟨hstart, hbegun⟩ := knows_at_body_start_iff c t rewinding true
  cases e with
  | bodyStart control scopes =>
    obtain ⟨later, earlier, hlog⟩ := List.append_of_mem he
    have hknows : scopes.Knows "i" := of_decide_eq_true hknown
    exact ⟨c, t, later, control, scopes, earlier, Fallible.toOption_eq_some.1 hc,
      Fallible.toOption_eq_some.1 ht, hlog, hknows, (hstart _ _ _ _ hlog "i").1 hknows,
      _, _, hbegun [] rewindingLoop _ _ _ _ (start c) List.mem_cons_self rfl⟩
  | _ => cases hknown

end Metrology.Analysis

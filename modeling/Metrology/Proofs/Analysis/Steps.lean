import Metrology.Analysis

/-! What single steps of a walk do. Statements that bind and return are refused with an error, fail for a
part that has no value, or go through. Every visit is noted at its end, with what it returns. -/
namespace Metrology.Analysis.Walk

theorem bindPlaceholder_cases (c : Catalog Float) (name : String) (type : TypeRef) (s : State) :
    ((bindPlaceholder c name type).run s).2 = s ∨
      ∃ scopes, s.scopes.declare name (placeholderFor c type) = .ok scopes ∧
        ((bindPlaceholder c name type).run s).2 = { s with scopes } := by
  unfold bindPlaceholder
  rw [run_bind, run_scopes]
  dsimp only
  split
  · next scopes h => exact Or.inr ⟨scopes, h, rfl⟩
  · exact Or.inl rfl

theorem declare_cases (c : Catalog Float) (node : Node) (type : TypeRef) (name : String)
    (init : Option (Option (Value Float))) (s : State) :
    (init = some none ∧ (declare c node type name init).run s =
      (false, ((bindPlaceholder c name type).run s).2)) ∨
    (∃ p : Problem, p.severity = .error ∧ (declare c node type name init).run s =
      (false, ((bindPlaceholder c name type).run ((raise p node.span).run s).2).2)) ∨
    ∃ v, (declare c node type name init).run s =
      (commit node v (s.scopes.declare name v)).run s := by
  unfold declare
  split
  · exact Or.inl ⟨rfl, rfl⟩
  all_goals
    split
    · exact Or.inr (Or.inl ⟨.unknownUnit type.render, rfl, rfl⟩)
    · split
      · next e _ => exact Or.inr (Or.inl ⟨.typing e, rfl, rfl⟩)
      · next v _ => exact Or.inr (Or.inr ⟨v, rfl⟩)

/-- An assignment that goes through leaves its variable with the category and unit it has. -/
theorem assign_cases (c : Catalog Float) (node : Node) (target : String) (value : Option (Value Float))
    (s : State) :
    (value = none ∧ (assign c node target value).run s = (false, s)) ∨
    (∃ p : Problem, p.severity = .error ∧
      (assign c node target value).run s = (false, ((raise p node.span).run s).2)) ∨
    ∃ current v, s.scopes.get? target = some current ∧ v.forgotten = current.forgotten ∧
      (assign c node target value).run s = (commit node v (s.scopes.assign target v)).run s := by
  unfold assign
  split
  · exact Or.inl ⟨rfl, rfl⟩
  · right
    rw [run_bind, run_scopes]
    dsimp only
    split
    · exact Or.inl ⟨.scope (.undeclared target), rfl, rfl⟩
    · next current hcurrent =>
      split
      · next e _ => exact Or.inl ⟨.typing e, rfl, rfl⟩
      · next v hv =>
        have hshape := Typing.forgotten_of_coerce hv (shapeOf_ne_number current)
        exact Or.inr ⟨current, v, hcurrent, hshape.trans (placeholder_shapeOf c current), rfl⟩

/-- Only a function that returns a plain `number` notes what it returns. -/
theorem giveBack_cases (ctx : Context) (node : Node) (value : Option (Value Float)) (s : State) :
    (∃ p : Problem, p.severity = .error ∧
      (giveBack ctx node value).run s = (false, ((raise p node.span).run s).2)) ∨
    (giveBack ctx node value).run s = (true, s) ∨
    ∃ frame v, (s.frame = some frame ∧ frame.expected = .shape .number) ∧
      (giveBack ctx node value).run s = (true, ((infer v).run s).2) := by
  rw [run_giveBack]
  unfold checkReturn
  dsimp only
  split
  · exact Or.inl ⟨.returnOutside, rfl, rfl⟩
  · next frame hframe =>
    split
    · exact Or.inr (Or.inl rfl)
    · exact Or.inr (Or.inl rfl)
    · next v _ => exact Or.inl ⟨.returnUnexpected frame.function v.describe, rfl, rfl⟩
    · next shape _ => exact Or.inl ⟨.returnMissing frame.function shape.name, rfl, rfl⟩
    · next shape _ hexpected =>
      split
      · next e _ => exact Or.inl ⟨.returnType frame.function e, rfl, rfl⟩
      · next v _ =>
        split
        · next hshape => exact Or.inr (Or.inr ⟨frame, v, ⟨hframe, hshape ▸ hexpected⟩, rfl⟩)
        · exact Or.inr (Or.inl rfl)

theorem applyCall_cases (ctx : Context) (node : Node) (callee : String) (args : List Expr)
    (values : List (Option (Value Float))) (s : State) :
    ((applyCall ctx node callee args values).run s =
      (.invalid, ((note (.callVisit node callee none .invalid)).run s).2)) ∨
    (∃ p span, (applyCall ctx node callee args values).run s =
      (.invalid, ((note (.callVisit node callee none .invalid)).run ((raise p span).run s).2).2)) ∨
    ∃ signature bindings, ctx.signatures.lookup callee = some signature ∧
      (applyCall ctx node callee args values).run s =
        let r := (ctx.enter signature.decl.id bindings).run s
        let result := callResult ctx.catalog signature.returns r.1
        let t := ((note (.called signature.decl.id ctx.active)).run r.2).2
        (result, ((note (.callVisit node callee (some bindings) result)).run t).2) := by
  unfold applyCall
  split
  · exact Or.inl rfl
  · exact Or.inr (Or.inl ⟨_, _, rfl⟩)
  · next _ signature _ hlookup =>
    split
    · exact Or.inr (Or.inl ⟨_, _, rfl⟩)
    · dsimp only
      split
      · next misfit _ =>
        cases misfit with
        | none => exact Or.inl rfl
        | some misfit => exact Or.inr (Or.inl ⟨misfit.1, misfit.2, rfl⟩)
      · next bindings _ => exact Or.inr (Or.inr ⟨signature, bindings, hlookup, rfl⟩)

theorem remembered_cases (reuse : Bool) (key : InstanceKey) (walk : Walk (Option (Value Float)))
    (s : State) : ((remembered reuse key walk).run s).2 = s ∨
      ∃ instances, ((remembered reuse key walk).run s).2 = { (walk.run s).2 with instances } := by
  rw [run_remembered]
  split
  · exact Or.inl rfl
  · exact Or.inr ⟨_, rfl⟩

theorem enter_of_none {env : Setting} {id : NodeId} (hf : env.function? id = none) (active : List NodeId)
    (bindings : Bindings Float) : enter env active id bindings = return none := by
  rw [enter]
  split
  · rfl
  · next hg =>
    rw [hf] at hg
    cases hg

theorem enter_of_active {env : Setting} {active : List NodeId} {id : NodeId} (hactive : id ∈ active)
    (bindings : Bindings Float) : enter env active id bindings = return none := by
  rw [enter]
  split
  · rfl
  · exact dif_pos hactive

/-- A function that is not being walked is walked, unless its result is known. -/
theorem enter_of_inactive {env : Setting} {active : List NodeId} {id : NodeId} {f : FunctionDecl}
    (hf : env.function? id = some f) (inactive : id ∉ active) (bindings : Bindings Float) :
    enter env active id bindings =
      remembered env.reuse (instanceKey id bindings) (calling id (body (env.around (id :: active)) f bindings)) := by
  obtain rfl := Setting.id_of_function? hf
  rw [enter]
  split
  · next hnone =>
    rw [hf] at hnone
    cases hnone
  · next g hg =>
    rw [hf] at hg
    cases hg
    rw [dif_neg inactive]
    rfl

theorem enter_frame (env : Setting) (active : List NodeId) (id : NodeId) (bindings : Bindings Float) (s : State) :
    ((enter env active id bindings).run s).2.frame = s.frame := by
  cases hf : env.function? id with
  | none =>
    rw [enter_of_none hf]
    rfl
  | some f =>
    by_cases hactive : id ∈ active
    · rw [enter_of_active hactive]
      rfl
    · rw [enter_of_inactive hf hactive]
      rcases remembered_cases env.reuse (instanceKey id bindings)
        (calling id (body (env.around (id :: active)) f bindings)) s with hrun | ⟨instances, hrun⟩ <;> rw [hrun]
      rfl

theorem head_settle (node : Node) (o : Outcome) (s : State) :
    ((settle node o).run s).2.log.head? = some (.exprVisit node ((settle node o).run s).1) := by
  cases o <;> rfl

theorem head_expr (ctx : Context) (e : Expr) (s : State) :
    ((expr ctx e).run s).2.log.head? = some (.exprVisit e.node ((expr ctx e).run s).1) := by
  cases e with
  | cast node unit operand =>
    rw [expr, run_bind]
    generalize Outcome.cast ctx.catalog unit ((expr ctx operand).run s).1 = r
    obtain ⟨outcome, warning⟩ := r
    cases warning <;> exact head_settle node outcome _
  | _ => exact head_settle _ _ _

theorem head_applyCall (ctx : Context) (node : Node) (callee : String) (args : List Expr)
    (values : List (Option (Value Float))) (s : State) : ∃ bindings,
    ((applyCall ctx node callee args values).run s).2.log.head? =
      some (.callVisit node callee bindings ((applyCall ctx node callee args values).run s).1) := by
  rcases applyCall_cases ctx node callee args values s with
    hrun | ⟨p, span, hrun⟩ | ⟨signature, bindings, _, hrun⟩
  all_goals rw [hrun]
  · exact ⟨none, rfl⟩
  · exact ⟨none, rfl⟩
  · exact ⟨some bindings, rfl⟩

theorem head_condition (ctx : Context) (e : Expr) (s : State) :
    ((condition ctx e).run s).2.log.head? =
      some (.conditionVisit e.node ((condition ctx e).run s).1) := by
  unfold condition
  rw [run_bind]
  generalize (expr ctx e).run s = r
  obtain ⟨v, t⟩ := r
  match v with
  | some .flag | some .text | some (.measurement q) | none => rfl

theorem head_stmt (ctx : Context) (st : Stmt) (s : State) :
    ((stmt ctx st).run s).2.log.head? =
      some (.stmtVisit st.node ctx.active s.scopes ((stmt ctx st).run s).1) := by
  have visited (node : Node) (body : Walk Bool) : ((visiting ctx node body).run s).2.log.head? =
      some (.stmtVisit node ctx.active s.scopes ((visiting ctx node body).run s).1) := rfl
  cases st with
  | declare node type name init => cases init <;> (rw [stmt]; exact visited node _)
  | ret node value => cases value <;> (rw [stmt]; exact visited node _)
  | expr node value => cases value <;> (simp only [stmt]; exact visited node _)
  | _ => rw [stmt]; exact visited _ _

theorem head_function (env : Setting) (f : FunctionDecl) (s : State) :
    ((function env f).run s).2.log.head? =
      some (.functionVisit f.node ((function env f).run s).1) := by
  unfold function
  dsimp only
  split
  · rw [run_bind]
    split <;> rfl
  · rfl

end Metrology.Analysis.Walk

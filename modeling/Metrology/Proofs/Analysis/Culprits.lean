import Mathlib.Data.List.Basic
import Metrology.Catalog.Build
import Metrology.Proofs.Analysis.Accounting
import Metrology.Proofs.Fallible

/-! Whom the errors in an expression are about. Below every failure there are nodes that fail of their own: all of
their operands have values, and they have none. The visit of an expression without calls raises one error for each of
these, in the order in which nodes are completed, and records the values of all nodes that have one. -/
namespace Metrology

namespace Expr

def operands : Expr → List Expr
  | number _ _ _ | text _ _ | flag _ _ | var _ _ => []
  | unary _ _ operand | cast _ _ operand => [operand]
  | binary _ _ left right => [left, right]
  | call _ _ args => args

mutual

def postorder : Expr → List Expr
  | number node value unit => [number node value unit]
  | text node value => [text node value]
  | flag node value => [flag node value]
  | var node name => [var node name]
  | unary node op operand => operand.postorder ++ [unary node op operand]
  | binary node op left right => left.postorder ++ right.postorder ++ [binary node op left right]
  | cast node unit operand => operand.postorder ++ [cast node unit operand]
  | call node callee args => postorderOfList args ++ [call node callee args]

def postorderOfList : List Expr → List Expr
  | [] => []
  | e :: es => e.postorder ++ postorderOfList es

end

def hasCall : Expr → Bool
  | number _ _ _ | text _ _ | flag _ _ | var _ _ => false
  | unary _ _ operand | cast _ _ operand => operand.hasCall
  | binary _ _ left right => left.hasCall || right.hasCall
  | call _ _ _ => true

theorem postorderOfList_eq (es : List Expr) : postorderOfList es = es.flatMap postorder := by
  induction es with
  | nil => rw [postorderOfList]; rfl
  | cons e es ih => rw [postorderOfList, ih, List.flatMap_cons]

theorem postorder_eq (e : Expr) : e.postorder = e.operands.flatMap postorder ++ [e] := by
  cases e <;> simp [postorder, operands, postorderOfList_eq]

theorem self_mem_postorder (e : Expr) : e ∈ e.postorder := by
  rw [postorder_eq]
  exact List.mem_append_right _ (List.mem_singleton_self e)

theorem mem_postorder {e n : Expr} : n ∈ e.postorder ↔ n = e ∨ ∃ operand ∈ e.operands, n ∈ operand.postorder := by
  rw [postorder_eq, List.mem_append, List.mem_flatMap, List.mem_singleton]
  exact or_comm

/-- What holds of a node when it holds of its operands holds of every expression without calls. -/
theorem induction_of_hasCall {P : Expr → Prop}
    (step : ∀ e : Expr, e.hasCall = false → (∀ operand ∈ e.operands, P operand) → P e) (e : Expr)
    (he : e.hasCall = false) : P e := by
  induction e using hasCall.induct with
  | case5 node op operand ih => exact step _ he (by simpa [operands] using ih he)
  | case6 node word operand ih => exact step _ he (by simpa [operands] using ih he)
  | case7 node op left right ihl ihr =>
    obtain ⟨hl, hr⟩ := Bool.or_eq_false_iff.1 he
    exact step _ he (by simpa [operands] using ⟨ihl hl, ihr hr⟩)
  | case8 => cases he
  | _ => exact step _ he (by simp [operands])

theorem hasCall_of_mem_postorder {e n : Expr} (he : e.hasCall = false) (hn : n ∈ e.postorder) :
    n.hasCall = false := by
  refine induction_of_hasCall (P := fun e => n ∈ e.postorder → n.hasCall = false) ?_ e he hn
  intro e he ih hn
  rcases mem_postorder.1 hn with rfl | ⟨operand, hmem, hn⟩
  · exact he
  · exact ih operand hmem hn

end Expr

namespace Analysis

/-- The value of an expression, if it has one. A call has none of its own. -/
def valueOf (c : Catalog Float) (scopes : ScopeStack Float) : Expr → Option (Value Float)
  | .number _ x none => some (.measurement (.ofValue c.number x))
  | .number _ x (some word) => do return .measurement (.ofValue (← c.lookup word) x)
  | .text _ _ => some .text
  | .flag _ _ => some .flag
  | .var _ name => scopes.get? name
  | .unary _ op operand => do (Typing.unary op (← valueOf c scopes operand)).toOption
  | .binary _ op left right => do
    (Typing.binary c op (← valueOf c scopes left) (← valueOf c scopes right)).toOption
  | .cast _ word operand => do
    let v ← valueOf c scopes operand
    let (w, _) ← (Typing.cast c (← c.lookup word) v).toOption
    return w
  | .call _ _ _ => none

/-- A node that has no value, although all that it is made from has. -/
def IsCulprit (c : Catalog Float) (scopes : ScopeStack Float) (e : Expr) : Prop :=
  valueOf c scopes e = none ∧ ∀ operand ∈ e.operands, valueOf c scopes operand ≠ none

instance (c : Catalog Float) (scopes : ScopeStack Float) : DecidablePred (IsCulprit c scopes) := fun _ =>
  inferInstanceAs (Decidable (_ ∧ _))

/-- What is wrong with a culprit: a word that means nothing, or a rule that does not apply to the values. -/
inductive Refuses (c : Catalog Float) (scopes : ScopeStack Float) : Expr → Problem → Prop
  | number {node : Node} {x : Float} {word : String} : c.lookup word = none →
    Refuses c scopes (.number node x (some word)) (.unknownUnit word)
  | var {node : Node} {name : String} : scopes.get? name = none →
    Refuses c scopes (.var node name) (.scope (.undeclared name))
  | unary {node : Node} {op : UnaryOp} {operand : Expr} {v : Value Float} {e : TypeError Float} :
    valueOf c scopes operand = some v → Typing.unary op v = .error e →
    Refuses c scopes (.unary node op operand) (.typing e)
  | binary {node : Node} {op : BinaryOp} {left right : Expr} {v w : Value Float} {e : TypeError Float} :
    valueOf c scopes left = some v → valueOf c scopes right = some w → Typing.binary c op v w = .error e →
    Refuses c scopes (.binary node op left right) (.typing e)
  | castUnit {node : Node} {word : String} {operand : Expr} {v : Value Float} :
    valueOf c scopes operand = some v → c.lookup word = none →
    Refuses c scopes (.cast node word operand) (.unknownUnit word)
  | cast {node : Node} {word : String} {operand : Expr} {v : Value Float} {target : MeasureUnit}
    {e : TypeError Float} : valueOf c scopes operand = some v → c.lookup word = some target →
    Typing.cast c target v = .error e → Refuses c scopes (.cast node word operand) (.typing e)

namespace Outcome

def toOption : Outcome → Option (Value Float)
  | value v => some v
  | refused _ | failed => none

def events (o : Outcome) (node : Node) : List Event :=
  match o with
  | value v => [.recorded node.id v, .exprVisit node (some v)]
  | refused p => [.raised (p.toDiagnostic node.span), .exprVisit node none]
  | failed => [.exprVisit node none]

end Outcome

theorem Walk.run_settle (node : Node) (o : Outcome) (s : State) :
    (settle node o).run s = (o.toOption, { s with log := (o.events node).reverse ++ s.log }) := by
  cases o <;> rfl

variable (c : Catalog Float) (scopes : ScopeStack Float)

/-- The rule of a node, applied to the values of its operands, with the warning that may go with it. -/
def ruleOf : Expr → Outcome × Option Problem
  | .number _ x unit => (.number c x unit, none)
  | .text _ _ => (.value .text, none)
  | .flag _ _ => (.value .flag, none)
  | .var _ name => (.var scopes name, none)
  | .unary _ op operand => (.unary op (valueOf c scopes operand), none)
  | .binary _ op left right => (.binary c op (valueOf c scopes left) (valueOf c scopes right), none)
  | .cast _ word operand => Outcome.cast c word (valueOf c scopes operand)
  | .call _ _ _ => (.failed, none)

/-- What the visit of a node adds to the visits of its operands, oldest first. -/
def trace (e : Expr) : List Event :=
  (ruleOf c scopes e).2.toList.map (fun p => .raised (p.toDiagnostic e.node.span)) ++
    (ruleOf c scopes e).1.events e.node

variable {c scopes}

theorem Outcome.toOption_ofTyping (r : Except (TypeError Float) (Value Float)) :
    (ofTyping r).toOption = r.toOption := by
  cases r <;> rfl

theorem valueOf_eq (e : Expr) : valueOf c scopes e = (ruleOf c scopes e).1.toOption := by
  cases e with
  | number node x unit =>
    cases unit with
    | none => rfl
    | some word =>
      simp only [valueOf, ruleOf, Outcome.number]
      cases c.lookup word <;> rfl
  | var node name =>
    simp only [valueOf, ruleOf, Outcome.var]
    cases scopes.get? name <;> rfl
  | unary node op operand =>
    simp only [valueOf, ruleOf]
    cases valueOf c scopes operand with
    | none => rfl
    | some v => exact (Outcome.toOption_ofTyping _).symm
  | binary node op left right =>
    simp only [valueOf, ruleOf]
    cases valueOf c scopes left with
    | none => rfl
    | some v =>
      cases valueOf c scopes right with
      | none => rfl
      | some w => exact (Outcome.toOption_ofTyping _).symm
  | cast node word operand =>
    simp only [valueOf, ruleOf, Outcome.cast]
    cases valueOf c scopes operand with
    | none => rfl
    | some v =>
      cases c.lookup word with
      | none => rfl
      | some target =>
        simp only [Option.bind_eq_bind, Option.bind_some]
        cases Typing.cast c target v <;> rfl
  | text | flag | call => rfl

theorem collect_reverse {β : Type} (pick : Event → Option β) (log : List Event) :
    collect pick log.reverse = log.filterMap pick := by
  rw [collect, List.filterMap_reverse, List.reverse_reverse]

namespace Walk

theorem run_conclusion (e : Expr) (before : List Event) (s : State) :
    (do
      if let some p := (ruleOf c scopes e).2 then raise p e.node.span
      settle e.node (ruleOf c scopes e).1 : Walk (Option (Value Float))).run
        { s with log := before.reverse ++ s.log } =
      (valueOf c scopes e, { s with log := (before ++ trace c scopes e).reverse ++ s.log }) := by
  rw [valueOf_eq, trace]
  cases (ruleOf c scopes e).2 with
  | none =>
    refine (run_settle e.node _ _).trans ?_
    simp
  | some p =>
    refine (run_settle e.node _ _).trans ?_
    simp

theorem run_expr (ctx : Context) {e : Expr} (he : e.hasCall = false) (s : State) :
    (expr ctx e).run s = (valueOf ctx.catalog s.scopes e,
      { s with log := (e.postorder.flatMap (trace ctx.catalog s.scopes)).reverse ++ s.log }) := by
  induction e using Expr.hasCall.induct generalizing s with
  | case1 node x unit =>
    rw [Expr.postorder, List.flatMap_singleton]
    exact run_conclusion (.number node x unit) [] s
  | case2 node text =>
    rw [Expr.postorder, List.flatMap_singleton]
    exact run_conclusion (.text node text) [] s
  | case3 node flag =>
    rw [Expr.postorder, List.flatMap_singleton]
    exact run_conclusion (.flag node flag) [] s
  | case4 node name =>
    rw [Expr.postorder, List.flatMap_singleton]
    exact run_conclusion (.var node name) [] s
  | case5 node op operand ih =>
    rw [expr, run_bind, ih he, Expr.postorder, List.flatMap_append, List.flatMap_singleton]
    exact run_conclusion (.unary node op operand) _ s
  | case6 node word operand ih =>
    rw [expr, run_bind, ih he, Expr.postorder, List.flatMap_append, List.flatMap_singleton]
    exact run_conclusion (.cast node word operand) _ s
  | case7 node op left right ihl ihr =>
    obtain ⟨hl, hr⟩ := Bool.or_eq_false_iff.1 he
    rw [expr, run_bind, ihl hl, run_bind, ihr hr, Expr.postorder, List.flatMap_append, List.flatMap_append,
      List.flatMap_singleton, ← List.append_assoc, ← List.reverse_append]
    exact run_conclusion (.binary node op left right) _ s
  | case8 => cases he

end Walk

theorem Outcome.ofTyping_eq_refused {r : Except (TypeError Float) (Value Float)} {p : Problem} :
    ofTyping r = .refused p ↔ ∃ e, r = .error e ∧ p = .typing e := by
  cases r <;> simp [ofTyping, eq_comm]

theorem refuses_iff {e : Expr} {p : Problem} :
    Refuses c scopes e p ↔ (ruleOf c scopes e).1 = .refused p := by
  constructor
  · intro h
    cases h with
    | number hword => simp [ruleOf, Outcome.number, hword]
    | var hname => simp [ruleOf, Outcome.var, hname]
    | unary hv he => simp [ruleOf, hv, Outcome.unary, he, Outcome.ofTyping]
    | binary hv hw he => simp [ruleOf, hv, hw, Outcome.binary, he, Outcome.ofTyping]
    | castUnit hv hword => simp [ruleOf, hv, Outcome.cast, hword]
    | cast hv hword he => simp [ruleOf, hv, Outcome.cast, hword, he]
  · intro h
    cases e with
    | number node x unit =>
      cases unit with
      | none => cases h
      | some word =>
        simp only [ruleOf, Outcome.number] at h
        split at h <;> cases h
        exact .number ‹_›
    | var node name =>
      simp only [ruleOf, Outcome.var] at h
      split at h <;> cases h
      exact .var ‹_›
    | unary node op operand =>
      cases hv : valueOf c scopes operand with
      | none => simp [ruleOf, hv, Outcome.unary] at h
      | some v =>
        simp only [ruleOf, hv, Outcome.unary] at h
        obtain ⟨e, he, rfl⟩ := Outcome.ofTyping_eq_refused.1 h
        exact .unary hv he
    | binary node op left right =>
      cases hv : valueOf c scopes left with
      | none => simp [ruleOf, hv, Outcome.binary] at h
      | some v =>
        cases hw : valueOf c scopes right with
        | none => simp [ruleOf, hv, hw, Outcome.binary] at h
        | some w =>
          simp only [ruleOf, hv, hw, Outcome.binary] at h
          obtain ⟨e, he, rfl⟩ := Outcome.ofTyping_eq_refused.1 h
          exact .binary hv hw he
    | cast node word operand =>
      cases hv : valueOf c scopes operand with
      | none => simp [ruleOf, hv, Outcome.cast] at h
      | some v =>
        simp only [ruleOf, hv, Outcome.cast] at h
        split at h
        · cases h
          exact .castUnit hv ‹_›
        · split at h <;> cases h
          exact .cast hv ‹_› ‹_›
    | text | flag | call => cases h

/-- Unless a node is a call, its rule is skipped only for an operand without a value. -/
theorem failed_of_ruleOf {e : Expr} (he : e.hasCall = false) (h : (ruleOf c scopes e).1 = .failed) :
    ∃ operand ∈ e.operands, valueOf c scopes operand = none := by
  cases e with
  | number node x unit => exact False.elim ((Outcome.proper_number c x unit).failed h)
  | text | flag => cases h
  | var node name => exact False.elim ((Outcome.proper_var scopes name).failed h)
  | unary node op operand => exact ⟨operand, by simp [Expr.operands], (Outcome.proper_unary op _).failed h⟩
  | binary node op left right =>
    rcases (Outcome.proper_binary c op _ _).failed h with hl | hr
    · exact ⟨left, by simp [Expr.operands], hl⟩
    · exact ⟨right, by simp [Expr.operands], hr⟩
  | cast node word operand => exact ⟨operand, by simp [Expr.operands], (Outcome.proper_cast c word _).failed h⟩
  | call => cases he

theorem Refuses.operands {e : Expr} {p : Problem} (h : Refuses c scopes e p) :
    ∀ operand ∈ e.operands, valueOf c scopes operand ≠ none := by
  cases h <;> simp_all [Expr.operands]

/-- A culprit is a node that something is wrong with. -/
theorem isCulprit_iff {e : Expr} (he : e.hasCall = false) :
    IsCulprit c scopes e ↔ ∃ p, Refuses c scopes e p := by
  constructor
  · rintro ⟨hnone, hoperands⟩
    cases hrule : (ruleOf c scopes e).1 with
    | value v =>
      rw [valueOf_eq, hrule] at hnone
      cases hnone
    | refused p => exact ⟨p, refuses_iff.2 hrule⟩
    | failed =>
      obtain ⟨operand, hmem, hoperand⟩ := failed_of_ruleOf he hrule
      exact absurd hoperand (hoperands operand hmem)
  · rintro ⟨p, hp⟩
    refine ⟨?_, hp.operands⟩
    rw [valueOf_eq, refuses_iff.1 hp]
    rfl

/-- A node has no value without those of its operands. -/
theorem valueOf_operand {e : Expr} (he : e.hasCall = false) (h : valueOf c scopes e ≠ none) :
    ∀ operand ∈ e.operands, valueOf c scopes operand ≠ none := by
  intro operand hmem hnone
  apply h
  cases e with
  | unary node op operand' =>
    obtain rfl := List.mem_singleton.1 hmem
    simp [valueOf, hnone]
  | binary node op left right =>
    rcases List.mem_cons.1 hmem with rfl | hmem
    · simp [valueOf, hnone]
    · obtain rfl := List.mem_singleton.1 hmem
      simp [valueOf, hnone]
  | cast node word operand' =>
    obtain rfl := List.mem_singleton.1 hmem
    simp [valueOf, hnone]
  | call => cases he
  | _ => cases hmem

/-- Below every node without a value there is a culprit, and nowhere else. -/
theorem valueOf_eq_none_iff {e : Expr} (he : e.hasCall = false) :
    valueOf c scopes e = none ↔ ∃ n ∈ e.postorder, IsCulprit c scopes n := by
  refine Expr.induction_of_hasCall
    (P := fun e => valueOf c scopes e = none ↔ ∃ n ∈ e.postorder, IsCulprit c scopes n) ?_ e he
  intro e he ih
  constructor
  · intro hnone
    by_cases hoperands : ∀ operand ∈ e.operands, valueOf c scopes operand ≠ none
    · exact ⟨e, e.self_mem_postorder, hnone, hoperands⟩
    · push Not at hoperands
      obtain ⟨operand, hmem, hoperand⟩ := hoperands
      obtain ⟨n, hn, hculprit⟩ := (ih operand hmem).1 hoperand
      exact ⟨n, Expr.mem_postorder.2 (Or.inr ⟨operand, hmem, hn⟩), hculprit⟩
  · rintro ⟨n, hn, hculprit⟩
    rcases Expr.mem_postorder.1 hn with rfl | ⟨operand, hmem, hn⟩
    · exact hculprit.1
    · by_contra hsome
      exact valueOf_operand he hsome operand hmem ((ih operand hmem).2 ⟨n, hn, hculprit⟩)

theorem severity_of_refuses {e : Expr} {p : Problem} (h : Refuses c scopes e p) : p.severity = .error := by
  cases h <;> rfl

theorem severity_of_ruleOf {e : Expr} {p : Problem} (h : (ruleOf c scopes e).2 = some p) :
    p.severity = .warning := by
  cases e with
  | cast node word operand => exact Outcome.severity_of_cast h
  | _ => cases h

def errors (log : List Event) : List Diagnostic := (raised log).filter Diagnostic.isError

theorem errors_flatMap (f : Expr → List Event) (es : List Expr) :
    errors (es.flatMap f).reverse = es.flatMap fun e => errors (f e).reverse := by
  simp only [errors, raised, collect_reverse, List.filterMap_flatMap, List.filter_flatMap]

theorem recorded_flatMap (f : Expr → List Event) (es : List Expr) :
    recorded (es.flatMap f).reverse = es.flatMap fun e => recorded (f e).reverse := by
  simp only [recorded, collect_reverse, List.filterMap_flatMap]

/-- Warnings apart, a node raises what its rule refuses it for. -/
theorem errors_trace (e : Expr) :
    errors (trace c scopes e).reverse = errors ((ruleOf c scopes e).1.events e.node).reverse := by
  rw [trace]
  cases hwarning : (ruleOf c scopes e).2 with
  | none => rfl
  | some p =>
    have hp : (p.toDiagnostic e.node.span).isError = false := by
      simp [Diagnostic.isError, Problem.toDiagnostic, severity_of_ruleOf hwarning]
    simp only [errors, raised, collect_reverse, Option.toList_some, List.map_cons, List.map_nil,
      List.cons_append, List.nil_append, List.filterMap_cons, List.filter_cons, hp, Bool.false_eq_true, if_false]

theorem errors_of_refuses {e : Expr} {p : Problem} (h : Refuses c scopes e p) :
    errors (trace c scopes e).reverse = [p.toDiagnostic e.node.span] := by
  have hp : (p.toDiagnostic e.node.span).isError = true := decide_eq_true (severity_of_refuses h)
  rw [errors_trace, refuses_iff.1 h]
  exact List.filter_cons_of_pos hp

theorem errors_of_not_refuses {e : Expr} (h : ¬ ∃ p, Refuses c scopes e p) :
    errors (trace c scopes e).reverse = [] := by
  rw [errors_trace]
  cases hrule : (ruleOf c scopes e).1 with
  | refused p => exact absurd ⟨p, refuses_iff.2 hrule⟩ h
  | value v => rfl
  | failed => rfl

theorem recorded_trace (e : Expr) :
    recorded (trace c scopes e).reverse = ((valueOf c scopes e).map fun v => (e.node.id, v)).toList := by
  rw [valueOf_eq, trace, recorded, collect_reverse]
  cases (ruleOf c scopes e).2 <;> cases (ruleOf c scopes e).1 <;> rfl

theorem forall₂_filter_flatMap {β γ : Type} {R : β → γ → Prop} {p : β → Bool} {f : β → List γ} {xs : List β}
    (hit : ∀ x ∈ xs, p x = true → ∃ y, f x = [y] ∧ R x y) (miss : ∀ x ∈ xs, p x = false → f x = []) :
    List.Forall₂ R (xs.filter p) (xs.flatMap f) := by
  induction xs with
  | nil => exact .nil
  | cons x xs ih =>
    have ih := ih (fun y hy => hit y (List.mem_cons_of_mem x hy)) fun y hy => miss y (List.mem_cons_of_mem x hy)
    rw [List.flatMap_cons]
    cases hx : p x with
    | true =>
      obtain ⟨y, hy, hR⟩ := hit x List.mem_cons_self hx
      rw [List.filter_cons_of_pos hx, hy]
      exact .cons hR ih
    | false =>
      rw [List.filter_cons_of_neg (ne_true_of_eq_false hx), miss x List.mem_cons_self hx]
      exact ih

/-- The errors that the visit of an expression without calls raises are, in the order in which nodes are completed, one
for each node that has no value although its operands have one; it says at that node what is wrong with it. The
visit returns nothing exactly if there is such a node. Every node with none of them below it, and no other, has its
value recorded. Nothing else changes: the scopes, the functions being walked, what the innermost of them returns and
the results of functions stay. -/
theorem one_error_per_culprit (ctx : Context) (s : State) {e : Expr} (he : e.hasCall = false) :
    (∀ n ∈ e.postorder, ((Walk.expr ctx n).run s).1 = valueOf ctx.catalog s.scopes n) ∧
    ∃ events, ((Walk.expr ctx e).run s).2 = { s with log := events ++ s.log } ∧
      List.Forall₂ (fun n d => ∃ p, Refuses ctx.catalog s.scopes n p ∧ d = p.toDiagnostic n.node.span)
        (e.postorder.filter (IsCulprit ctx.catalog s.scopes)) (errors events) ∧
      (((Walk.expr ctx e).run s).1 = none ↔ ∃ n ∈ e.postorder, IsCulprit ctx.catalog s.scopes n) ∧
      (∀ n ∈ e.postorder, (∀ m ∈ n.postorder, ¬ IsCulprit ctx.catalog s.scopes m) →
        ∃ v, valueOf ctx.catalog s.scopes n = some v ∧ (n.node.id, v) ∈ recorded events) ∧
      recorded events = e.postorder.filterMap fun n =>
        (valueOf ctx.catalog s.scopes n).map fun v => (n.node.id, v) := by
  have callFree := fun n (hn : n ∈ e.postorder) => Expr.hasCall_of_mem_postorder he hn
  have hrun := Walk.run_expr ctx he s
  have hrecorded : recorded (e.postorder.flatMap (trace ctx.catalog s.scopes)).reverse =
      e.postorder.filterMap fun n => (valueOf ctx.catalog s.scopes n).map fun v => (n.node.id, v) := by
    simp only [recorded_flatMap, recorded_trace, List.filterMap_eq_flatMap_toList]
  refine ⟨fun n hn => by rw [Walk.run_expr ctx (callFree n hn)], _, by rw [hrun], ?_, ?_, ?_, hrecorded⟩
  · rw [errors_flatMap]
    refine forall₂_filter_flatMap ?_ ?_
    · intro n hn hculprit
      obtain ⟨p, hp⟩ := (isCulprit_iff (callFree n hn)).1 (of_decide_eq_true hculprit)
      exact ⟨_, errors_of_refuses hp, p, hp, rfl⟩
    · intro n hn hinnocent
      exact errors_of_not_refuses (mt (isCulprit_iff (callFree n hn)).2 (of_decide_eq_false hinnocent))
  · rw [hrun]
    exact valueOf_eq_none_iff he
  · intro n hn hclean
    have hsome : valueOf ctx.catalog s.scopes n ≠ none := by
      intro hnone
      obtain ⟨m, hm, hculprit⟩ := (valueOf_eq_none_iff (callFree n hn)).1 hnone
      exact hclean m hm hculprit
    obtain ⟨v, hv⟩ := Option.ne_none_iff_exists'.1 hsome
    refine ⟨v, hv, ?_⟩
    rw [hrecorded]
    exact List.mem_filterMap.2 ⟨n, hn, by rw [hv]; rfl⟩

/-- The sum of a negated text and of `x + 2 * 3`, where nothing is called `x`. -/
def jumble : Expr :=
  .binary ⟨7, ⟨7, 8⟩⟩ .add (.unary ⟨1, ⟨1, 2⟩⟩ .neg (.text ⟨0, ⟨0, 1⟩⟩ "t"))
    (.binary ⟨6, ⟨6, 7⟩⟩ .add (.var ⟨2, ⟨2, 3⟩⟩ "x")
      (.binary ⟨5, ⟨5, 6⟩⟩ .mul (.number ⟨3, ⟨3, 4⟩⟩ 2 none) (.number ⟨4, ⟨4, 5⟩⟩ 3 none)))

/-- The negation and the variable are pointed out, and not the sums around them; the product has its value. -/
theorem jumble_culprits : ∃ c, Catalog.build ({} : Description Float) = .ok c ∧ jumble.hasCall = false ∧
    let r := (Walk.expr ⟨c, .empty, [], fun _ _ => return none⟩ jumble).run ⟨.empty [], [], none, [], []⟩
    r.1 = none ∧ (errors r.2.log).map (·.span) = [⟨1, 2⟩, ⟨2, 3⟩] ∧
      (recorded r.2.log).map (·.1) = [0, 3, 4, 5] := by
  have hevals : (Catalog.build ({} : Description Float)).toOption.map (fun c =>
      ((jumble.postorder.filter (IsCulprit c (.empty []))).map (·.node.span),
        (jumble.postorder.filterMap fun n => (valueOf c (.empty []) n).map fun v => (n.node.id, v)).map (·.1))) =
      some ([⟨1, 2⟩, ⟨2, 3⟩], [0, 3, 4, 5]) := by decide +kernel
  obtain ⟨c, hc, hevals⟩ := Option.map_eq_some_iff.1 hevals
  obtain ⟨hculprits, hvalues⟩ := Prod.mk.inj hevals
  refine ⟨c, Fallible.toOption_eq_some.1 hc, rfl, ?_⟩
  have hspans {ns : List Expr} {ds : List Diagnostic} (h : List.Forall₂ (fun n d => ∃ p,
      Refuses c (.empty []) n p ∧ d = p.toDiagnostic n.node.span) ns ds) :
      ds.map (·.span) = ns.map (·.node.span) := by
    induction h with
    | nil => rfl
    | cons hd _ ih =>
      obtain ⟨p, _, rfl⟩ := hd
      rw [List.map_cons, List.map_cons, ih]
      rfl
  obtain ⟨_, events, hafter, herrors, hnone, _, hrecorded⟩ :=
    one_error_per_culprit ⟨c, .empty, [], fun _ _ => return none⟩ ⟨.empty [], [], none, [], []⟩ (e := jumble) rfl
  refine ⟨hnone.2 ?_, ?_⟩
  · obtain ⟨n, _, hn, _⟩ := List.map_eq_cons_iff.1 hculprits
    obtain ⟨hmem, hculprit⟩ := List.mem_filter.1 (hn ▸ List.mem_cons_self)
    exact ⟨n, hmem, of_decide_eq_true hculprit⟩
  · rw [hafter, List.append_nil]
    exact ⟨(hspans herrors).trans hculprits, hrecorded ▸ hvalues⟩

end Analysis

end Metrology

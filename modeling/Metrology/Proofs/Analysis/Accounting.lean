import Mathlib.Tactic.Common
import Metrology.Analysis

/-! Failures and errors of a walk account for each other. A visit that fails notes a failure, and behind
every failure there is an error: its own, that of a part, or that of a declaration with an unknown unit.
Conversely no error is raised without a visit that fails for it. -/
namespace Metrology.Analysis

def Event.isError : Event → Bool
  | raised d => d.isError
  | _ => false

/-- A finding is a warning exactly when it is about a dropped unit. -/
def Event.Regular : Event → Prop
  | raised d => d.isError = true ↔ d.kind ≠ .discardedUnit
  | _ => True

def Resolves (c : Catalog Float) (signature : Signature) : Prop :=
  (∀ p ∈ signature.params, Shape.resolve c p.2 ≠ none) ∧
    ∀ type, signature.returns = some type → Shape.resolve c type ≠ none

def Resolved (c : Catalog Float) (t : Signatures) : Prop :=
  ∀ name signature, t.lookup name = some signature → Resolves c signature

theorem Problem.regular (p : Problem) (span : Span) :
    (Event.raised (p.toDiagnostic span)).Regular := by
  cases p with
  | typing e => cases e <;> simp [Event.Regular, toDiagnostic, kind, severity, Diagnostic.isError,
      TypeError.kind]
  | scope e => cases e <;> simp [Event.Regular, toDiagnostic, kind, severity, Diagnostic.isError]
  | _ => simp [Event.Regular, toDiagnostic, kind, severity, Diagnostic.isError]

/-- The events between two states, when all are regular, satisfy a condition. -/
def Between (s t : State) (P : List Event → Prop) : Prop :=
  ∃ events, t.log = events ++ s.log ∧ (∀ e ∈ events, e.Regular) ∧ P events

/-- Failures and errors between two states account for each other, and a bad result shows as a failure.
What `known` excludes is accounted for elsewhere. -/
def Accounted (known : Prop) (s t : State) (bad : Prop) : Prop :=
  Between s t fun events => known → events.any Event.isFailure = events.any Event.isError ∧
    (bad → events.any Event.isFailure = true)

/-- The same before a visit has been noted: a bad result counts as a failure. -/
def Owing (known : Prop) (s t : State) (bad : Prop) : Prop :=
  Between s t fun events =>
    known → ((events.any Event.isFailure = true ∨ bad) ↔ events.any Event.isError = true)

variable {known : Prop} {s t u : State} {bad bad' : Prop}

theorem Between.trans {P Q R : List Event → Prop} (hst : Between s t P) (htu : Between t u Q)
    (h : ∀ xs ys, P xs → Q ys → R (ys ++ xs)) : Between s u R := by
  obtain ⟨xs, hxs, rx, px⟩ := hst
  obtain ⟨ys, hys, ry, qy⟩ := htu
  refine ⟨ys ++ xs, by rw [hys, hxs, List.append_assoc], ?_, h xs ys px qy⟩
  intro e he
  rcases List.mem_append.1 he with he | he
  · exact ry e he
  · exact rx e he

theorem Between.note {P Q : List Event → Prop} (h : Between s t P) {e : Event} (he : e.Regular)
    (hQ : ∀ xs, P xs → Q (e :: xs)) : Between s { t with log := e :: t.log } Q := by
  obtain ⟨xs, hxs, rx, px⟩ := h
  refine ⟨e :: xs, by rw [hxs]; rfl, ?_, hQ xs px⟩
  intro x hx
  rcases List.mem_cons.1 hx with rfl | hx
  · exact he
  · exact rx x hx

theorem Between.raise {P : List Event → Prop} (h : Between s t P) {p : Problem} (span : Span)
    (hp : p.severity = .error) : Owing known s ((Walk.raise p span).run t).2 True := by
  refine Between.note h (p.regular span) ?_
  intro xs _ _
  simp [Event.isError, Problem.toDiagnostic, Diagnostic.isError, hp]

namespace Accounted

theorem refl (known : Prop) (s : State) : Accounted known s s False :=
  ⟨[], rfl, by simp, by simp⟩

theorem mono (h : Accounted known s t bad) (hb : bad' → bad) : Accounted known s t bad' := by
  obtain ⟨xs, hxs, rx, hx⟩ := h
  exact ⟨xs, hxs, rx, fun k => ⟨(hx k).1, fun b => (hx k).2 (hb b)⟩⟩

theorem trans (hst : Accounted known s t bad) (htu : Accounted known t u bad') :
    Accounted known s u (bad ∨ bad') := by
  refine Between.trans hst htu ?_
  intro xs ys hx hy k
  refine ⟨by rw [List.any_append, List.any_append, (hx k).1, (hy k).1], ?_⟩
  rintro (hb | hb)
  · simp [(hx k).2 hb]
  · simp [(hy k).2 hb]

theorem note (h : Accounted known s t bad) (e : Event) (hr : e.Regular) (hf : e.isFailure = false)
    (he : e.isError = false) : Accounted known s ((Walk.note e).run t).2 bad := by
  refine Between.note h hr ?_
  intro xs hx k
  simpa [hf, he] using hx k

theorem excuse (h : Accounted known s t bad) (hn : ¬ known) (e : Event) (hr : e.Regular) :
    Accounted known s ((Walk.note e).run t).2 bad' := by
  refine Between.note h hr ?_
  intro xs _ k
  exact absurd k hn

theorem owing (h : Accounted known s t bad) : Owing known s t bad := by
  obtain ⟨xs, hxs, rx, hx⟩ := h
  refine ⟨xs, hxs, rx, ?_⟩
  intro k
  rw [← (hx k).1]
  exact ⟨fun hb => hb.elim id (hx k).2, Or.inl⟩

theorem warn (h : Accounted known s t bad) {p : Problem} (span : Span) (hp : p.severity = .warning) :
    Accounted known s ((Walk.raise p span).run t).2 bad := by
  refine h.note _ (p.regular span) rfl ?_
  simp [Event.isError, Problem.toDiagnostic, Diagnostic.isError, hp]

end Accounted

namespace Owing

theorem congr (h : Owing known s t bad) (hb : bad' ↔ bad) : Owing known s t bad' := by
  rwa [show bad' = bad from propext hb]

theorem trans (hst : Owing known s t bad) (htu : Owing known t u bad') :
    Owing known s u (bad ∨ bad') := by
  refine Between.trans hst htu ?_
  intro xs ys hx hy k
  rw [List.any_append, List.any_append, Bool.or_eq_true, Bool.or_eq_true, ← hx k, ← hy k,
    or_comm (a := bad)]
  exact or_or_or_comm

theorem note (h : Owing known s t bad) (e : Event) (hr : e.Regular) (he : e.isError = false)
    (hf : e.isFailure = true ↔ bad) : Accounted known s ((Walk.note e).run t).2 bad := by
  refine Between.note h hr ?_
  intro xs hx k
  have hx := hx k
  simp only [List.any_cons, he, Bool.false_or]
  refine ⟨?_, fun b => by simp [hf.2 b]⟩
  rw [Bool.eq_iff_iff, Bool.or_eq_true, hf, ← hx]
  exact or_comm

end Owing

structure Context.Accounts (ctx : Context) (known : Prop) : Prop where
  resolved : known → Resolved ctx.catalog ctx.signatures
  enter : ∀ id bindings s, Accounted known s ((ctx.enter id bindings).run s).2 False

/-- A rule fails only where a part of its node is bad, and refuses only with an error. -/
structure Outcome.Proper (o : Outcome) (bad : Prop) : Prop where
  failed : o = .failed → bad
  refused : ∀ p, o = .refused p → p.severity = .error

namespace Outcome

theorem proper_value (v : Value Float) : (value v).Proper bad where
  failed h := by cases h
  refused p h := by cases h

theorem proper_refused {p : Problem} (hp : p.severity = .error) : (refused p).Proper bad where
  failed h := by cases h
  refused q h := by
    cases h
    exact hp

theorem proper_failed (hb : bad) : failed.Proper bad where
  failed _ := hb
  refused p h := by cases h

theorem proper_ofTyping (r : Except (TypeError Float) (Value Float)) : (ofTyping r).Proper bad := by
  cases r with
  | ok v => exact proper_value v
  | error e => exact proper_refused rfl

theorem proper_number (c : Catalog Float) (x : Float) (unit : Option String) :
    (number c x unit).Proper bad := by
  unfold number
  split
  · exact proper_value _
  · split
    · exact proper_value _
    · exact proper_refused rfl

theorem proper_var (scopes : ScopeStack Float) (name : String) : (var scopes name).Proper bad := by
  unfold var
  split
  · exact proper_value _
  · exact proper_refused rfl

theorem proper_unary (op : UnaryOp) (v : Option (Value Float)) : (unary op v).Proper (v = none) := by
  cases v with
  | none => exact proper_failed rfl
  | some v => exact proper_ofTyping _

theorem proper_binary (c : Catalog Float) (op : BinaryOp) (l r : Option (Value Float)) :
    (binary c op l r).Proper (l = none ∨ r = none) := by
  cases l with
  | none => exact proper_failed (Or.inl rfl)
  | some l =>
    cases r with
    | none => exact proper_failed (Or.inr rfl)
    | some r => exact proper_ofTyping _

theorem proper_cast (c : Catalog Float) (word : String) (v : Option (Value Float)) :
    (cast c word v).1.Proper (v = none) := by
  unfold cast
  split
  · exact proper_failed rfl
  · split
    · exact proper_refused rfl
    · split
      · exact proper_refused rfl
      · exact proper_value _

theorem severity_of_cast {c : Catalog Float} {word : String} {v : Option (Value Float)} {p : Problem}
    (h : (cast c word v).2 = some p) : p.severity = .warning := by
  unfold cast at h
  split at h
  · cases h
  · split at h
    · cases h
    · split at h
      · cases h
      · obtain ⟨u, _, rfl⟩ := Option.map_eq_some_iff.1 h
        rfl

theorem proper_call (callee : String) (r : CallResult) : (call callee r).Proper (r = .invalid) := by
  cases r with
  | value v => exact proper_value v
  | void => exact proper_refused rfl
  | invalid => exact proper_failed rfl

end Outcome

namespace Walk

theorem settle_accounted (h : Accounted known s t bad) (node : Node) {o : Outcome}
    (ho : o.Proper bad) :
    Accounted known s ((settle node o).run t).2 (((settle node o).run t).1 = none) := by
  have unsettled {t : State} (howe : Owing known s t True) :
      Accounted known s ((note (.exprVisit node none)).run t).2 True :=
    howe.note _ trivial rfl (by simp [Event.isFailure])
  cases o with
  | value v =>
    have hrec := (h.mono False.elim).note (.recorded node.id v) trivial rfl rfl
    exact (hrec.note (.exprVisit node (some v)) trivial rfl rfl).mono (by simp [settle])
  | refused p => exact (unsettled (h.raise node.span (ho.refused p rfl))).mono fun _ => trivial
  | failed => exact (unsettled (h.owing.congr (by simp [ho.failed]))).mono fun _ => trivial

/-- A misfit is an error, or a parameter has an unknown unit. -/
def Misfit.Excused (c : Catalog Float) (params : List (String × TypeRef)) : Misfit → Prop
  | none => ∃ p ∈ params, Shape.resolve c p.2 = none
  | some (p, _) => p.severity = .error

theorem excused_of_bindArguments {c : Catalog Float} {callee : String} {position : Nat}
    {params : List (String × TypeRef)} {args : List (Value Float × Span)} {misfit : Misfit}
    (h : bindArguments c callee position params args = .error misfit) :
    misfit.Excused c params := by
  fun_induction bindArguments c callee position params args with
  | case1 position name type params v span args hnone =>
    cases h
    exact ⟨(name, type), by simp, hnone⟩
  | case2 =>
    cases h
    rfl
  | case3 position name type params v span args shape hshape v' hv ih =>
    cases hrest : bindArguments c callee (position + 1) params args with
    | ok bindings =>
      rw [hrest] at h
      cases h
    | error misfit' =>
      rw [hrest] at h
      cases h
      have ih := ih hrest
      cases misfit with
      | none =>
        obtain ⟨p, hp, hn⟩ := ih
        exact ⟨p, List.mem_cons_of_mem _ hp, hn⟩
      | some misfit => exact ih
  | case4 => cases h

theorem unresolved_of_callResult {c : Catalog Float} {returns : Option TypeRef}
    {inferred : Option (Value Float)} (h : callResult c returns inferred = .invalid) :
    ∃ type, returns = some type ∧ Shape.resolve c type = none := by
  unfold callResult at h
  split at h
  · cases h
  · next type =>
    refine ⟨type, rfl, ?_⟩
    split at h
    · assumption
    · split at h <;> cases h
    · cases h

theorem mapM_id_cons_eq_none {β : Type} {v : Option β} {vs : List (Option β)} :
    (v :: vs).mapM id = none ↔ v = none ∨ vs.mapM id = none := by
  rw [List.mapM_cons]
  cases v <;> cases vs.mapM id <;> simp

variable {ctx : Context}

theorem applyCall_accounted (hc : ctx.Accounts known) (node : Node) (callee : String) (args : List Expr)
    {values : List (Option (Value Float))} (h : Accounted known s t (values.mapM id = none)) :
    Accounted known s ((applyCall ctx node callee args values).run t).2
      (((applyCall ctx node callee args values).run t).1 = .invalid) := by
  have invalid {t : State} (howe : Owing known s t True) :
      Accounted known s ((note (.callVisit node callee none .invalid)).run t).2 True :=
    howe.note _ trivial rfl (by simp [Event.isFailure])
  unfold applyCall
  split
  · next hv => exact (invalid (h.owing.congr (by simp [hv]))).mono fun _ => trivial
  · next hv hl => exact (invalid (h.raise node.span rfl)).mono fun _ => trivial
  · next values' signature hv hl =>
    split
    · exact (invalid (h.raise node.span rfl)).mono fun _ => trivial
    · next harity =>
      dsimp only
      split
      · next misfit hmisfit =>
        have hm := excused_of_bindArguments hmisfit
        cases misfit with
        | none =>
          obtain ⟨p, hp, hn⟩ := hm
          have unknown : ¬ known := fun k => (hc.resolved k callee signature hl).1 p hp hn
          exact h.excuse unknown (.callVisit node callee none .invalid) trivial
        | some misfit => exact (invalid (h.raise misfit.2 hm)).mono fun _ => trivial
      · next bindings hb =>
        have hbody := h.trans (hc.enter signature.decl.id bindings t)
        set r := (ctx.enter signature.decl.id bindings).run t
        have hcalled := hbody.note (.called signature.decl.id ctx.active) trivial rfl rfl
        set u := ((note (.called signature.decl.id ctx.active)).run r.2).2
        set result := callResult ctx.catalog signature.returns r.1 with hresult
        change Accounted known s ((note (.callVisit node callee (some bindings) result)).run u).2
          (result = .invalid)
        -- a call that is entered comes to nothing only when what it returns has an unknown unit
        cases hr : result with
        | invalid =>
          obtain ⟨type, htype, hn⟩ := unresolved_of_callResult (hresult.symm.trans hr)
          have unknown : ¬ known := fun k => (hc.resolved k callee signature hl).2 type htype hn
          exact hcalled.excuse unknown _ trivial
        | void =>
          exact (hcalled.note (.callVisit node callee (some bindings) .void) trivial rfl rfl).mono
            (by simp)
        | value v =>
          exact (hcalled.note (.callVisit node callee (some bindings) (.value v)) trivial rfl rfl).mono
            (by simp)

mutual

theorem expr_accounted (hc : ctx.Accounts known) (e : Expr) (s : State) :
    Accounted known s ((expr ctx e).run s).2 (((expr ctx e).run s).1 = none) := by
  match e with
  | .number node value unit =>
    exact settle_accounted (Accounted.refl known s) node (Outcome.proper_number _ _ _)
  | .text node _ => exact settle_accounted (Accounted.refl known s) node (Outcome.proper_value _)
  | .flag node _ => exact settle_accounted (Accounted.refl known s) node (Outcome.proper_value _)
  | .var node name =>
    exact settle_accounted (Accounted.refl known s) node (Outcome.proper_var s.scopes name)
  | .unary node op operand =>
    exact settle_accounted (expr_accounted hc operand s) node (Outcome.proper_unary _ _)
  | .binary node op left right =>
    have hl := expr_accounted hc left s
    have hr := expr_accounted hc right ((expr ctx left).run s).2
    exact settle_accounted (hl.trans hr) node (Outcome.proper_binary _ _ _ _)
  | .cast node unit operand =>
    have h := expr_accounted hc operand s
    have ho := Outcome.proper_cast ctx.catalog unit ((expr ctx operand).run s).1
    have hw := @Outcome.severity_of_cast ctx.catalog unit ((expr ctx operand).run s).1
    rw [expr, run_bind]
    generalize Outcome.cast ctx.catalog unit ((expr ctx operand).run s).1 = r at ho hw ⊢
    obtain ⟨outcome, warning⟩ := r
    cases warning with
    | none => exact settle_accounted h node ho
    | some p => exact settle_accounted (h.warn node.span (hw rfl)) node ho
  | .call node callee args =>
    have h := applyCall_accounted hc node callee args (exprs_accounted hc args s)
    exact settle_accounted h node (Outcome.proper_call _ _)

theorem exprs_accounted (hc : ctx.Accounts known) (es : List Expr) (s : State) :
    Accounted known s ((exprs ctx es).run s).2 (((exprs ctx es).run s).1.mapM id = none) := by
  match es with
  | [] =>
    rw [exprs]
    exact (Accounted.refl known s).mono fun hnone => by cases hnone
  | e :: es =>
    have h := expr_accounted hc e s
    have hs := exprs_accounted hc es ((expr ctx e).run s).2
    exact (h.trans hs).mono mapM_id_cons_eq_none.1

end

end Walk

end Metrology.Analysis

import Metrology.Catalog.Build
import Metrology.Proofs.Analysis.Accounting.Program
import Metrology.Proofs.Analysis.Shown
import Metrology.Proofs.Signature

/-! A program is valid exactly when every visit of its walk succeeds. What calls pass over in silence, the
declarations report: a function with an unknown unit is an error of its own. -/
namespace Metrology.Analysis

def Failing (events : List Event) : Prop :=
  events.any Event.isFailure = true ∧ events.any Event.isError = true

theorem Failing.append_left {events : List Event} (h : Failing events) (later : List Event) :
    Failing (later ++ events) := by
  simp [Failing, h.1, h.2]

theorem Failing.append_right {events : List Event} (h : Failing events) (earlier : List Event) :
    Failing (events ++ earlier) := by
  simp [Failing, h.1, h.2]

namespace Walk

variable {env : Setting} {s : State}

theorem param_resolves {seen : List String} {p : Param} (h : ((param env seen p).run s).1 = true) :
    Shape.resolve env.catalog p.type ≠ none := by
  intro hn
  simp [param, hn] at h

theorem params_resolve {seen : List String} {ps : List Param}
    (h : ((params env seen ps).run s).1 = true) :
    ∀ p ∈ ps, Shape.resolve env.catalog p.type ≠ none := by
  induction ps generalizing seen s with
  | nil => simp
  | cons p ps ih =>
    have h : (((param env seen p).run s).1 && _) = true := h
    obtain ⟨hp, hps⟩ := Bool.and_eq_true_iff.1 h
    exact List.forall_mem_cons.2 ⟨param_resolves hp, ih hps⟩

theorem returned_resolves {f : FunctionDecl} (h : ((returned env f).run s).1 = true) {type : TypeRef}
    (ht : f.returns = some type) : Shape.resolve env.catalog type ≠ none := by
  intro hn
  simp [returned, ht, hn] at h

theorem header_resolves {f : FunctionDecl} (h : ((header env f).run s).1 = true) :
    Resolves env.catalog (.ofDecl f) := by
  have h : ((_ && ((params env [] f.params).run _).1) && ((returned env f).run _).1) = true := h
  obtain ⟨h, hreturned⟩ := Bool.and_eq_true_iff.1 h
  obtain ⟨-, hparams⟩ := Bool.and_eq_true_iff.1 h
  refine ⟨?_, fun type ht => returned_resolves hreturned ht⟩
  intro p hp
  obtain ⟨q, hq, rfl⟩ := List.mem_map.1 hp
  exact params_resolve hparams q hq

/-- A declaration with an unknown unit is an error of its own, called or not. -/
theorem function_fails {f : FunctionDecl} (ho : env.signatures.owns f = true)
    (hu : ¬ Resolves env.catalog (.ofDecl f)) (s : State) :
    Between s ((function env f).run s).2 Failing := by
  have hbad : ((header env f).run s).1 = false := by
    rw [← Bool.not_eq_true]
    exact mt header_resolves hu
  have hheader : Between s ((header env f).run s).2 fun events => events.any Event.isError = true := by
    obtain ⟨events, hlog, hreg, h⟩ := header_owing True env f s
    exact ⟨events, hlog, hreg, (h trivial).1 (Or.inr hbad)⟩
  have visited {t : State}
      (h : Between s t fun events => events.any Event.isError = true) :
      Between s ((note (.functionVisit f.node false)).run t).2 Failing :=
    h.note trivial fun xs hx => ⟨by simp [Event.isFailure], by simp [hx]⟩
  unfold function
  rw [if_pos ho]
  dsimp only
  rw [run_bind, hbad]
  split
  · have hbody := calling_body_accounted (@id (Resolved env.catalog env.signatures)) f
    exact visited (hheader.trans (hbody _ _) fun xs ys hx _ => by simp [hx])
  · exact visited hheader

theorem functions_fail {fs : List FunctionDecl} {f : FunctionDecl} (hf : f ∈ fs)
    (ho : env.signatures.owns f = true) (hu : ¬ Resolves env.catalog (.ofDecl f)) (s : State) :
    Between s ((functions env fs).run s).2 Failing := by
  induction fs generalizing s with
  | nil => cases hf
  | cons g fs ih =>
    rcases List.mem_cons.1 hf with rfl | hf
    · have hrest := functions_accounted (@id (Resolved env.catalog env.signatures)) fs
        ((function env f).run s).2
      exact (function_fails ho hu s).trans hrest fun xs ys hx _ => hx.append_left ys
    · have hfirst := function_accounted (@id (Resolved env.catalog env.signatures)) g s
      exact Between.trans hfirst (ih hf _) fun xs ys _ hy => hy.append_right xs

theorem program_fails {p : Program} {f : FunctionDecl} (hf : f ∈ p.functions)
    (ho : env.signatures.owns f = true) (hu : ¬ Resolves env.catalog (.ofDecl f)) (s : State) :
    Between s ((program env p).run s).2 Failing := by
  have hglobals := stmts_accounted (around_accounts (@id (Resolved env.catalog env.signatures)) []) p.globals s
  exact Between.trans hglobals (functions_fail hf ho hu _) fun xs ys _ hy => hy.append_right xs

end Walk

theorem isError_of_repeats {d d' : Diagnostic} (hd : (Event.raised d).Regular)
    (hd' : (Event.raised d').Regular) (h : d.repeats d' = true) : d.isError = d'.isError := by
  have hkind : d.kind = d'.kind := by
    simp only [Diagnostic.repeats, Bool.and_eq_true, decide_eq_true_eq] at h
    exact h.1.2
  rw [Bool.eq_iff_iff]
  exact hd.trans (hkind ▸ hd'.symm)

theorem any_isError_report {found : List Diagnostic} {d : Diagnostic}
    (hfound : ∀ d ∈ found, (Event.raised d).Regular) (hd : (Event.raised d).Regular) :
    (report found d).any Diagnostic.isError = (found.any Diagnostic.isError || d.isError) := by
  unfold report
  split
  · next hrepeats =>
    obtain ⟨d', hmem, hd'⟩ := List.any_eq_true.1 hrepeats
    rw [isError_of_repeats hd (hfound d' hmem) hd']
    cases herr : d'.isError with
    | false => simp
    | true => simpa using ⟨d', hmem, herr⟩
  · simp

theorem regular_of_report {found : List Diagnostic} {d : Diagnostic}
    (hfound : ∀ d ∈ found, (Event.raised d).Regular) (hd : (Event.raised d).Regular) :
    ∀ d' ∈ report found d, (Event.raised d').Regular := by
  unfold report
  split
  · exact hfound
  · intro d' hd'
    rcases List.mem_append.1 hd' with h | h
    · exact hfound d' h
    · rw [List.mem_singleton.1 h]
      exact hd

theorem any_isError_reports {ds found : List Diagnostic}
    (hfound : ∀ d ∈ found, (Event.raised d).Regular) (hds : ∀ d ∈ ds, (Event.raised d).Regular) :
    (ds.foldl report found).any Diagnostic.isError =
      (found.any Diagnostic.isError || ds.any Diagnostic.isError) := by
  induction ds generalizing found with
  | nil => simp
  | cons d ds ih =>
    obtain ⟨hd, hds⟩ := List.forall_mem_cons.1 hds
    rw [List.foldl_cons, ih (regular_of_report hfound hd) hds, any_isError_report hfound hd,
      List.any_cons, Bool.or_assoc]

theorem any_isError_ofLog {log : List Event} (h : ∀ e ∈ log, e.Regular) :
    (ofLog log).diagnostics.any Diagnostic.isError = log.any Event.isError := by
  have hreg : ∀ d ∈ raised log, (Event.raised d).Regular := fun d hd => h _ (mem_raised.1 hd)
  rw [ofLog, any_isError_reports (by simp) hreg, Bool.eq_iff_iff]
  simp only [List.any_nil, Bool.false_or, List.any_eq_true]
  constructor
  · rintro ⟨d, hd, herr⟩
    exact ⟨_, mem_raised.1 hd, herr⟩
  · rintro ⟨e, he, herr⟩
    cases e with
    | raised d => exact ⟨d, mem_raised.2 he, herr⟩
    | _ => cases herr

theorem run_accounted {c : Catalog Float} {t : Signatures} {p : Program}
    (h : Signatures.collect p = .ok t) (reuse : Bool) :
    (∀ e ∈ (run c t p reuse).log, e.Regular) ∧
      (run c t p reuse).log.any Event.isFailure = (run c t p reuse).log.any Event.isError := by
  by_cases hr : Resolved c t
  · have hrun : Accounted True (start c) (run c t p reuse) False :=
      Walk.program_accounted (fun _ => hr) p (start c)
    obtain ⟨events, hlog, hreg, hev⟩ := hrun
    rw [hlog]
    simpa [start] using ⟨hreg, (hev trivial).1⟩
  · -- some declaration names an unknown unit and is itself an error
    unfold Resolved at hr
    push Not at hr
    obtain ⟨name, signature, hl, hu⟩ := hr
    obtain ⟨f, hf, ho, rfl⟩ := Signatures.declared_of_lookup h hl
    have hrun : Between (start c) (run c t p reuse) Failing :=
      @Walk.program_fails (.ofProgram c t p reuse) p f hf ho hu (start c)
    obtain ⟨events, hlog, hreg, hfail⟩ := hrun
    rw [hlog]
    simpa [start, hfail.1, hfail.2] using hreg

/-- Every visit ends with a note of what it returned. -/
structure VisitsNoted : Prop where
  expr : ∀ ctx e s, ((Walk.expr ctx e).run s).2.log.head? =
    some (.exprVisit e.node ((Walk.expr ctx e).run s).1)
  call : ∀ ctx node callee args values s, ∃ bindings,
    ((Walk.applyCall ctx node callee args values).run s).2.log.head? =
      some (.callVisit node callee bindings ((Walk.applyCall ctx node callee args values).run s).1)
  condition : ∀ ctx e s, ((Walk.condition ctx e).run s).2.log.head? =
    some (.conditionVisit e.node ((Walk.condition ctx e).run s).1)
  stmt : ∀ ctx st s, ((Walk.stmt ctx st).run s).2.log.head? =
    some (.stmtVisit st.node ctx.active s.scopes ((Walk.stmt ctx st).run s).1)
  function : ∀ env f s, ((Walk.function env f).run s).2.log.head? =
    some (.functionVisit f.node ((Walk.function env f).run s).1)

theorem visitsNoted : VisitsNoted :=
  ⟨Walk.head_expr, Walk.head_applyCall, Walk.head_condition, Walk.head_stmt, Walk.head_function⟩

/-- A program is valid exactly when every visit of its walk succeeds, and whichever visit fails, an error
is among the findings. -/
theorem valid_iff_visits_succeed {c : Catalog Float} {p : Program} {a : Analysis}
    (h : analyze c p = .ok a) : VisitsNoted ∧ ∃ t, Signatures.collect p = .ok t ∧
      (a.valid = true ↔ ∀ e ∈ (run c t p true).log, e.isFailure = false) ∧
      ∀ e ∈ (run c t p true).log, e.isFailure = true → ∃ d ∈ a.diagnostics, d.isError = true := by
  obtain ⟨t, ht, ha⟩ := Fallible.bind_eq_ok.1 h
  cases ha
  obtain ⟨hreg, hsame⟩ := run_accounted (c := c) ht true
  have herr := (any_isError_ofLog hreg).trans hsame.symm
  refine ⟨visitsNoted, t, ht, ?_, ?_⟩
  · rw [valid, herr]
    simp
  · intro e he hfail
    have hany : (run c t p true).log.any Event.isFailure = true := List.any_eq_true.2 ⟨e, he, hfail⟩
    exact List.any_eq_true.1 (herr.trans hany)

/-- The entry point calls a function whose parameter has an unknown unit. The call fails silently; the
error is found later, at the declaration. -/
def strayCall : Program where
  items := [
    .function ⟨⟨0, .none⟩, "main", [], none,
      .mk [.expr ⟨1, .none⟩ (.call ⟨2, .none⟩ "walk" [.number ⟨3, .none⟩ 1 none])] .none, true⟩,
    .function ⟨⟨4, .none⟩, "walk", [⟨"way", .unit "furlong", .none⟩], none, .mk [] .none, false⟩]

theorem strayCall_reported : ∃ c a, Catalog.build ({} : Description Float) = .ok c ∧
    analyze c strayCall = .ok a ∧ a.valid = false ∧ ∃ d ∈ a.diagnostics, d.isError = true := by
  have hevals : (Catalog.build ({} : Description Float)).toOption.bind (fun c =>
      (Signatures.collect strayCall).toOption.map fun t =>
        (run c t strayCall true).log.any Event.isFailure) = some true := by decide +kernel
  obtain ⟨c, hc, hevals⟩ := Option.bind_eq_some_iff.1 hevals
  obtain ⟨t, ht, hevals⟩ := Option.map_eq_some_iff.1 hevals
  obtain ⟨e, he, hfail⟩ := List.any_eq_true.1 hevals
  have hc : Catalog.build ({} : Description Float) = .ok c := Fallible.toOption_eq_some.1 hc
  have ht : Signatures.collect strayCall = .ok t := Fallible.toOption_eq_some.1 ht
  have ha : analyze c strayCall = .ok (.ofLog (run c t strayCall true).log) :=
    Fallible.bind_eq_ok.2 ⟨t, ht, rfl⟩
  obtain ⟨-, t', ht', hvalid, hfound⟩ := valid_iff_visits_succeed ha
  cases ht.symm.trans ht'
  refine ⟨c, _, hc, ha, ?_, hfound e he hfail⟩
  rw [← Bool.not_eq_true, hvalid]
  intro succeed
  simp [succeed e he] at hfail

end Metrology.Analysis

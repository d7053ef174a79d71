import Mathlib.Data.List.Find
import Mathlib.Data.List.Perm.Basic
import Metrology.Proofs.Analysis.Lockstep
import Metrology.Proofs.Analysis.Verdict

/-! The order of functions. Declarations other than the entry point only say what is wrong with them, and walks
do not look at what was said; so functions may stand in any order and anywhere among the global statements. The
findings come in another order then, but they are the same, and so are all values. -/
namespace Metrology

namespace Signatures

variable {p : Program} {t : Signatures}

theorem owns_of_nodup (h : collect p = .ok t) (hnames : (p.functions.map (·.name)).Nodup) {f : FunctionDecl}
    (hf : f ∈ p.functions) : t.owns f = true := by
  rw [owns, lookup_collect h, find?_key_of_mem (·.name) hf hnames]
  simp [Signature.ofDecl, FunctionDecl.id]

end Signatures

namespace Analysis

/-! ### What is found, in any order -/

theorem eq_of_repeats {d d' : Diagnostic} (hd : (Event.raised d).Regular) (hd' : (Event.raised d').Regular)
    (h : d.repeats d' = true) : d = d' := by
  have herror := isError_of_repeats hd hd' h
  obtain ⟨kind, severity, span, message⟩ := d
  obtain ⟨kind', severity', span', message'⟩ := d'
  simp only [Diagnostic.repeats, Bool.and_eq_true, decide_eq_true_eq] at h
  obtain ⟨⟨rfl, rfl⟩, rfl⟩ := h
  cases severity <;> cases severity' <;> first | rfl | cases herror

theorem mem_of_mem_reports {ds found : List Diagnostic} {d : Diagnostic} (h : d ∈ ds.foldl report found) :
    d ∈ found ∨ d ∈ ds := by
  induction ds generalizing found with
  | nil => exact Or.inl h
  | cons e ds ih =>
    rcases ih h with h | h
    · unfold report at h
      split at h
      · exact Or.inl h
      · rcases List.mem_append.1 h with h | h
        · exact Or.inl h
        · exact Or.inr (List.mem_singleton.1 h ▸ List.mem_cons_self)
    · exact Or.inr (List.mem_cons_of_mem e h)

theorem nodup_reports {ds found : List Diagnostic} (h : found.Nodup) : (ds.foldl report found).Nodup := by
  induction ds generalizing found with
  | nil => exact h
  | cons d ds ih =>
    refine ih ?_
    unfold report
    split
    · exact h
    · next hnew =>
      refine List.nodup_append'.2 ⟨h, List.nodup_singleton d, ?_⟩
      intro e he hd
      rw [List.mem_singleton.1 hd] at he
      exact hnew (List.any_eq_true.2 ⟨d, he, repeats_self d⟩)

theorem mem_diagnostics_ofLog {log : List Event} (h : ∀ e ∈ log, e.Regular) {d : Diagnostic} :
    d ∈ (ofLog log).diagnostics ↔ .raised d ∈ log := by
  have raised_of_mem {d : Diagnostic} (hd : d ∈ (ofLog log).diagnostics) : .raised d ∈ log := by
    rcases mem_of_mem_reports hd with hd | hd
    · cases hd
    · exact mem_raised.1 hd
  refine ⟨raised_of_mem, fun hd => ?_⟩
  have hfound : (ofLog log).diagnostics.any d.repeats = true :=
    any_repeats_reports (Or.inl (mem_raised.2 hd))
  obtain ⟨d', hd', hrepeats⟩ := List.any_eq_true.1 hfound
  rwa [eq_of_repeats (h _ hd) (h _ (raised_of_mem hd')) hrepeats]

theorem diagnostics_perm_of_perm {log log' : List Event} (h : ∀ e ∈ log, e.Regular) (hperm : log'.Perm log) :
    (ofLog log').diagnostics.Perm (ofLog log).diagnostics := by
  have h' : ∀ e ∈ log', e.Regular := fun e he => h e (hperm.mem_iff.1 he)
  refine (List.perm_ext_iff_of_nodup (nodup_reports List.nodup_nil) (nodup_reports List.nodup_nil)).2 ?_
  intro d
  exact (mem_diagnostics_ofLog h').trans (hperm.mem_iff.trans (mem_diagnostics_ofLog h).symm)

/-! ### Walks that only say something -/

/-- A state that differs from another in its log only, which holds the same values and some more of other
events, in any order. -/
structure Ahead (extra : List Event) (s s' : State) : Prop where
  same : s' = { s with log := s'.log }
  log : s'.log.Perm (extra ++ s.log)
  values : recorded s'.log = recorded s.log

namespace Ahead

variable {extra : List Event} {s s' s'' : State}

theorem refl (s : State) : Ahead [] s s := ⟨rfl, .refl _, rfl⟩

theorem trans (h : Ahead [] s s') (h' : Ahead [] s' s'') : Ahead [] s s'' where
  same := h'.same.trans (congrArg (fun u : State => { u with log := s''.log }) h.same)
  log := h'.log.trans h.log
  values := h'.values.trans h.values

theorem symm (h : Ahead [] s s') : Ahead [] s' s where
  same := congrArg (fun u : State => { u with log := s.log }) h.same.symm
  log := h.log.symm
  values := h.values.symm

/-- Two states that are ahead by the same events differ in the order of these at most. -/
theorem meet (h : Ahead extra s s') (h' : Ahead extra s s'') : Ahead [] s' s'' where
  same := h'.same.trans (congrArg (fun u : State => { u with log := s''.log }) h.same.symm)
  log := h'.log.trans h.log.symm
  values := h'.values.trans h.values.symm

end Ahead

theorem twins_ahead (extra : List Event) : Twins (Ahead extra) where
  agree h := ⟨_, h.same⟩
  note {s s'} h e := by
    have hsame := congrArg (fun u : State => { u with log := e :: s'.log }) h.same
    refine ⟨hsame, (h.log.cons e).trans List.perm_middle.symm, ?_⟩
    have hcons (log : List Event) : recorded (e :: log) = recorded log ++ recorded [e] :=
      collect_append _ [e] log
    change recorded (e :: s'.log) = recorded (e :: s.log)
    rw [hcons, hcons s.log, h.values]
  update h _ _ _ _ := ⟨rfl, h.log, h.values⟩

/-- A walk that only says something, the same wherever it is made. -/
def Tells {β : Type} (x : Walk β) : Prop :=
  ∃ b extra, recorded extra = [] ∧ ∀ s, x.run s = (b, { s with log := extra ++ s.log })

namespace Tells

variable {β γ : Type} {x : Walk β}

theorem pure (b : β) : Tells (Pure.pure b : Walk β) := ⟨b, [], rfl, fun _ => rfl⟩

theorem bind {f : β → Walk γ} (hx : Tells x) (hf : ∀ b, Tells (f b)) : Tells (x >>= f) := by
  obtain ⟨b, extra, hvalues, hrun⟩ := hx
  obtain ⟨r, extra', hvalues', hrun'⟩ := hf b
  refine ⟨r, extra' ++ extra, ?_, fun s => ?_⟩
  · rw [recorded, collect_append, ← recorded, hvalues, hvalues']
    rfl
  · rw [Walk.run_bind, hrun, hrun', List.append_assoc]

theorem ahead (hx : Tells x) : ∃ extra, ∀ s, Ahead extra s (x.run s).2 := by
  obtain ⟨b, extra, hvalues, hrun⟩ := hx
  refine ⟨extra, fun s => ?_⟩
  have hlog : recorded (extra ++ s.log) = recorded s.log := by
    rw [recorded, collect_append, ← recorded, hvalues, List.append_nil]
  rw [hrun]
  exact ⟨rfl, .refl _, hlog⟩

theorem lockstep (hx : Tells x) {R : State → State → Prop} (hR : Twins R) : Lockstep R x x := by
  obtain ⟨b, extra, -, hrun⟩ := hx
  intro s s' h
  rw [hrun, hrun]
  refine ⟨rfl, trivial, ?_⟩
  clear hrun
  induction extra with
  | nil => exact h
  | cons e extra ih => exact hR.note ih e

end Tells

namespace Walk

section Tells

variable (env : Setting)

theorem raise_tells (p : Problem) (span : Span) : Tells (raise p span) :=
  ⟨⟨⟩, [.raised (p.toDiagnostic span)], rfl, fun _ => rfl⟩

theorem refuse_tells (p : Problem) (span : Span) : Tells (do raise p span; return false) :=
  (raise_tells p span).bind fun _ => .pure false

theorem functionName_tells (f : FunctionDecl) : Tells (functionName env f) := by
  unfold functionName
  split
  · exact refuse_tells _ _
  · exact .pure true

theorem paramName_tells (seen : List String) (p : Param) : Tells (paramName env seen p) := by
  unfold paramName
  split
  · exact refuse_tells _ _
  · split
    · exact refuse_tells _ _
    · exact .pure true

theorem param_tells (seen : List String) (p : Param) : Tells (param env seen p) := by
  refine (paramName_tells env seen p).bind fun named => ?_
  split
  · exact refuse_tells _ _
  · exact .pure named

theorem params_tells (seen : List String) (ps : List Param) : Tells (params env seen ps) := by
  induction ps generalizing seen with
  | nil => exact .pure true
  | cons p ps ih => exact (param_tells env seen p).bind fun _ => (ih _).bind fun _ => .pure _

theorem returned_tells (f : FunctionDecl) : Tells (returned env f) := by
  unfold returned
  split
  · exact .pure true
  · split
    · exact refuse_tells _ _
    · exact .pure true

theorem header_tells (f : FunctionDecl) : Tells (header env f) :=
  (functionName_tells env f).bind fun _ => (params_tells env [] f.params).bind fun _ =>
    (returned_tells env f).bind fun _ => .pure _

/-- Of functions other than the entry point only the headers are looked at. -/
theorem function_tells {f : FunctionDecl} (hentry : f.isEntry = false) : Tells (function env f) := by
  have visited (ok : Bool) : Tells (do note (.functionVisit f.node ok); return ok) :=
    ⟨ok, [.functionVisit f.node ok], rfl, fun _ => rfl⟩
  unfold function
  split
  · rw [hentry]
    exact (header_tells env f).bind visited
  · exact (raise_tells _ _).bind fun _ => visited false

end Tells

section Lockstep

variable {R : State → State → Prop} (hR : Twins R) {env env' : Setting}

theorem header_congr (hcatalog : env'.catalog = env.catalog) (f : FunctionDecl) :
    header env' f = header env f := by
  have hparams (seen : List String) (ps : List Param) : params env' seen ps = params env seen ps := by
    induction ps generalizing seen with
    | nil => rfl
    | cons p ps ih => simp only [params, param, paramName, hcatalog, ih]
  simp only [header, functionName, returned, hcatalog, hparams]

include hR

theorem function_lockstep (h : env.Alike env') (f : FunctionDecl) :
    Lockstep R (function env f) (function env' f) := by
  have visited (ok : Bool) : Lockstep R (do note (.functionVisit f.node ok); return ok)
      (do note (.functionVisit f.node ok); return ok) := fun _ _ hs => ⟨rfl, trivial, hR.note hs _⟩
  unfold function
  rw [h.owns_eq, header_congr h.catalog, h.catalog]
  split
  · refine ((header_tells env f).lockstep hR).bind fun ok => ?_
    split
    · have hbody := body_lockstep hR (around_alike hR h [f.id]) f
      exact (calling_lockstep hR f.id (hbody _)).discard.bind fun _ => visited ok
    · exact visited ok
  · exact ((raise_tells _ _).lockstep hR).bind fun _ => visited false

theorem functions_lockstep (h : env.Alike env') (fs : List FunctionDecl) :
    Lockstep R (functions env fs) (functions env' fs) := by
  induction fs with
  | nil => exact .pure _
  | cons f fs ih => exact (function_lockstep hR h f).discard.bind fun _ => ih

end Lockstep

section Perm

variable {env : Setting}

/-- Visits of two declarations can be exchanged where one of them only says something. -/
theorem functions_swap {f g : FunctionDecl} (hentry : f.isEntry = false) (s : State) :
    Ahead [] ((functions env [f, g]).run s).2 ((functions env [g, f]).run s).2 := by
  obtain ⟨extra, hahead⟩ := (function_tells env hentry).ahead
  have hlater := function_lockstep (twins_ahead extra) (.refl env) g _ _ (hahead s)
  exact hlater.2.2.meet (hahead ((function env g).run s).2)

/-- Declarations with at most one entry point among them can be visited in any order. -/
theorem functions_ahead {fs gs : List FunctionDecl} (h : fs.Perm gs) (honce : fs.countP (·.isEntry) ≤ 1)
    {s s' : State} (hs : Ahead [] s s') :
    Ahead [] ((functions env fs).run s).2 ((functions env gs).run s').2 := by
  have inOrder (fs : List FunctionDecl) {s s' : State} (hs : Ahead [] s s') :
      Ahead [] ((functions env fs).run s).2 ((functions env fs).run s').2 :=
    (functions_lockstep (twins_ahead []) (.refl env) fs _ _ hs).2.2
  induction h generalizing s s' with
  | nil => exact hs
  | cons f _ ih =>
    rw [List.countP_cons] at honce
    exact ih (by omega) (inOrder [f] hs)
  | swap f g fs =>
    have hfirst : Ahead [] ((functions env [g, f]).run s').2 ((functions env [f, g]).run s').2 := by
      cases hf : f.isEntry with
      | false => exact (functions_swap hf s').symm
      | true =>
        have hg : g.isEntry = false := by
          rw [← Bool.not_eq_true]
          intro hg
          simp [hf, hg] at honce
        exact functions_swap hg s'
    exact inOrder fs ((inOrder [g, f] hs).trans hfirst)
  | trans h₁ _ ih₁ ih₂ => exact (ih₁ honce hs).trans (ih₂ (h₁.countP_eq _ ▸ honce) (.refl s'))

end Perm

end Walk

/-! ### Programs -/

theorem find?_key_of_perm {α κ : Type} [DecidableEq κ] (key : α → κ) {xs ys : List α} (h : ys.Perm xs)
    (hkeys : (xs.map key).Nodup) (k : κ) : ys.find? (key · = k) = xs.find? (key · = k) := by
  refine List.find?_eq_find?_of_perm h ?_
  rintro x ⟨hx, hxk⟩ y ⟨hy, hyk⟩
  have hkey : key x = key y := (of_decide_eq_true hxk).trans (of_decide_eq_true hyk).symm
  exact List.inj_on_of_nodup_map hkeys (h.mem_iff.1 hx) (h.mem_iff.1 hy) hkey

section Program

variable {p p' : Program} {t t' : Signatures}

theorem functions_ofProgram (c : Catalog Float) (ht : Signatures.collect p = .ok t)
    (hnames : (p.functions.map (·.name)).Nodup) (reuse : Bool) :
    (Setting.ofProgram c t p reuse).functions = p.functions :=
  List.filter_eq_self.2 fun _ hf => Signatures.owns_of_nodup ht hnames hf

theorem alike_of_perm (c : Catalog Float) (ht : Signatures.collect p = .ok t)
    (ht' : Signatures.collect p' = .ok t') (hperm : p'.functions.Perm p.functions)
    (hnames : (p.functions.map (·.name)).Nodup) (hids : (p.functions.map (·.id)).Nodup) (reuse : Bool) :
    (Setting.ofProgram c t p reuse).Alike (.ofProgram c t' p' reuse) where
  catalog := rfl
  reuse := rfl
  lookup name := by
    change t'.lookup name = t.lookup name
    rw [Signatures.lookup_collect ht, Signatures.lookup_collect ht',
      find?_key_of_perm (·.name) hperm hnames name]
  function? id := by
    have hnames' : (p'.functions.map (·.name)).Nodup := (hperm.map _).nodup_iff.2 hnames
    have hids' : (p.functions.reverse.map (·.id)).Nodup := by
      rwa [List.map_reverse, List.nodup_reverse]
    have hreverse := (List.reverse_perm _).trans (hperm.trans (List.reverse_perm _).symm)
    rw [Setting.function?, Setting.function?, functions_ofProgram c ht hnames,
      functions_ofProgram c ht' hnames', find?_key_of_perm (·.id) hreverse hids' id]

/-- Walks over programs that differ in the places of their functions end in the same state, but for the order
of what was said. -/
theorem run_ahead (c : Catalog Float) (ht : Signatures.collect p = .ok t)
    (ht' : Signatures.collect p' = .ok t') (hglobals : p'.globals = p.globals)
    (hperm : p'.functions.Perm p.functions) (hnames : (p.functions.map (·.name)).Nodup)
    (hids : (p.functions.map (·.id)).Nodup) (honce : p.functions.countP (·.isEntry) ≤ 1) (reuse : Bool) :
    Ahead [] (run c t p reuse) (run c t' p' reuse) := by
  have halike := alike_of_perm c ht ht' hperm hnames hids reuse
  have hR := twins_ahead []
  have hcontext := Walk.around_alike hR halike []
  obtain ⟨-, -, hafter⟩ := Walk.stmts_lockstep hcontext 0 p.globals _ _ (.refl (start c))
  obtain ⟨-, -, hsame⟩ := Walk.functions_lockstep hR halike p.functions _ _ hafter
  rw [run, run, Walk.program, Walk.program, hglobals]
  exact hsame.trans (Walk.functions_ahead hperm.symm honce (.refl _))

/-- Functions may stand in any order and anywhere among the global statements: a check finds the same, and the
same values. -/
theorem order_irrelevant (c : Catalog Float) (hglobals : p'.globals = p.globals)
    (hperm : p'.functions.Perm p.functions) (hnames : (p.functions.map (·.name)).Nodup)
    (hids : (p.functions.map (·.id)).Nodup) (hentry : p.functions.countP (·.isEntry) = 1) :
    ∃ a a', analyze c p = .ok a ∧ analyze c p' = .ok a' ∧ a'.valid = a.valid ∧
      a'.results = a.results ∧ a'.diagnostics.Perm a.diagnostics := by
  obtain ⟨t, ht⟩ := Signatures.collect_of_entry hentry
  obtain ⟨t', ht'⟩ := Signatures.collect_of_entry ((hperm.countP_eq _).trans hentry)
  have hahead := run_ahead c ht ht' hglobals hperm hnames hids hentry.le true
  obtain ⟨hregular, -⟩ := run_accounted (c := c) ht true
  have hfindings := diagnostics_perm_of_perm hregular hahead.log
  refine ⟨_, _, Fallible.bind_eq_ok.2 ⟨t, ht, rfl⟩, Fallible.bind_eq_ok.2 ⟨t', ht', rfl⟩, ?_, ?_, hfindings⟩
  · rw [valid, valid, hfindings.any_eq]
  · rw [ofLog, ofLog, hahead.values]

end Program

/-- The entry point calls a function that is declared later. It uses a name that is not declared, and another
function has a parameter of an unknown unit. -/
def gathered : Program where
  items := [
    .global (.declare ⟨0, .none⟩ .number "step" (some (.number ⟨1, .none⟩ 2 none))),
    .function ⟨⟨2, .none⟩, "main", [], none,
      .mk [.print ⟨3, .none⟩ (.call ⟨4, .none⟩ "twice" [.var ⟨5, .none⟩ "step"]),
        .print ⟨6, .none⟩ (.var ⟨7, .none⟩ "stride")] .none, true⟩,
    .function ⟨⟨8, .none⟩, "twice", [⟨"x", .number, .none⟩], some .number,
      .mk [.ret ⟨9, .none⟩ (some (.binary ⟨10, .none⟩ .add (.var ⟨11, .none⟩ "x") (.var ⟨12, .none⟩ "x")))]
        .none, false⟩,
    .function ⟨⟨13, .none⟩, "walk", [⟨"way", .unit "furlong", .none⟩], none, .mk [] .none, false⟩]

def scattered : Program where
  items := (gathered.functions.map .function).reverse ++ gathered.globals.map .global

theorem scattered_like_gathered : ∃ c a a', Catalog.build ({} : Description Float) = .ok c ∧
    analyze c gathered = .ok a ∧ analyze c scattered = .ok a' ∧ a'.valid = a.valid ∧
      a'.results = a.results ∧ a'.diagnostics.Perm a.diagnostics := by
  have hbuilds : (Catalog.build ({} : Description Float)).toOption.isSome = true := by decide +kernel
  obtain ⟨c, hc⟩ := Option.isSome_iff_exists.1 hbuilds
  have hperm : scattered.functions.Perm gathered.functions := List.reverse_perm gathered.functions
  obtain ⟨a, a', h⟩ := order_irrelevant c (show scattered.globals = gathered.globals from rfl) hperm
    (by decide +kernel) (by decide +kernel) (by decide +kernel)
  exact ⟨c, a, a', Fallible.toOption_eq_some.1 hc, h⟩

end Analysis

end Metrology

import Metrology.Proofs.Analysis.Instances
import Metrology.Proofs.Analysis.Reuse
import Metrology.Proofs.Catalog.Rendering

/-! Reuse cannot be seen in what a check finds, nor in the values of what runs without a call. -/
namespace Metrology.Analysis

open Catalog

variable {desc : Description Float} {c : Catalog Float} {t : Signatures} {p : Program}

theorem Pairing.housed {A : NodeId → Prop} {L : State → State → Prop} (hL : Pairing A L) (G : Scope Float) :
    Noted A (Housed c G L) where
  raised h d := ⟨h.home.of_sameScopes rfl, h.home'.of_sameScopes rfl, hL.raised h.history d⟩
  recorded h id v hid :=
    ⟨h.home.of_sameScopes rfl, h.home'.of_sameScopes rfl, hL.recorded h.history id v hid⟩
  silent h e e' he he' :=
    ⟨h.home.of_sameScopes rfl, h.home'.of_sameScopes rfl, hL.silent h.history e e' he he'⟩

/-- A walk that keeps results and one that does not, with the same to show. -/
structure Level (c : Catalog Float) (t : Signatures) (p : Program) (G : Scope Float) (s s' : State) : Prop where
  trusted : Trusted c t p G s
  shows : ShowsSame p.outerIds s.log s'.log

theorem pairing_level (G : Scope Float) : Pairing (fun _ => True) (Level c t p G) where
  raised h d := ⟨h.trusted.note _, h.shows.append [.raised d]⟩
  recorded h id v _ := ⟨h.trusted.note _, h.shows.append [.recorded id v]⟩
  silent h _ _ he he' := ⟨h.trusted.note _, h.shows.silent he he'⟩
  indifferent h _ _ _ _ _ _ := ⟨h.trusted.mono rfl fun _ hmem => hmem, h.shows⟩

structure LevelAtStart (p : Program) (s s' : State) : Prop where
  instances : s.instances = []
  shows : ShowsSame p.outerIds s.log s'.log

theorem pairing_levelAtStart : Pairing (fun _ => True) (LevelAtStart p) where
  raised h d := ⟨h.instances, h.shows.append [.raised d]⟩
  recorded h id v _ := ⟨h.instances, h.shows.append [.recorded id v]⟩
  silent h _ _ he he' := ⟨h.instances, h.shows.silent he he'⟩
  indifferent h _ _ _ _ _ _ := ⟨h.instances, h.shows⟩

namespace Walk

section Header

variable {A : NodeId → Prop} {R : State → State → Prop} (hR : Noted A R) {env env' : Setting}
  (hcatalog : env'.catalog = env.catalog)

include hR hcatalog

theorem functionName_inStep (f : FunctionDecl) :
    InStep R (fun _ => True) (functionName env f) (functionName env' f) := by
  unfold functionName
  rw [hcatalog]
  split
  · exact (raise_inStep hR _ _).bind fun _ _ => .pure trivial
  · exact .pure trivial

theorem paramName_inStep (seen : List String) (q : Param) :
    InStep R (fun _ => True) (paramName env seen q) (paramName env' seen q) := by
  unfold paramName
  rw [hcatalog]
  split
  · exact (raise_inStep hR _ _).bind fun _ _ => .pure trivial
  · split
    · exact (raise_inStep hR _ _).bind fun _ _ => .pure trivial
    · exact .pure trivial

theorem param_inStep (seen : List String) (q : Param) :
    InStep R (fun _ => True) (param env seen q) (param env' seen q) := by
  refine (paramName_inStep hR hcatalog seen q).bind fun _ _ => ?_
  rw [hcatalog]
  split
  · exact (raise_inStep hR _ _).bind fun _ _ => .pure trivial
  · exact .pure trivial

theorem params_inStep (seen : List String) (qs : List Param) :
    InStep R (fun _ => True) (params env seen qs) (params env' seen qs) := by
  induction qs generalizing seen with
  | nil => exact .pure trivial
  | cons q qs ih =>
    refine (param_inStep hR hcatalog seen q).bind fun _ _ => ?_
    rw [hcatalog]
    exact (ih _).bind fun _ _ => .pure trivial

theorem returned_inStep (f : FunctionDecl) :
    InStep R (fun _ => True) (returned env f) (returned env' f) := by
  unfold returned
  split
  · exact .pure trivial
  · rw [hcatalog]
    split
    · exact (raise_inStep hR _ _).bind fun _ _ => .pure trivial
    · exact .pure trivial

theorem header_inStep (f : FunctionDecl) :
    InStep R (fun _ => True) (header env f) (header env' f) := by
  refine (functionName_inStep hR hcatalog f).bind fun _ _ => ?_
  refine (params_inStep hR hcatalog [] f.params).bind fun _ _ => ?_
  exact (returned_inStep hR hcatalog f).bind fun _ _ => .pure trivial

theorem function_inStep (hsignatures : env'.signatures = env.signatures) (f : FunctionDecl)
    {P : Option (Value Float) → Prop}
    (hbody : f.isEntry = true →
      let bindings := f.params.map fun q => (q.name, placeholderFor env.catalog q.type)
      InStep R P (calling f.id (body (env.around [f.id]) f bindings))
        (calling f.id (body (env'.around [f.id]) f bindings))) :
    InStep R (fun _ => True) (function env f) (function env' f) := by
  have visited (ok : Bool) : InStep R (fun _ => True)
      (do note (.functionVisit f.node ok); return ok) (do note (.functionVisit f.node ok); return ok) :=
    (note_inStep hR _ _ rfl rfl).bind fun _ _ => .pure trivial
  have hheader := header_inStep hR hcatalog f
  unfold function
  rw [hcatalog, hsignatures]
  dsimp only
  split
  · cases hentry : f.isEntry with
    | false => exact hheader.bind fun ok _ => visited ok
    | true => exact hheader.bind fun ok _ => (hbody hentry).bind fun _ _ => visited ok
  · exact (raise_inStep hR _ _).bind fun _ _ => visited false

end Header

section Program

variable (hc : build desc = .ok c) (apart : c.NamesApart) (ht : Signatures.collect p = .ok t)
  (hids : p.ids.Nodup) (acyclic : p.Acyclic) {G : Scope Float} (hG : G.bindings.Holds c.Covers)

include hc apart ht hids acyclic hG

theorem enter_level {active : List NodeId} {f : FunctionDecl} {bindings : Bindings Float}
    (due : Due c t p active f bindings) :
    InStep (Housed c G (Level c t p G)) c.CoversAny (enter (.ofProgram c t p true) active f.id bindings)
      (enter (.ofProgram c t p false) active f.id bindings) := by
  intro u u' hu
  have replayed := enter_replayed hc apart ht hids acyclic hG rfl due hu.home hu.history.trusted
  obtain ⟨hresult, _⟩ := replayed.settled f active bindings u' rfl due rfl hu.home'
  refine ⟨hresult, replayed.covered, hu.home.of_sameScopes (enter_scopes _ _ _ _ u),
    hu.home'.of_sameScopes (enter_scopes _ _ _ _ u'), replayed.trusted, ?_⟩
  exact replayed.shows f active bindings u' rfl due rfl hu.home' hu.history.shows

theorem entry_level {f : FunctionDecl} (hf : f ∈ p.functions) (hentry : f.isEntry = true) :
    let bindings := f.params.map fun q => (q.name, placeholderFor c q.type)
    InStep (Housed c G (Level c t p G)) c.CoversAny
      (calling f.id (body ((Setting.ofProgram c t p true).around [f.id]) f bindings))
      (calling f.id (body ((Setting.ofProgram c t p false).around [f.id]) f bindings)) := by
  have hinner (callee : String) (hcalls : p.Calls f.name callee) : p.Inner callee :=
    ⟨f, hf, hentry, .single hcalls⟩
  have hleads : p.Leads [] f.name := nofun
  refine body_inStep ht hids hf hinner hleads hleads (pairing_level G)
    (fun g args due _ => enter_level hc apart ht hids acyclic hG due) hc hG (fun _ _ => trivial) ?_ rfl
  intro b hb
  obtain ⟨q, _, rfl⟩ := List.mem_map.1 hb
  exact covers_placeholderFor hc q.type

theorem functions_level {fs : List FunctionDecl} (hfs : ∀ f ∈ fs, f ∈ p.functions) :
    InStep (Housed c G (Level c t p G)) (fun _ => True) (functions (.ofProgram c t p true) fs)
      (functions (.ofProgram c t p false) fs) := by
  induction fs with
  | nil => exact .pure trivial
  | cons f fs ih =>
    obtain ⟨hf, hrest⟩ := List.forall_mem_cons.1 hfs
    have hcatalog : (Setting.ofProgram c t p false).catalog = (Setting.ofProgram c t p true).catalog := rfl
    have hfunction := function_inStep ((pairing_level G).housed G) hcatalog rfl f
      (entry_level hc apart ht hids acyclic hG hf)
    exact hfunction.bind fun _ _ => ih hrest

omit apart ht hids acyclic hG in
theorem globals_level (hglobals : ∀ part ∈ Stmt.partsOfList p.globals, part.callee = none) :
    let s := ((stmts ((Setting.ofProgram c t p true).around []) p.globals).run (start c)).2
    let s' := ((stmts ((Setting.ofProgram c t p false).around []) p.globals).run (start c)).2
    s.scopes.global.bindings.Holds c.Covers ∧
      Housed c s.scopes.global (Level c t p s.scopes.global) s s' := by
  have tandem : Tandem c [] [] (LevelAtStart p) (fun _ => True) (fun _ => False)
      ((Setting.ofProgram c t p true).around []) ((Setting.ofProgram c t p false).around []) :=
    ⟨pairing_levelAtStart, rfl, rfl, rfl, nofun⟩
  have hparts : Permits (fun _ => True) (fun _ => False) (Stmt.partsOfList p.globals) := by
    intro part hpart
    rw [hglobals part hpart]
    exact ⟨trivial, nofun⟩
  have hstart : Abreast c [] [] (LevelAtStart p) 0 (start c) (start c) :=
    ⟨⟨⟨rfl, rfl⟩, .function rfl nofun⟩, rfl, nofun, rfl, .refl⟩
  obtain ⟨_, _, hend⟩ := stmts_inStep hc tandem p.globals 0 hparts _ _ hstart
  obtain ⟨hglobal, hholds⟩ := hend.scopes.outermost
  obtain ⟨hreserved, hreserved'⟩ := hend.scopes.reserved
  refine ⟨hholds, ⟨rfl, hreserved⟩, ⟨hglobal, hreserved'⟩, ?_, hend.history.shows⟩
  intro key result hkey
  rw [hend.history.instances] at hkey
  cases hkey

end Program

end Walk

/-- The check of a program with every called body walked, whatever is known of it. -/
def analyzeAfresh (c : Catalog Float) (p : Program) : Except EntryError Analysis := do
  let t ← Signatures.collect p
  return .ofLog (run c t p false).log

/-- A check that uses results again and one that does not cannot be told apart by what they find. -/
theorem reuse_transparent {desc : Description Float} {c : Catalog Float} (hc : build desc = .ok c)
    (apart : c.NamesApart) {p : Program} (hids : p.ids.Nodup) (acyclic : p.Acyclic)
    (hglobals : ∀ part ∈ Stmt.partsOfList p.globals, part.callee = none) :
    (∃ e, analyze c p = .error e ∧ analyzeAfresh c p = .error e) ∨
      ∃ a b, analyze c p = .ok a ∧ analyzeAfresh c p = .ok b ∧
        b.valid = a.valid ∧ b.diagnostics = a.diagnostics ∧
        (∀ part ∈ Stmt.partsOfList p.globals, b.result? part.id = a.result? part.id) ∧
        ∀ f ∈ p.functions, f.isEntry = true →
          ∀ part ∈ f.body.parts, b.result? part.id = a.result? part.id := by
  cases ht : Signatures.collect p with
  | error e =>
    refine Or.inl ⟨e, ?_, ?_⟩
    · rw [analyze, ht]
      rfl
    · rw [analyzeAfresh, ht]
      rfl
  | ok t =>
    -- the global scope is fixed by the first phase and stays below all functions in the second
    obtain ⟨hG, hhoused⟩ := Walk.globals_level (t := t) hc hglobals
    have hend := Walk.functions_level hc apart ht hids acyclic hG (fun _ hf => hf) _ _ hhoused
    have hsame : ShowsSame p.outerIds (run c t p true).log (run c t p false).log := hend.2.2.history.shows
    refine Or.inr ⟨.ofLog (run c t p true).log, .ofLog (run c t p false).log, ?_, ?_, ?_, ?_, ?_, ?_⟩
    · rw [analyze, ht]
      rfl
    · rw [analyzeAfresh, ht]
      rfl
    · rw [valid, valid, hsame.diagnostics_eq]
    · exact hsame.diagnostics_eq
    · intro part hpart
      exact hsame.result?_eq (Program.mem_outerIds_of_global hpart)
    · intro f hf hentry part hpart
      exact hsame.result?_eq (Program.mem_outerIds_of_entry hf hentry hpart)

/-- Lengths and plain numbers are handed through two functions. The inner one uses a name that does not
exist. -/
def relaying : Program where
  items := [
    .global (.print ⟨0, .none⟩ (.number ⟨1, .none⟩ 1 (some "m"))),
    .function ⟨⟨2, .none⟩, "inner", [⟨"x", .number, .none⟩], some .number, .mk [
      .print ⟨3, .none⟩ (.var ⟨4, .none⟩ "y"),
      .ret ⟨5, .none⟩ (some (.var ⟨6, .none⟩ "x"))] .none, false⟩,
    .function ⟨⟨7, .none⟩, "outer", [⟨"x", .number, .none⟩], some .number, .mk [
      .ret ⟨8, .none⟩ (some (.call ⟨9, .none⟩ "inner" [.var ⟨10, .none⟩ "x"]))] .none, false⟩,
    .function ⟨⟨11, .none⟩, "main", [], none, .mk [
      .print ⟨12, .none⟩ (.call ⟨13, .none⟩ "outer" [.number ⟨14, .none⟩ 5 (some "m")]),
      .print ⟨15, .none⟩ (.call ⟨16, .none⟩ "outer" [.number ⟨17, .none⟩ 7 (some "m")]),
      .print ⟨18, .none⟩ (.call ⟨19, .none⟩ "inner" [.number ⟨20, .none⟩ 7 none])] .none, true⟩]

theorem relaying_acyclic : relaying.Acyclic := by
  refine Program.acyclic_of_rank (fun name => if name = "main" then 2 else if name = "outer" then 1 else 0) ?_
  decide +kernel

/-- The same error is found and the same length is handed back, with less to do. -/
theorem relaying_reuse_transparent : ∃ c t, build meters = .ok c ∧ Signatures.collect relaying = .ok t ∧
    c.NamesApart ∧ relaying.ids.Nodup ∧ relaying.Acyclic ∧
    (∀ part ∈ Stmt.partsOfList relaying.globals, part.callee = none) ∧
    (run c t relaying true).log.length < (run c t relaying false).log.length ∧
    ∃ a b, analyze c relaying = .ok a ∧ analyzeAfresh c relaying = .ok b ∧
      a.diagnostics.length = 1 ∧ b.valid = a.valid ∧ b.diagnostics = a.diagnostics ∧
      b.result? 13 = a.result? 13 := by
  have hevals : (build meters).toOption.bind (fun c => (Signatures.collect relaying).toOption.bind fun t =>
      (analyze c relaying).toOption.map fun a => (decide (c.PlainNames ∧ Dimension.Legible c.baseSymbols),
        a.diagnostics.length, decide ((run c t relaying true).log.length < (run c t relaying false).log.length))) =
      some (true, 1, true) := by decide +kernel
  obtain ⟨c, hc, hevals⟩ := Option.bind_eq_some_iff.1 hevals
  obtain ⟨t, ht, hevals⟩ := Option.bind_eq_some_iff.1 hevals
  obtain ⟨a, ha, hevals⟩ := Option.map_eq_some_iff.1 hevals
  obtain ⟨hnames, hevals⟩ := Prod.mk.inj hevals
  obtain ⟨hdiagnostics, hless⟩ := Prod.mk.inj hevals
  obtain ⟨plain, legible⟩ := of_decide_eq_true hnames
  rw [Fallible.toOption_eq_some] at hc ht ha
  have apart := namesApart_of_legible hc plain legible
  have hids : relaying.ids.Nodup := by decide +kernel
  have hglobals : ∀ part ∈ Stmt.partsOfList relaying.globals, part.callee = none := by decide +kernel
  refine ⟨c, t, hc, ht, apart, hids, relaying_acyclic, hglobals, of_decide_eq_true hless, ?_⟩
  rcases reuse_transparent hc apart hids relaying_acyclic hglobals with
    ⟨e, he, _⟩ | ⟨a', b, ha', hb, hvalid, hsame, _, hentry⟩
  · rw [ha] at he
    cases he
  · rw [ha] at ha'
    cases ha'
    have hmain : ∃ f ∈ relaying.functions, f.isEntry = true ∧ ⟨13, some "outer"⟩ ∈ f.body.parts := by
      decide +kernel
    obtain ⟨f, hf, hfe, hpart⟩ := hmain
    exact ⟨a, b, ha, hb, hdiagnostics, hvalid, hsame, hentry f hf hfe _ hpart⟩

end Metrology.Analysis

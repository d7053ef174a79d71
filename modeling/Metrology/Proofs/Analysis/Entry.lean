import Metrology.Catalog.Build
import Metrology.Proofs.Analysis.Persistence
import Metrology.Proofs.Analysis.Shown
import Metrology.Proofs.Analysis.Termination
import Metrology.Proofs.Signature

/-! The entry point of a program. It is remembered by its name, and the first declaration of a name counts. So
the tagged declaration is the entry point unless another one before it has its name; then it is not walked at
all, and the clash is reported. -/
namespace Metrology

namespace Analysis

namespace Walk

variable {env : Setting} {f : FunctionDecl}

theorem exists_function_log {fs : List FunctionDecl} (hf : f ∈ fs) (s : State) :
    ∃ s', ∀ e ∈ ((function env f).run s').2.log, e ∈ ((functions env fs).run s).2.log := by
  induction fs generalizing s with
  | nil => cases hf
  | cons g fs ih =>
    rcases List.mem_cons.1 hf with rfl | hf
    · have hbody (g : FunctionDecl) (bindings : Bindings Float) (t : State) :
          VisitsInside [] t ((calling g.id (body (env.around [g.id]) g bindings)).run t).2 :=
        (body_visits (around_visits env [g.id]) g bindings { t with active := g.id :: t.active }).of_cons
      have hrest := functions_tracked (tracked_visits []) env hbody fs ((function env f).run s).2
      exact ⟨s, fun e he => hrest.mem_log he⟩
    · exact ih hf ((function env g).run s).2

theorem function_visits_body (howned : env.signatures.owns f = true) (hentry : f.isEntry = true)
    {st : Stmt} (hst : st ∈ f.body.stmts) (s : State) :
    ∃ scopes ok, .stmtVisit st.node [f.id] scopes ok ∈ ((function env f).run s).2.log := by
  unfold function
  rw [if_pos howned]
  dsimp only
  rw [run_bind, if_pos hentry]
  obtain ⟨scopes, ok, hmem⟩ := stmts_visited env [f.id] f.body.stmts _ hst
  exact ⟨scopes, ok, List.mem_cons_of_mem _ hmem⟩

theorem function_reports_clash (howned : env.signatures.owns f = false) (s : State) :
    .raised ((Problem.duplicateFunction f.name).toDiagnostic f.node.span) ∈
      ((function env f).run s).2.log := by
  unfold function
  rw [howned]
  exact List.mem_cons_of_mem _ List.mem_cons_self

end Walk

namespace Visit

variable {env : Setting} {p : Program}

theorem reached_function {fs : List FunctionDecl} {s : State}
    (h : Reached env p ⟨[], .functions fs, s⟩) {f : FunctionDecl} (hf : f ∈ fs) :
    ∃ s', Reached env p ⟨[], .function f, s'⟩ := by
  induction fs generalizing s with
  | nil => cases hf
  | cons g fs ih =>
    rcases List.mem_cons.1 hf with rfl | hf
    · exact ⟨s, h.part List.mem_cons_self⟩
    · exact ih (h.part (List.mem_cons_of_mem _ List.mem_cons_self)) hf

theorem reached_entry {f : FunctionDecl} (hf : f ∈ p.functions) (howned : env.signatures.owns f = true)
    (hentry : f.isEntry = true) :
    ∃ bindings s, Reached env p ⟨[f.id], .body f bindings, s⟩ := by
  have hroot : Reached env p (root env p) := .root
  obtain ⟨s, hfunction⟩ := reached_function (hroot.part (List.mem_cons_of_mem _ List.mem_cons_self)) hf
  let bindings := f.params.map fun p => (p.name, Walk.placeholderFor env.catalog p.type)
  have hparts : parts env ⟨[], .function f, s⟩ = [⟨[f.id], .body f bindings,
      { ((Walk.header env f).run s).2 with active := f.id :: ((Walk.header env f).run s).2.active }⟩] :=
    if_pos ⟨howned, hentry⟩
  exact ⟨bindings, _, hfunction.part (hparts ▸ List.mem_singleton_self _)⟩

end Visit

section Program

variable {p : Program} {t : Signatures} {f : FunctionDecl}

theorem exists_log_run (c : Catalog Float) (t : Signatures) (hf : f ∈ p.functions) (reuse : Bool) :
    ∃ s, ∀ e ∈ ((Walk.function (.ofProgram c t p reuse) f).run s).2.log, e ∈ (run c t p reuse).log :=
  Walk.exists_function_log hf _

/-- A declaration that does not count for its name is reported. -/
theorem clash_reported (c : Catalog Float) (hf : f ∈ p.functions) (howned : t.owns f = false) (reuse : Bool) :
    ∃ d ∈ (ofLog (run c t p reuse).log).diagnostics,
      ((Problem.duplicateFunction f.name).toDiagnostic f.node.span).repeats d = true := by
  obtain ⟨s, hlog⟩ := exists_log_run c t hf reuse
  have hraised := hlog _ (Walk.function_reports_clash howned s)
  exact List.any_eq_true.1 (any_repeats_reports (Or.inl (mem_raised.2 hraised)))

/-- It is never among the functions being walked, where declarations are told apart. -/
theorem not_active_of_clash (c : Catalog Float) (hids : (p.functions.map (·.id)).Nodup) (hf : f ∈ p.functions)
    (howned : t.owns f = false) {reuse : Bool} {e : Event} (he : e ∈ (run c t p reuse).log)
    {active : List NodeId} (hactive : active ∈ e.active?) : f.id ∉ active := by
  intro hmem
  have hstacks := notesStacks_run c t p reuse e he active hactive
  obtain ⟨g, hg, hid⟩ := List.mem_map.1 (hstacks.declared hmem)
  obtain ⟨hgmem, hgowned⟩ := List.mem_filter.1 hg
  obtain rfl := List.inj_on_of_nodup_map hids hgmem hf hid
  rw [howned] at hgowned
  cases hgowned

/-- Exactly one declaration of a program that can be run is tagged as the entry point. If none before it has its
name, it is the entry point, counts for its name, and its body is walked. If one before it does, the first such
one counts and is taken for the entry point instead: the tagged declaration is reported as a duplicate, and its
body is not walked at any time. -/
theorem entry_point_tagged (c : Catalog Float) (ht : Signatures.collect p = .ok t)
    (hids : (p.functions.map (·.id)).Nodup) :
    ∃ before f after, p.functions = before ++ f :: after ∧ f.isEntry = true ∧
      (∀ g ∈ p.functions, g.isEntry = true → g = f) ∧
      let env := Setting.ofProgram c t p true
      let log := (run c t p true).log
      analyze c p = .ok (.ofLog log) ∧
      ((∀ g ∈ before, g.name ≠ f.name) →
        (∃ signature, t.entryPoint = some signature ∧ signature.isEntry = true ∧ signature = .ofDecl f) ∧
        t.owns f = true ∧
        (∃ bindings s, Visit.Reached env p ⟨[f.id], .body f bindings, s⟩) ∧
        ∀ st ∈ f.body.stmts, ∃ scopes ok, .stmtVisit st.node [f.id] scopes ok ∈ log) ∧
      ((∃ g ∈ before, g.name = f.name) →
        (∃ first, before.find? (·.name = f.name) = some first ∧ first.isEntry = false ∧
          t.entryPoint = some (.ofDecl first)) ∧
        t.owns f = false ∧
        (∃ d ∈ (ofLog log).diagnostics,
          ((Problem.duplicateFunction f.name).toDiagnostic f.node.span).repeats d = true) ∧
        ∀ e ∈ log, ∀ active ∈ e.active?, f.id ∉ active) := by
  obtain ⟨f, hf, hentry⟩ := Signatures.exists_entry ht
  obtain ⟨before, after, hsplit⟩ := List.append_of_mem hf
  refine ⟨before, f, after, hsplit, hentry, fun g hg hge => Signatures.entry_unique ht hg hf hge hentry,
    Fallible.bind_eq_ok.2 ⟨t, ht, rfl⟩, fun hfirst => ?_, fun hclash => ?_⟩
  · have hlookup := Signatures.lookup_of_first ht hsplit hfirst
    have howned : t.owns f = true := by simp [Signatures.owns, hlookup, Signature.ofDecl, FunctionDecl.id]
    have hpoint : t.entryPoint = some (.ofDecl f) := by
      rw [Signatures.entryPoint, Signatures.entry_collect ht hf hentry]
      exact hlookup
    refine ⟨⟨_, hpoint, hentry, rfl⟩, howned, Visit.reached_entry hf howned hentry, fun st hst => ?_⟩
    obtain ⟨s, hlog⟩ := exists_log_run c t hf true
    have hvisits : ∃ scopes ok, .stmtVisit st.node [f.id] scopes ok ∈
        ((Walk.function (.ofProgram c t p true) f).run s).2.log :=
      Walk.function_visits_body howned hentry hst s
    obtain ⟨scopes, ok, hmem⟩ := hvisits
    exact ⟨scopes, ok, hlog _ hmem⟩
  · obtain ⟨first, hfirst, hlookup⟩ := Signatures.lookup_of_clash ht hsplit hclash
    have hbefore := List.mem_of_find?_eq_some hfirst
    have hdistinct : first.id ≠ f.id := by
      rw [hsplit, List.map_append, List.map_cons, List.nodup_append] at hids
      exact hids.2.2 first.id (List.mem_map_of_mem hbefore) f.id List.mem_cons_self
    have hidle : first.isEntry = false := by
      rw [← Bool.not_eq_true]
      intro htagged
      have hmem : first ∈ p.functions := hsplit ▸ List.mem_append_left _ hbefore
      exact hdistinct (congrArg FunctionDecl.id (Signatures.entry_unique ht hmem hf htagged hentry))
    have hpoint : t.entryPoint = some (.ofDecl first) := by
      rw [Signatures.entryPoint, Signatures.entry_collect ht hf hentry]
      exact hlookup
    have hlost : t.owns f = false := by
      rw [Signatures.owns, hlookup]
      exact decide_eq_false hdistinct
    exact ⟨⟨first, hfirst, hidle, hpoint⟩, hlost, clash_reported c hf hlost true,
      fun e he active hactive => not_active_of_clash c hids hf hlost he hactive⟩

end Program

/-- Three functions of one name, of which one is tagged. -/
def namesakes (tagged : NodeId) : Program where
  items := [
    .function ⟨⟨0, .none⟩, "main", [], none, .mk [.print ⟨3, .none⟩ (.flag ⟨4, .none⟩ true)] .none, tagged = 0⟩,
    .function ⟨⟨1, .none⟩, "main", [], none, .mk [.print ⟨5, .none⟩ (.flag ⟨6, .none⟩ true)] .none, tagged = 1⟩,
    .function ⟨⟨2, .none⟩, "main", [], none, .mk [] .none, tagged = 2⟩]

/-- If the first of them is tagged it is walked, and if the second one is it is not. -/
theorem namesakes_tagged : ∃ c t t', Catalog.build ({} : Description Float) = .ok c ∧
    Signatures.collect (namesakes 0) = .ok t ∧ Signatures.collect (namesakes 1) = .ok t' ∧
    (∃ signature, t.entryPoint = some signature ∧ signature.isEntry = true ∧ signature.decl.id = 0) ∧
    (∃ scopes ok, .stmtVisit ⟨3, .none⟩ [0] scopes ok ∈ (run c t (namesakes 0) true).log) ∧
    ∀ e ∈ (run c t' (namesakes 1) true).log, ∀ active ∈ e.active?, 1 ∉ active := by
  have hbuilt : (Catalog.build ({} : Description Float)).toOption.isSome = true := by decide +kernel
  have hcollected : (Signatures.collect (namesakes 0)).toOption.isSome = true ∧
      (Signatures.collect (namesakes 1)).toOption.isSome = true := by decide +kernel
  obtain ⟨c, hc⟩ := Option.isSome_iff_exists.1 hbuilt
  obtain ⟨t, ht⟩ := Option.isSome_iff_exists.1 hcollected.1
  obtain ⟨t', ht'⟩ := Option.isSome_iff_exists.1 hcollected.2
  replace ht := Fallible.toOption_eq_some.1 ht
  replace ht' := Fallible.toOption_eq_some.1 ht'
  obtain ⟨before, f, after, hsplit, -, hunique, -, hwalked, -⟩ := entry_point_tagged c ht (by decide)
  obtain ⟨before', f', after', hsplit', -, hunique', -, -, hclash⟩ := entry_point_tagged c ht' (by decide)
  obtain rfl := hunique _ List.mem_cons_self rfl
  obtain rfl := hunique' _ (List.mem_cons_of_mem _ List.mem_cons_self) rfl
  -- the tagged declaration is found at its place by the identifiers
  have hfirst : before = [] := by
    cases before with
    | nil => rfl
    | cons g rest =>
      have htail : [1, 2] = (rest ++ _ :: after).map FunctionDecl.id :=
        congrArg (fun fs => fs.tail.map FunctionDecl.id) hsplit
      have hmem : 0 ∈ [1, 2] := by
        rw [htail]
        exact List.mem_map_of_mem (List.mem_append_right rest List.mem_cons_self)
      exact absurd hmem (by decide)
  have hsecond : ∃ g ∈ before', g.name = "main" := by
    cases before' with
    | nil =>
      have hhead : some 0 = some 1 := congrArg (fun fs => fs.head?.map FunctionDecl.id) hsplit'
      cases hhead
    | cons g rest =>
      have hhead : some "main" = some g.name := congrArg (fun fs => fs.head?.map FunctionDecl.name) hsplit'
      exact ⟨g, List.mem_cons_self, (Option.some.inj hhead).symm⟩
  obtain ⟨⟨signature, hpoint, htagged, rfl⟩, -, -, hvisits⟩ := hwalked (by simp [hfirst])
  exact ⟨c, t, t', Fallible.toOption_eq_some.1 hc, ht, ht', ⟨_, hpoint, htagged, rfl⟩,
    hvisits _ List.mem_cons_self, (hclash hsecond).2.2.2⟩

/-- The first of them is taken for the entry point though the second one is tagged, which does not count. -/
theorem namesakes_take_over : ∃ t signature, Signatures.collect (namesakes 1) = .ok t ∧
    ((namesakes 1).functions.map (·.id)).Nodup ∧ t.entryPoint = some signature ∧ signature.isEntry = false ∧
    ∃ f ∈ (namesakes 1).functions, f.isEntry = true ∧ signature ≠ .ofDecl f ∧ t.owns f = false := by
  have hevals : (Signatures.collect (namesakes 1)).toOption.bind (fun t => t.entryPoint.map fun signature =>
      (signature.isEntry, (namesakes 1).functions.any fun f =>
        f.isEntry && signature ≠ .ofDecl f && !t.owns f)) = some (false, true) := by decide +kernel
  obtain ⟨t, ht, hevals⟩ := Option.bind_eq_some_iff.1 hevals
  obtain ⟨signature, hsignature, hevals⟩ := Option.map_eq_some_iff.1 hevals
  obtain ⟨huntagged, htagged⟩ := Prod.mk.inj hevals
  obtain ⟨f, hf, hall⟩ := List.any_eq_true.1 htagged
  simp only [ne_eq, decide_not, Bool.and_eq_true, Bool.not_eq_eq_eq_not, Bool.not_true,
    decide_eq_false_iff_not] at hall
  exact ⟨t, signature, Fallible.toOption_eq_some.1 ht, by decide, hsignature, huntagged, f, hf, hall.1.1,
    hall.1.2, hall.2⟩

end Analysis

end Metrology

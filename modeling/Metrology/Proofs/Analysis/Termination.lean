import Mathlib.Data.Set.Finite.Lattice
import Metrology.Proofs.Analysis.Closure
import Metrology.Proofs.Analysis.Inside
import Metrology.Proofs.Fallible

/-! Every walk comes to an end. Visits follow calls out of the tree into other bodies, but no function is
entered while it is being walked: a visit inside another one either has less of the tree before it, or one
function less that can still be entered. -/
namespace Metrology.Analysis

/-! ### Bodies inside bodies -/

/-- Entering functions as the walk does, except that past a number of bodies inside one another anything may
happen. -/
def Walk.enterWithin (env : Setting) (beyond : NodeId → Bindings Float → Walk (Option (Value Float))) :
    Nat → List NodeId → NodeId → Bindings Float → Walk (Option (Value Float))
  | 0, _, id, bindings => beyond id bindings
  | depth + 1, active, id, bindings =>
    match env.function? id with
    | none => return none
    | some f =>
      if id ∈ active then return none
      else
        let ctx := env.context (id :: active) (enterWithin env beyond depth (id :: active))
        remembered env.reuse (instanceKey id bindings) (calling id (body ctx f bindings))

/-- Bodies are never nested deeper than there are functions left to enter. -/
theorem Walk.enterWithin_eq_enter (env : Setting)
    (beyond : NodeId → Bindings Float → Walk (Option (Value Float))) {depth : Nat} {active : List NodeId}
    (h : env.idle active < depth) : enterWithin env beyond depth active = enter env active := by
  induction depth generalizing active with
  | zero => exact absurd h (Nat.not_lt_zero _)
  | succ depth ih =>
    funext id bindings
    rw [enterWithin]
    fun_cases enter env active id bindings with
    | case1 hf => rw [hf]
    | case2 f hf hactive =>
      rw [hf]
      exact if_pos hactive
    | case3 f hf inactive =>
      rw [hf]
      dsimp only
      rw [if_neg inactive, ih (Nat.lt_of_lt_of_le (Setting.idle_cons_lt hf inactive) (Nat.lt_succ_iff.1 h))]

theorem Setting.idle_le (env : Setting) (active : List NodeId) : env.idle active ≤ env.functions.length :=
  List.countP_le_length

/-! ### Functions being walked -/

/-- Functions that can be walked inside one another: distinct ones that count for their names. -/
structure Setting.Stacks (env : Setting) (active : List NodeId) : Prop where
  nodup : active.Nodup
  declared : active ⊆ env.functions.map (·.id)

namespace Setting.Stacks

variable {env : Setting} {active : List NodeId}

theorem nil (env : Setting) : env.Stacks [] := ⟨List.nodup_nil, List.nil_subset _⟩

theorem cons (h : env.Stacks active) {f : FunctionDecl} (hf : f ∈ env.functions) (inactive : f.id ∉ active) :
    env.Stacks (f.id :: active) :=
  ⟨List.nodup_cons.2 ⟨inactive, h.nodup⟩, List.cons_subset.2 ⟨List.mem_map_of_mem hf, h.declared⟩⟩

theorem length_le (h : env.Stacks active) : active.length ≤ env.functions.length := by
  simpa using (h.nodup.subperm h.declared).length_le

end Setting.Stacks

/-- The functions that are being walked when something is noted, where that is noted, too. -/
def Event.active? : Event → Option (List NodeId)
  | stmtVisit _ active _ _ | called _ active => some active
  | _ => none

/-- Whatever was noted of the functions being walked, they stack. -/
def Setting.NotesStacks (env : Setting) (s : State) : Prop :=
  ∀ e ∈ s.log, ∀ active ∈ e.active?, env.Stacks active

def Setting.KeepsStacks (env : Setting) (s t : State) : Prop := env.NotesStacks s → env.NotesStacks t

theorem Setting.KeepsStacks.note {env : Setting} (s : State) {e : Event}
    (he : ∀ active ∈ e.active?, env.Stacks active) : env.KeepsStacks s ((Walk.note e).run s).2 :=
  fun h => List.forall_mem_cons.2 ⟨he, h⟩

theorem tracked_keepsStacks (env : Setting) : Tracked env.KeepsStacks where
  refl _ := id
  trans hst htu := htu ∘ hst
  note s e plain := .note s (by cases e <;> cases plain <;> nofun)

namespace Walk

variable {env : Setting}

theorem indifferent_keepsStacks {ctx : Context} (hactive : env.Stacks ctx.active)
    (henter : ∀ id bindings s, env.KeepsStacks s ((ctx.enter id bindings).run s).2) :
    ctx.Indifferent env.KeepsStacks where
  toTracked := tracked_keepsStacks env
  call node callee args values s := by
    refine applyCall_tracked (tracked_keepsStacks env) henter (fun id t => .note t ?_)
      (fun _ _ t => .note t nofun) args values s
    rintro _ ⟨⟩
    exact hactive
  scopes _ _ := id
  start _ s := .note s nofun
  visit _ _ _ s := .note s (by rintro _ ⟨⟩; exact hactive)
  giveBack node value s := by
    rcases giveBack_cases ctx node value s with ⟨p, _, hrun⟩ | hrun | ⟨name, v, _, hrun⟩
    all_goals rw [hrun]
    · exact raise_tracked (tracked_keepsStacks env) p node.span s
    · exact id
    · exact id

theorem body_keepsStacks {ctx : Context} (hc : ctx.Indifferent env.KeepsStacks) (f : FunctionDecl)
    (bindings : Bindings Float) (s : State) : env.KeepsStacks s ((body ctx f bindings).run s).2 :=
  stmts_indifferent hc f.body.stmts (s.opened ctx.catalog f bindings)

theorem enter_keepsStacks (active : List NodeId) (hactive : env.Stacks active) (id : NodeId)
    (bindings : Bindings Float) (s : State) :
    env.KeepsStacks s ((enter env active id bindings).run s).2 := by
  fun_induction enter env active id bindings generalizing s with
  | case1 active id bindings hf => exact (tracked_keepsStacks env).refl s
  | case2 active id bindings f hf again => exact (tracked_keepsStacks env).refl s
  | case3 active id bindings f hf inactive ctx ih =>
    obtain rfl := Setting.id_of_function? hf
    have hinside : env.Stacks (f.id :: active) := hactive.cons (Setting.mem_of_function? hf) inactive
    have hc : ctx.Indifferent env.KeepsStacks := indifferent_keepsStacks hinside fun id b => ih id b hinside
    rcases remembered_cases env.reuse (instanceKey f.id bindings) (calling f.id (body ctx f bindings)) s with
      hrun | ⟨instances, hrun⟩ <;> rw [hrun]
    · exact (tracked_keepsStacks env).refl s
    · exact body_keepsStacks hc f bindings { s with active := f.id :: s.active }

theorem function_keepsStacks {f : FunctionDecl} (hf : env.signatures.owns f = true → f ∈ env.functions)
    (s : State) : env.KeepsStacks s ((function env f).run s).2 := by
  have hR := tracked_keepsStacks env
  by_cases howned : env.signatures.owns f = true
  · have hactive : env.Stacks [f.id] := (Setting.Stacks.nil env).cons (hf howned) List.not_mem_nil
    have hc : (env.around [f.id]).Indifferent env.KeepsStacks :=
      indifferent_keepsStacks hactive (enter_keepsStacks [f.id] hactive)
    exact function_tracked hR env f
      (fun bindings s => body_keepsStacks hc f bindings { s with active := f.id :: s.active }) s
  · unfold function
    rw [if_neg howned]
    exact hR.trans (raise_tracked hR _ _ s) (.note _ nofun)

theorem functions_keepsStacks {fs : List FunctionDecl}
    (hfs : ∀ f ∈ fs, env.signatures.owns f = true → f ∈ env.functions) (s : State) :
    env.KeepsStacks s ((functions env fs).run s).2 := by
  induction fs generalizing s with
  | nil => exact (tracked_keepsStacks env).refl s
  | cons f fs ih =>
    obtain ⟨hf, hfs⟩ := List.forall_mem_cons.1 hfs
    exact (tracked_keepsStacks env).trans (function_keepsStacks hf s) (ih hfs _)

end Walk

/-- The functions that are walked inside one another during the walk over a program are distinct. -/
theorem notesStacks_run (c : Catalog Float) (t : Signatures) (p : Program) (reuse : Bool) :
    (Setting.ofProgram c t p reuse).NotesStacks (run c t p reuse) := by
  set env := Setting.ofProgram c t p reuse
  have hc : (env.around []).Indifferent env.KeepsStacks :=
    Walk.indifferent_keepsStacks (.nil env) (Walk.enter_keepsStacks [] (.nil env))
  have hglobals := Walk.stmts_indifferent hc p.globals (start c)
  have hfs : ∀ f ∈ p.functions, env.signatures.owns f = true → f ∈ env.functions :=
    fun f hf howned => List.mem_filter.2 ⟨hf, howned⟩
  exact Walk.functions_keepsStacks hfs _ (hglobals nofun)

/-! ### What is left to visit -/

namespace Visit

variable {env : Setting} {v w : Visit}

/-- How much is left at a visit: the functions that can still be entered, and the tree that is still to be
visited. -/
noncomputable def remaining (env : Setting) (v : Visit) : Nat × Nat := (env.idle v.active, v.task.size)

theorem relays_trivial (env : Setting) (v : Visit) : v.Relays env fun _ => True :=
  ⟨fun _ _ _ => trivial, fun _ _ => trivial, fun _ => trivial, fun _ _ => trivial⟩

/-- There is less left at each visit inside another one. -/
theorem descends_of_mem_parts (hw : w ∈ v.parts env) (outermost : v.task.isOuter = true → v.active = []) :
    Prod.Lex (· < ·) (· < ·) (w.remaining env) (v.remaining env) := by
  cases inside_of_mem_parts (relays_trivial env v) trivial hw with
  | around smaller => exact .right _ smaller
  | call node callee args smaller => exact .right _ smaller
  | declared smaller => exact .right _ smaller
  | @opened f bindings task =>
    refine .right _ ?_
    rw [task]
    cases hbody : f.body
    simp +arith [Task.size, part, hbody, Block.stmts]
  | called task entered =>
    obtain ⟨id, f, bindings, hf, inactive, rfl⟩ := exists_of_mem_called entered
    obtain rfl := Setting.id_of_function? hf
    exact .left _ _ (Setting.idle_cons_lt hf inactive)
  | @entry f task owned =>
    have hactive : v.active = [] := outermost (by rw [task]; rfl)
    have hsize : sizeOf f.body < v.task.size := by
      cases f
      simp +arith [task, Task.size]
    have hidle : env.idle [f.id] ≤ env.idle v.active := by
      rw [hactive]
      exact List.countP_mono_left fun g _ _ => by simp
    rcases Nat.lt_or_eq_of_le hidle with hless | hsame
    · exact .left _ _ hless
    · rw [remaining, hsame]
      exact .right _ hsize

structure Orderly (env : Setting) (p : Program) (v : Visit) : Prop where
  stacked : env.Stacks v.active
  outermost : v.task.isOuter = true → v.active = []
  declarations : v.task.declarations ⊆ p.functions

theorem Orderly.part {c : Catalog Float} {t : Signatures} {p : Program} {reuse : Bool}
    (hv : v.Orderly (.ofProgram c t p reuse) p) (hw : w ∈ v.parts (.ofProgram c t p reuse)) :
    w.Orderly (.ofProgram c t p reuse) p := by
  cases inside_of_mem_parts (relays_trivial _ v) trivial hw with
  | @around task before smaller plain =>
    refine ⟨hv.stacked, fun outer => ?_, ?_⟩
    · exact absurd ((Task.isOuter_of_isPlain plain).symm.trans outer) Bool.false_ne_true
    · exact (Task.declarations_of_isPlain plain).symm ▸ List.nil_subset _
  | call | opened => exact ⟨hv.stacked, nofun, List.nil_subset _⟩
  | called task entered =>
    obtain ⟨id, f, bindings, hf, inactive, rfl⟩ := exists_of_mem_called entered
    obtain rfl := Setting.id_of_function? hf
    exact ⟨hv.stacked.cons (Setting.mem_of_function? hf) inactive, nofun, List.nil_subset _⟩
  | declared _ _ outer declarations =>
    exact ⟨hv.stacked, fun _ => hv.outermost outer, List.Subset.trans declarations hv.declarations⟩
  | @entry f task owned =>
    have hf : f ∈ p.functions := hv.declarations (by rw [task]; exact List.mem_singleton.2 rfl)
    exact ⟨(Setting.Stacks.nil _).cons (List.mem_filter.2 ⟨hf, owned⟩) List.not_mem_nil, nofun,
      List.nil_subset _⟩

section OfProgram

variable {c : Catalog Float} {t : Signatures} {p : Program} {reuse : Bool}

theorem orderly_root (env : Setting) (p : Program) : (root env p).Orderly env p :=
  ⟨.nil env, fun _ => rfl, List.Subset.refl _⟩

theorem Reached.orderly (hv : Reached (.ofProgram c t p reuse) p v) : v.Orderly (.ofProgram c t p reuse) p := by
  induction hv with
  | root => exact orderly_root _ p
  | part _ hinside ih => exact ih.part hinside

/-- There are finitely many visits inside a visit, at whatever depth. -/
theorem Orderly.finite_paths (hv : v.Orderly (.ofProgram c t p reuse) p) :
    {path | (v.follow (.ofProgram c t p reuse) path).isSome}.Finite := by
  set env := Setting.ofProgram c t p reuse
  -- by what is left at the visit
  induction hleft : v.remaining env using
    (WellFounded.prod_lex Nat.lt_wfRel.wf Nat.lt_wfRel.wf).induction generalizing v with
  | _ left ih =>
    subst hleft
    have hparts (i : Fin (v.parts env).length) :
        {path | ((v.parts env)[i].follow env path).isSome}.Finite := by
      have hinside := List.getElem_mem i.isLt
      exact ih _ (descends_of_mem_parts hinside hv.outermost) (hv.part hinside) rfl
    refine ((Set.finite_iUnion fun i => (hparts i).image (List.cons i.val)).insert []).subset ?_
    intro path hpath
    cases path with
    | nil => exact Set.mem_insert _ _
    | cons i path =>
      obtain ⟨w, hw⟩ := Option.isSome_iff_exists.1 hpath
      obtain ⟨u, hu, hw⟩ := Option.bind_eq_some_iff.1 hw
      obtain ⟨hi, rfl⟩ := List.getElem?_eq_some_iff.1 hu
      refine Set.mem_insert_of_mem _ (Set.mem_iUnion.2 ⟨⟨i, hi⟩, path, ?_, rfl⟩)
      exact Option.isSome_iff_exists.2 ⟨w, hw⟩

end OfProgram

end Visit

/-- Checking a program comes to an end. Without a single entry point it ends at once; otherwise what it finds
is what the visit of the program leaves. Entering functions never goes deeper than there are functions,
whatever would happen there, and the functions that are walked inside one another are distinct, at every visit
and in all that is noted. At each visit inside another one there is less left: fewer functions that can still
be entered, or as many and a smaller tree. So there are finitely many visits. -/
theorem analysis_terminates (c : Catalog Float) (p : Program) :
    (∀ e, Signatures.collect p = .error e → analyze c p = .error e) ∧
    ∀ t, Signatures.collect p = .ok t →
      let env := Setting.ofProgram c t p true
      analyze c p = .ok (.ofLog ((Visit.root env p).after env).log) ∧
      (∀ beyond depth active, p.functions.length < depth →
        Walk.enterWithin env beyond depth active = Walk.enter env active) ∧
      (∀ e ∈ ((Visit.root env p).after env).log, ∀ active ∈ e.active?,
        active.Nodup ∧ active.length ≤ p.functions.length) ∧
      (∀ v : Visit, v.Reached env p → v.active.Nodup ∧ v.active.length ≤ p.functions.length ∧
        ∀ w ∈ v.parts env, Prod.Lex (· < ·) (· < ·) (w.remaining env) (v.remaining env)) ∧
      {path | ((Visit.root env p).follow env path).isSome}.Finite := by
  constructor
  · intro e he
    rw [analyze, he]
    rfl
  · intro t ht env
    have hlength : env.functions.length ≤ p.functions.length := List.length_filter_le _ _
    have hstacks {active : List NodeId} (h : env.Stacks active) :
        active.Nodup ∧ active.length ≤ p.functions.length := ⟨h.nodup, h.length_le.trans hlength⟩
    refine ⟨?_, fun beyond depth active hdepth => ?_, fun e he active hactive => ?_, fun v hv => ?_, ?_⟩
    · exact Fallible.bind_eq_ok.2 ⟨t, ht, rfl⟩
    · have hidle := (env.idle_le active).trans hlength
      exact Walk.enterWithin_eq_enter env beyond (Nat.lt_of_le_of_lt hidle hdepth)
    · exact hstacks (notesStacks_run c t p true e he active hactive)
    · have horderly := hv.orderly
      obtain ⟨hnodup, hle⟩ := hstacks horderly.stacked
      exact ⟨hnodup, hle, fun w hw => Visit.descends_of_mem_parts hw horderly.outermost⟩
    · exact (Visit.orderly_root env p).finite_paths

end Metrology.Analysis

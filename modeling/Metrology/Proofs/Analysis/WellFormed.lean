import Metrology.Proofs.Analysis.Contents
import Metrology.Proofs.Analysis.Inside

/-! Well-formed values. Whatever is stored anywhere at any time of a walk, or returned by a visit, is a text, a
flag, or a measurement in a unit of the catalog's own making. -/
namespace Metrology

open Catalog

/-- The unit of a measurement is declared or made up for its dimension, the dimension has an exponent for each
base unit, and a value that is not known counts as one. -/
def Catalog.WellFormed (c : Catalog Float) : Value Float → Prop
  | .text | .flag => True
  | .measurement q =>
    (q.unit ∈ c.units ∨ q.unit = c.unitFor q.unit.dimension) ∧ q.unit.dimension.arity = c.arity ∧
      (q.isKnown = false → q.amount = 1)

theorem Catalog.wellFormed_of_covers {desc : Description Float} {c : Catalog Float} (h : build desc = .ok c)
    {v : Value Float} (hv : c.Covers v) : c.WellFormed v := by
  cases v with
  | text => trivial
  | flag => trivial
  | measurement q =>
    have hmeasures : c.Measures q.unit := hv
    refine ⟨?_, hmeasures.arity h, ?_⟩
    · rcases hmeasures with hu | ⟨d, -, hu⟩
      · exact Or.inl hu
      · exact Or.inr (by rw [hu, Registry.dimension_unitFor])
    · intro hunknown
      have hnone : q.value = none := by simpa [Quantity.isKnown] using hunknown
      rw [Quantity.amount, hnone]
      rfl

namespace Analysis

/-- All values in a state: in its scopes, among the results, in the instances and in the frame of the function
being walked, and all that visits came to so far. -/
def State.values (s : State) : List (Value Float) :=
  s.scopes.values ++ (ofLog s.log).results.map (·.2) ++ s.instances.filterMap (·.2) ++ s.inferred.toList ++
    s.log.flatMap Event.values

theorem mem_insertResult {id : NodeId} {v : Value Float} {rs : List (NodeId × Value Float)}
    {r : NodeId × Value Float} (hr : r ∈ insertResult id v rs) : r = (id, v) ∨ r ∈ rs := by
  fun_induction insertResult id v rs with
  | case1 => simpa using hr
  | case2 id' v' rest _ => simpa using hr
  | case3 v' rest _ =>
    rcases List.mem_cons.1 hr with rfl | hr
    · exact Or.inl rfl
    · exact Or.inr (List.mem_cons_of_mem _ hr)
  | case4 id' v' rest _ _ ih =>
    rcases List.mem_cons.1 hr with rfl | hr
    · exact Or.inr List.mem_cons_self
    · exact (ih hr).imp_right (List.mem_cons_of_mem _)

theorem recorded_of_mem_results {log : List Event} {r : NodeId × Value Float}
    (hr : r ∈ (ofLog log).results) : .recorded r.1 r.2 ∈ log := by
  have hinsert (added rs : List (NodeId × Value Float))
      (hr : r ∈ added.foldl (fun rs a => insertResult a.1 a.2 rs) rs) : r ∈ added ∨ r ∈ rs := by
    induction added generalizing rs with
    | nil => exact Or.inr hr
    | cons a added ih =>
      rcases ih _ hr with h | h
      · exact Or.inl (List.mem_cons_of_mem a h)
      · rcases mem_insertResult h with rfl | h
        · exact Or.inl List.mem_cons_self
        · exact Or.inr h
  rcases hinsert _ [] hr with h | h
  · exact mem_recorded.1 h
  · cases h

theorem State.Covered.values {c : Catalog Float} {s : State} (hs : s.Covered c) :
    ∀ v ∈ s.values, c.Covers v := by
  simp only [State.values, List.forall_mem_append, List.forall_mem_map, List.forall_mem_flatMap]
  refine ⟨⟨⟨⟨hs.scopes, ?_⟩, ?_⟩, ?_⟩, hs.log⟩
  · intro r hr
    exact hs.log _ (recorded_of_mem_results hr) r.2 (List.mem_singleton.2 rfl)
  · intro v hv
    obtain ⟨i, hi, hv⟩ := List.mem_filterMap.1 hv
    exact hs.instances i hi v hv
  · exact fun v hv => hs.inferred v (Option.mem_toList.1 hv)

theorem covered_start (c : Catalog Float) : (start c).Covered c := ⟨nofun, nofun, nofun, nofun⟩

def Task.Covered (c : Catalog Float) : Task → Prop
  | .call _ _ args values => values.length = args.length ∧ ∀ v ∈ values, c.CoversAny v
  | .body _ bindings => ∀ b ∈ bindings, c.Covers b.2
  | _ => True

namespace Visit

variable {desc : Description Float} {c : Catalog Float} {env : Setting}

theorem walk_covering (h : build desc = .ok c) (henv : env.catalog = c) {v : Visit} (hv : v.task.Covered c) :
    Covering c (fun vs => ∀ x ∈ vs, c.Covers x) (v.walk env) := by
  have hc := Walk.around_covered h henv v.active
  have nothing {β : Type} {Q : β → Prop} {x : Walk β} (hx : Covering c Q x) :
      Covering c (fun vs => ∀ x ∈ vs, c.Covers x) (do discard x; return []) :=
    hx.discard.bind fun _ _ => .pure nofun
  obtain ⟨active, task, s⟩ := v
  cases task with
  | expr e =>
    refine (Walk.expr_covering h hc e).bind fun r hr => .pure ?_
    exact fun x hx => hr x (Option.mem_toList.1 hx)
  | exprs es =>
    refine (Walk.exprs_covering h hc es).bind fun vs hvs => .pure ?_
    intro x hx
    obtain ⟨r, hr, hx⟩ := List.mem_filterMap.1 hx
    exact hvs.2 r hr x hx
  | call node callee args values =>
    refine (Walk.applyCall_covering h hc node callee hv.1 hv.2).bind fun r hr => .pure ?_
    cases r with
    | value v => exact List.forall_mem_singleton.2 (hr v rfl)
    | invalid | void => nofun
  | condition e => exact nothing (Walk.condition_covering h hc e)
  | stmt st => exact nothing (Walk.stmt_covering h hc st)
  | stmts sts => exact nothing (Walk.stmts_covering h hc sts)
  | block control b => exact nothing (Walk.block_covering h hc control b)
  | openBlock control b => exact nothing (Walk.openBlock_covering h hc control b)
  | branches control arms => exact nothing (Walk.branches_covering h hc control arms)
  | body f bindings =>
    refine (Walk.body_covering h hc f hv).bind fun r hr => .pure ?_
    exact fun x hx => hr x (Option.mem_toList.1 hx)
  | function f => exact nothing (Walk.function_covering h henv f)
  | functions fs => exact (Walk.functions_covering h henv fs).bind fun _ _ => .pure nofun
  | program p => exact (Walk.program_covering h henv p).bind fun _ _ => .pure nofun

/-- A visit whose state and task hold covered values. -/
structure Covered (c : Catalog Float) (v : Visit) : Prop where
  task : v.task.Covered c
  before : v.before.Covered c

theorem called_covered (h : build desc = .ok c) (henv : env.catalog = c) {active : List NodeId}
    {callee : String} {args : List Expr} {values : List (Option (Value Float))}
    (hlength : values.length = args.length) (hvalues : ∀ v ∈ values, c.CoversAny v) {s : State}
    (hs : s.Covered c) : ∀ w ∈ called env active callee args values s, w.Covered c := by
  intro w hw
  unfold called at hw
  rw [henv] at hw
  split at hw
  · next vs signature hvs _ =>
    obtain rfl := Walk.mapM_id_eq_some hvs
    split at hw
    · cases hw
    · next harity =>
      split at hw
      · next bindings hbindings =>
        have hfits := Walk.fits_of_call h hlength (not_not.1 harity) hvalues hbindings
        unfold entered at hw
        split at hw
        · cases hw
        · split at hw
          · cases hw
          · rw [List.mem_singleton.1 hw]
            exact ⟨hfits.covers, hs.scopes, hs.inferred, hs.instances, hs.log⟩
      · cases hw
  · cases hw

theorem covered_pushed {s : State} (hs : s.Covered c) (kind : Scope.Kind) :
    { s with scopes := s.scopes.push kind }.Covered c :=
  (Walk.setScopes_covering (ScopeStack.values_push hs.scopes (covers_forgotten c) kind) s hs).2

theorem task_covered_of_isPlain {task : Task} (h : task.isPlain = true) : task.Covered c := by
  cases task <;> first | exact trivial | cases h

theorem relays_covered (h : build desc = .ok c) (henv : env.catalog = c) (v : Visit) :
    v.Relays env (State.Covered c) where
  after _ plain hs := (walk_covering h henv (task_covered_of_isPlain plain) _ hs).2
  function _ hs := (Walk.function_covering h henv _ v.before hs).2
  block hs := covered_pushed hs .block
  start control hs := (Walk.startBody_covering control _ hs).2

theorem Covered.inside (h : build desc = .ok c) (henv : env.catalog = c) {v w : Visit} (hv : v.Covered c)
    (hw : w ∈ v.parts env) : w.Covered c := by
  obtain ⟨htask, hs⟩ := hv
  cases inside_of_mem_parts (relays_covered h henv v) hs hw with
  | around _ plain _ found => exact ⟨task_covered_of_isPlain plain, found⟩
  | call node callee args _ _ found =>
    exact ⟨(Walk.exprs_covering h (Walk.around_covered h henv v.active) args v.before hs).1, found⟩
  | @opened f bindings task =>
    rw [task] at htask
    have hinside : State.Covered c { v.before with
        frame := some ⟨f.name, expected env.catalog f, none⟩, scopes := v.before.scopes.push .function } :=
      ⟨(covered_pushed hs .function).scopes, nofun, hs.instances, hs.log⟩
    exact ⟨trivial, (Walk.bindParams_covering htask _ hinside).2⟩
  | called task entered =>
    rw [task] at htask
    exact called_covered h henv htask.1 htask.2 hs w entered
  | @declared task before _ declares _ _ found =>
    refine ⟨?_, found⟩
    cases task <;> first | exact trivial | cases declares.1
  | @entry f _ _ =>
    have hheader := (Walk.header_covering env f v.before hs).2
    rw [henv]
    exact ⟨Walk.placeholders_covered h f.params, hheader.scopes, hheader.inferred, hheader.instances, hheader.log⟩

/-- Every visit that a walk comes to starts with covered values. -/
theorem Reached.covered (h : build desc = .ok c) (henv : env.catalog = c) {p : Program} {v : Visit}
    (hv : Reached env p v) : v.Covered c := by
  induction hv with
  | root => exact ⟨trivial, henv ▸ covered_start env.catalog⟩
  | part _ hinside ih => exact ih.inside h henv hinside

theorem Covered.operands (h : build desc = .ok c) (henv : env.catalog = c) {v : Visit} (hv : v.Covered c)
    {a b : Value Float} (hab : v.operands env = some (a, b)) : c.Covers a ∧ c.Covers b := by
  unfold Visit.operands at hab
  split at hab
  · next node op left right _ =>
    obtain ⟨x, hx, hab⟩ := Option.bind_eq_some_iff.1 hab
    obtain ⟨y, hy, hab⟩ := Option.map_eq_some_iff.1 hab
    cases hab
    have hctx := Walk.around_covered h henv v.active
    obtain ⟨hl, hs⟩ := Walk.expr_covering h hctx left v.before hv.before
    obtain ⟨hr, -⟩ := Walk.expr_covering h hctx right _ hs
    exact ⟨hl a hx, hr b hy⟩
  · cases hab

end Visit

/-- At every visit that the walk over a program comes to, all values before it, after it and returned by it are
well formed; and where it is an operation on two measurements, the dimensions that are multiplied or divided
have the same number of exponents. -/
theorem values_well_formed {desc : Description Float} {c : Catalog Float} (h : build desc = .ok c)
    (t : Signatures) (p : Program) (reuse : Bool) {v : Visit} (hv : v.Reached (.ofProgram c t p reuse) p) :
    (∀ x ∈ v.before.values, c.WellFormed x) ∧
    (∀ x ∈ (v.after (.ofProgram c t p reuse)).values, c.WellFormed x) ∧
    (∀ x ∈ v.returned (.ofProgram c t p reuse), c.WellFormed x) ∧
    ∀ a b, v.operands (.ofProgram c t p reuse) = some (.measurement a, .measurement b) →
      (a.toCoherent c).magnitude.dimension.arity = (b.toCoherent c).magnitude.dimension.arity := by
  have hcovered := Visit.Reached.covered h rfl hv
  have hcatalog : (Setting.ofProgram c t p reuse).catalog = c := rfl
  obtain ⟨hreturned, hafter⟩ := Visit.walk_covering h hcatalog hcovered.task v.before hcovered.before
  refine ⟨fun x hx => wellFormed_of_covers h (hcovered.before.values x hx),
    fun x hx => wellFormed_of_covers h (hafter.values x hx),
    fun x hx => wellFormed_of_covers h (hreturned x hx), fun a b hoperands => ?_⟩
  obtain ⟨ha, hb⟩ := hcovered.operands h hcatalog hoperands
  rw [Quantity.arity_toCoherent h ha, Quantity.arity_toCoherent h hb]

def tracks : Description Float where
  units := [⟨"meter", "m", .base, .none⟩, ⟨"second", "s", .base, .none⟩]

/-- The entry point calls a function that divides a length by a time. -/
def pacing : Program where
  items := [
    .function ⟨⟨1, .none⟩, "pace", [⟨"way", .number, .none⟩, ⟨"time", .unit "s", .none⟩], some .number, .mk [
      .ret ⟨2, .none⟩ (some (.binary ⟨3, .none⟩ .div (.var ⟨4, .none⟩ "way") (.var ⟨5, .none⟩ "time")))]
      .none, false⟩,
    .function ⟨⟨6, .none⟩, "main", [], none, .mk [
      .print ⟨7, .none⟩ (.call ⟨8, .none⟩ "pace" [.number ⟨9, .none⟩ 400 (some "m"),
        .number ⟨10, .none⟩ 80 (some "s")])] .none, true⟩]

/-- The division is reached inside both functions, from a state with eight values. What it gives is not known
and in a unit that is not declared. -/
theorem pacing_well_formed : ∃ c t v a b, build tracks = .ok c ∧ Signatures.collect pacing = .ok t ∧
    Visit.Reached (.ofProgram c t pacing true) pacing v ∧ v.active = [1, 6] ∧ v.before.values.length = 8 ∧
    v.returned (.ofProgram c t pacing true) = [.measurement ⟨⟨"m/s", "m/s", ⟨[1, -1]⟩, false⟩, none⟩] ∧
    v.operands (.ofProgram c t pacing true) = some (.measurement a, .measurement b) ∧
    (∀ x ∈ v.before.values, c.WellFormed x) ∧
    (∀ x ∈ v.returned (.ofProgram c t pacing true), c.WellFormed x) ∧
    (a.toCoherent c).magnitude.dimension.arity = (b.toCoherent c).magnitude.dimension.arity := by
  have hevals : ((build tracks).toOption.bind fun c => (Signatures.collect pacing).toOption.bind fun t =>
      let env := Setting.ofProgram c t pacing true
      ((Visit.root env pacing).follow env [1, 1, 0, 0, 0, 0, 0, 1, 0, 0, 0, 0]).map fun v =>
        (v.active, v.before.values.length, v.returned env,
          decide (v.operands env = some (.measurement ⟨⟨"meter", "m", ⟨[1, 0]⟩, true⟩, none⟩,
            .measurement ⟨⟨"second", "s", ⟨[0, 1]⟩, true⟩, none⟩)))) =
      some ([1, 6], 8, [.measurement ⟨⟨"m/s", "m/s", ⟨[1, -1]⟩, false⟩, none⟩], true) := by decide +kernel
  obtain ⟨c, hc, hevals⟩ := Option.bind_eq_some_iff.1 hevals
  obtain ⟨t, ht, hevals⟩ := Option.bind_eq_some_iff.1 hevals
  obtain ⟨v, hv, hevals⟩ := Option.map_eq_some_iff.1 hevals
  simp only [Prod.mk.injEq, decide_eq_true_eq] at hevals
  obtain ⟨hactive, hlength, hreturned, hoperands⟩ := hevals
  rw [Fallible.toOption_eq_some] at hc ht
  have hreached := Visit.Reached.root.follow hv
  obtain ⟨hbefore, -, hresult, harity⟩ := values_well_formed hc t pacing true hreached
  exact ⟨c, t, v, _, _, hc, ht, hreached, hactive, hlength, hreturned, hoperands, hbefore, hresult,
    harity _ _ hoperands⟩

end Analysis

end Metrology

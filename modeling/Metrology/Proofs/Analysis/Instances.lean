import Mathlib.Tactic.Common
import Metrology.Catalog.Build
import Metrology.Proofs.Analysis.Closure
import Metrology.Proofs.Fallible

/-! Calls with arguments of the same shapes. The first of them has the body walked, and those after it
are given the same result. Only a call from inside the body is not: it gives what the declaration of the
function alone can tell. -/
namespace Metrology.Analysis

def Event.isReentry : Event → Bool
  | called id active => id ∈ active
  | _ => false

/-- A call whose arguments fit, as a log shows it. -/
structure Call where
  callee : String
  bindings : Bindings Float
  result : CallResult
  /-- Whether it was made while the body of the function was being walked. -/
  again : Bool
deriving DecidableEq, Repr

def Call.shapes (call : Call) : List (Value Float) := call.bindings.map fun (_, v) => v.forgotten

/-- The calls in a log, apart from those whose arguments do not fit. -/
def calls : List Event → List Call
  | [] => []
  | .callVisit _ callee (some bindings) result :: earlier =>
    ⟨callee, bindings, result, earlier.head?.any Event.isReentry⟩ :: calls earlier
  | _ :: earlier => calls earlier

theorem calls_cons_plain {e : Event} (h : e.isPlain = true) (log : List Event) :
    calls (e :: log) = calls log := by
  cases e <;> first | rfl | cases h

abbrev Instances := List (InstanceKey × Option (Value Float))

/-- How what is remembered grows while some functions are being walked: nothing is lost or replaced, and
nothing is added for those functions. -/
structure Accrues (active : List NodeId) (old new : Instances) : Prop where
  keeps : ∀ key r, old.lookup key = some r → new.lookup key = some r
  waits : ∀ key : InstanceKey, key.1 ∈ active → new.lookup key = old.lookup key

namespace Accrues

variable {active : List NodeId} {a b c : Instances}

theorem refl (active : List NodeId) (a : Instances) : Accrues active a a :=
  ⟨fun _ _ h => h, fun _ _ => rfl⟩

theorem trans (hab : Accrues active a b) (hbc : Accrues active b c) : Accrues active a c :=
  ⟨fun key r h => hbc.keeps key r (hab.keeps key r h),
    fun key h => (hbc.waits key h).trans (hab.waits key h)⟩

theorem mono {active' : List NodeId} (h : Accrues active a b) (hsub : active' ⊆ active) :
    Accrues active' a b := ⟨h.keeps, fun key hkey => h.waits key (hsub hkey)⟩

theorem push (key : InstanceKey) (r : Option (Value Float)) (inactive : key.1 ∉ active)
    (hfree : a.lookup key = none) : Accrues active a ((key, r) :: a) := by
  have hne {other : InstanceKey} (hother : other ≠ key) :
      ((key, r) :: a).lookup other = a.lookup other := by
    have : (other == key) = false := by simpa using hother
    simp [List.lookup_cons, this]
  constructor
  · intro other r' hr'
    rw [hne, hr']
    rintro rfl
    rw [hfree] at hr'
    cases hr'
  · intro other hother
    apply hne
    rintro rfl
    exact inactive hother

end Accrues

/-- What a function that was entered gave back. -/
def Setting.Gave (env : Setting) (instances : Instances) (id : NodeId) (bindings : Bindings Float)
    (inferred : Option (Value Float)) : Prop :=
  match env.function? id with
  | none => inferred = none
  | some _ => instances.lookup (instanceKey id bindings) = some inferred

/-- The result of a call follows from the declaration and what the function gave back, which is nothing
when it was not entered. -/
def Setting.Explains (env : Setting) (instances : Instances) (call : Call) : Prop :=
  ∃ signature inferred, env.signatures.lookup call.callee = some signature ∧
    call.result = Walk.callResult env.catalog signature.returns inferred ∧
    if call.again then inferred = none
    else env.Gave instances signature.decl.id call.bindings inferred

/-- All calls so far are explained by what is remembered. -/
def Setting.Consistent (env : Setting) (s : State) : Prop :=
  ∀ call ∈ calls s.log, env.Explains s.instances call

structure Setting.Remembers (env : Setting) (active : List NodeId) (s t : State) : Prop where
  accrues : Accrues active s.instances t.instances
  consistent : env.Consistent s → env.Consistent t

variable {env : Setting} {active : List NodeId}

theorem Setting.Gave.accrue {old new : Instances} {id : NodeId} {bindings : Bindings Float}
    {inferred : Option (Value Float)} (h : Accrues active old new)
    (hgave : env.Gave old id bindings inferred) : env.Gave new id bindings inferred := by
  unfold Gave at hgave ⊢
  split
  · simpa [*] using hgave
  · next hf =>
    rw [hf] at hgave
    exact h.keeps _ _ hgave

/-- What a function gave back is determined by the shapes of its arguments. -/
theorem Setting.Gave.unique {instances : Instances} {id : NodeId} {bindings bindings' : Bindings Float}
    {inferred inferred' : Option (Value Float)} (h : env.Gave instances id bindings inferred)
    (h' : env.Gave instances id bindings' inferred')
    (hkey : instanceKey id bindings = instanceKey id bindings') : inferred = inferred' := by
  unfold Gave at h h'
  split at h
  · next hf =>
    rw [hf] at h'
    exact h.trans h'.symm
  · next hf =>
    rw [hf] at h'
    rw [hkey] at h
    exact Option.some.inj (h.symm.trans h')

theorem Setting.Explains.accrue {old new : Instances} {call : Call} (h : Accrues active old new)
    (hcall : env.Explains old call) : env.Explains new call := by
  obtain ⟨signature, inferred, hlookup, hresult, hinferred⟩ := hcall
  refine ⟨signature, inferred, hlookup, hresult, ?_⟩
  split
  · simpa [*] using hinferred
  · next hentered => exact (by simpa [hentered] using hinferred : env.Gave _ _ _ _).accrue h

theorem Setting.Remembers.note (s : State) {e : Event} (hcalls : calls (e :: s.log) = calls s.log) :
    env.Remembers active s ((Walk.note e).run s).2 where
  accrues := .refl active s.instances
  consistent h call hcall := h call (hcalls ▸ hcall)

theorem tracked_remembers (env : Setting) (active : List NodeId) : Tracked (env.Remembers active) where
  refl s := ⟨.refl active s.instances, id⟩
  trans hst htu := ⟨hst.accrues.trans htu.accrues, fun h => htu.consistent (hst.consistent h)⟩
  note s _ plain := .note s (calls_cons_plain plain s.log)

namespace Walk

/-- The result of a body that is already known is taken; any other body is walked, and remembered. -/
theorem remembered_reuse_cases (key : InstanceKey) (walk : Walk (Option (Value Float))) (s : State) :
    (∃ inferred, s.instances.lookup key = some inferred ∧
      (remembered true key walk).run s = (inferred, s)) ∨
    s.instances.lookup key = none ∧ (remembered true key walk).run s =
      let r := walk.run s
      (r.1, { r.2 with instances := (key, r.1) :: r.2.instances }) := by
  rw [run_remembered, if_pos rfl]
  cases s.instances.lookup key with
  | some inferred => exact Or.inl ⟨inferred, rfl, rfl⟩
  | none => exact Or.inr ⟨rfl, rfl⟩

end Walk

/-- What comes of entering a function: nothing, if it is being walked already, and otherwise what is
remembered of it. -/
structure Setting.Entered (env : Setting) (active : List NodeId) (id : NodeId) (bindings : Bindings Float)
    (s : State) (r : Option (Value Float) × State) : Prop extends env.Remembers active s r.2 where
  again : id ∈ active → r.1 = none
  gave : id ∉ active → env.Gave r.2.instances id bindings r.1

theorem Setting.Entered.conclude {signature : Signature} {bindings : Bindings Float} {s : State}
    {r : Option (Value Float) × State} (h : env.Entered active signature.decl.id bindings s r)
    (node : Node) {callee : String} (hlookup : env.signatures.lookup callee = some signature) :
    let result := Walk.callResult env.catalog signature.returns r.1
    let t := ((Walk.note (.called signature.decl.id active)).run r.2).2
    env.Remembers active s ((Walk.note (.callVisit node callee (some bindings) result)).run t).2 := by
  refine ⟨h.accrues, fun hs call hcall => ?_⟩
  rcases List.mem_cons.1 hcall with rfl | hcall
  · refine ⟨signature, r.1, hlookup, rfl, ?_⟩
    by_cases hactive : signature.decl.id ∈ active
    · simpa [Event.isReentry, hactive] using h.again hactive
    · simpa [Event.isReentry, hactive] using h.gave hactive
  · exact h.consistent hs call hcall

namespace Walk

variable {enter : NodeId → Bindings Float → Walk (Option (Value Float))}

theorem applyCall_remembers
    (henter : ∀ id bindings s, env.Entered active id bindings s ((enter id bindings).run s))
    (node : Node) (callee : String) (args : List Expr) (values : List (Option (Value Float))) (s : State) :
    env.Remembers active s
      ((applyCall (env.context active enter) node callee args values).run s).2 := by
  have failed (t : State) : env.Remembers active t
      ((note (.callVisit node callee none .invalid)).run t).2 := .note t rfl
  rcases applyCall_cases (env.context active enter) node callee args values s with
    hrun | ⟨p, span, hrun⟩ | ⟨signature, bindings, hlookup, hrun⟩
  all_goals rw [hrun]
  · exact failed s
  · have hR := tracked_remembers env active
    exact hR.trans (raise_tracked hR p span s) (failed _)
  · exact (henter signature.decl.id bindings s).conclude node hlookup

theorem indifferent_remembers
    (henter : ∀ id bindings s, env.Entered active id bindings s ((enter id bindings).run s)) :
    (env.context active enter).Indifferent (env.Remembers active) where
  toTracked := tracked_remembers env active
  call := applyCall_remembers henter
  scopes s _ := ⟨.refl active s.instances, id⟩
  start _ s := .note s rfl
  visit _ _ _ s := .note s rfl
  giveBack node value s := by
    rcases giveBack_cases (env.context active enter) node value s with
      ⟨p, _, hrun⟩ | hrun | ⟨name, v, _, hrun⟩
    all_goals rw [hrun]
    · exact raise_tracked (tracked_remembers env active) p node.span s
    · exact (tracked_remembers env active).refl s
    · exact ⟨.refl active s.instances, id⟩

theorem body_remembers {ctx : Context} (hc : ctx.Indifferent (env.Remembers active)) (f : FunctionDecl)
    (bindings : Bindings Float) (s : State) :
    env.Remembers active s ((body ctx f bindings).run s).2 := by
  have h := stmts_indifferent hc f.body.stmts (s.opened ctx.catalog f bindings)
  exact ⟨h.accrues, h.consistent⟩

theorem enter_entered (hreuse : env.reuse = true) (active : List NodeId) (id : NodeId)
    (bindings : Bindings Float) (s : State) :
    env.Entered active id bindings s ((Walk.enter env active id bindings).run s) := by
  fun_induction Walk.enter env active id bindings generalizing s with
  | case1 active id bindings hf =>
    exact ⟨(tracked_remembers env active).refl s, fun _ => rfl, fun _ => by simp only [Setting.Gave, hf]; rfl⟩
  | case2 active id bindings f hf hactive =>
    exact ⟨(tracked_remembers env active).refl s, fun _ => rfl, fun h => absurd hactive h⟩
  | case3 active id bindings f hf inactive ctx ih =>
    rw [hreuse]
    rcases remembered_reuse_cases (instanceKey id bindings) (calling id (body ctx f bindings)) s with
      ⟨inferred, hknown, hrun⟩ | ⟨hfree, hrun⟩
    all_goals rw [hrun]
    · exact ⟨(tracked_remembers env active).refl s, fun h => absurd h inactive,
        fun _ => by simpa only [Setting.Gave, hf]⟩
    · have hc : ctx.Indifferent (env.Remembers (id :: active)) := indifferent_remembers ih
      have hbody := body_remembers hc f bindings { s with active := id :: s.active }
      have hpush := Accrues.push (instanceKey id bindings)
        ((body ctx f bindings).run { s with active := id :: s.active }).1 inactive
        ((hbody.accrues.waits _ List.mem_cons_self).trans hfree)
      have haccrues := (hbody.accrues.mono (List.subset_cons_self id active)).trans hpush
      exact ⟨⟨haccrues, fun hs call hcall => (hbody.consistent hs call hcall).accrue hpush⟩,
        fun h => absurd h inactive, fun _ => by simp [Setting.Gave, hf]⟩

end Walk

theorem consistent_run (c : Catalog Float) (t : Signatures) (p : Program) :
    (Setting.ofProgram c t p true).Consistent (run c t p true) := by
  set env := Setting.ofProgram c t p true
  have hR := tracked_remembers env []
  have hc (active : List NodeId) : (env.around active).Indifferent (env.Remembers active) :=
    Walk.indifferent_remembers (Walk.enter_entered rfl active)
  have hglobals := Walk.stmts_indifferent (hc []) p.globals (start c)
  have hbody (f : FunctionDecl) (bindings : Bindings Float) (s : State) :
      env.Remembers [] s ((Walk.calling f.id (Walk.body (env.around [f.id]) f bindings)).run s).2 := by
    have h := Walk.body_remembers (hc [f.id]) f bindings { s with active := f.id :: s.active }
    exact ⟨h.accrues.mono (List.nil_subset _), h.consistent⟩
  have hfunctions := Walk.functions_tracked hR env hbody p.functions
  exact (hR.trans hglobals (hfunctions _)).consistent nofun

/-- Arguments of the same shapes have the same place in what is remembered. -/
theorem instanceKey_congr (id : NodeId) {a b : Call} (h : a.shapes = b.shapes) :
    instanceKey id a.bindings = instanceKey id b.bindings := by
  have hkey (call : Call) : instanceKey id call.bindings = (id, call.shapes.map Value.describe) := by
    simp [instanceKey, Call.shapes]
  rw [hkey, hkey, h]

/-- What a body returns matters for functions that return a plain number only. -/
theorem callResult_congr (c : Catalog Float) {returns : Option TypeRef} (h : returns ≠ some .number)
    (a b : Option (Value Float)) : Walk.callResult c returns a = Walk.callResult c returns b := by
  unfold Walk.callResult
  cases returns with
  | none => rfl
  | some type =>
    cases type with
    | text => rfl
    | flag => rfl
    | number => exact absurd rfl h
    | unit word => cases hw : c.lookup word <;> simp [Shape.resolve, hw]

/-- Two calls of one function with arguments of the same shapes have the same result, wherever they are
made and whichever comes first, unless the function returns a plain number and exactly one of the calls is
made while the body of the function is being walked. Such a call gives what follows from the declaration
alone. -/
theorem calls_agree (c : Catalog Float) (t : Signatures) (p : Program) {a b : Call}
    (ha : a ∈ calls (run c t p true).log) (hb : b ∈ calls (run c t p true).log)
    (hcallee : a.callee = b.callee) (hshapes : a.shapes = b.shapes) :
    ∃ signature, t.lookup a.callee = some signature ∧
      (a.again = true → a.result = Walk.callResult c signature.returns none) ∧
      (a.again = b.again ∨ signature.returns ≠ some .number → a.result = b.result) := by
  obtain ⟨signature, inferred, hlookup, hresult, hinferred⟩ := consistent_run c t p a ha
  obtain ⟨signature', inferred', hlookup', hresult', hinferred'⟩ := consistent_run c t p b hb
  rw [← hcallee, hlookup] at hlookup'
  cases hlookup'
  refine ⟨signature, hlookup, fun hagain => ?_, ?_⟩
  · rw [if_pos hagain] at hinferred
    rw [hresult, hinferred]
    rfl
  · rw [hresult, hresult']
    rintro (hsame | hreturns)
    · rw [← hsame] at hinferred'
      have hsame : inferred = inferred' := by
        split at hinferred
        · next hagain =>
          rw [if_pos hagain] at hinferred'
          exact hinferred.trans hinferred'.symm
        · next hentered =>
          rw [if_neg hentered] at hinferred'
          exact hinferred.unique hinferred' (instanceKey_congr _ hshapes)
      rw [hsame]
    · exact callResult_congr c hreturns inferred inferred'

/-- A length is returned by a function that calls itself. -/
def echoing : Program where
  items := [
    .function ⟨⟨0, .none⟩, "length", [], some .number, .mk [
      .print ⟨1, .none⟩ (.call ⟨2, .none⟩ "length" []),
      .ret ⟨3, .none⟩ (some (.number ⟨4, .none⟩ 5 (some "m")))] .none, false⟩,
    .function ⟨⟨5, .none⟩, "main", [], none, .mk [
      .print ⟨6, .none⟩ (.call ⟨7, .none⟩ "length" []),
      .print ⟨8, .none⟩ (.call ⟨9, .none⟩ "length" [])] .none, true⟩]

def meters : Description Float where
  units := [⟨"meter", "m", .base, .none⟩]

def CallResult.describe : CallResult → String
  | value v => v.describe
  | void | invalid => ""

theorem echoing_calls : ∃ c t, Catalog.build meters = .ok c ∧ Signatures.collect echoing = .ok t ∧
    (t.lookup "length").map (·.returns) = some (some .number) ∧
    (calls (run c t echoing true).log).map
        (fun call => (call.callee, call.shapes.length, call.again, call.result.describe)) =
      [("length", 0, false, "meter"), ("length", 0, false, "meter"), ("length", 0, true, "number")] := by
  have hevals : (Catalog.build meters).toOption.bind (fun c =>
      (Signatures.collect echoing).toOption.map fun t => ((t.lookup "length").map (·.returns),
        (calls (run c t echoing true).log).map
          fun call => (call.callee, call.shapes.length, call.again, call.result.describe))) =
      some (some (some .number),
        [("length", 0, false, "meter"), ("length", 0, false, "meter"), ("length", 0, true, "number")]) := by
    decide +kernel
  obtain ⟨c, hc, hevals⟩ := Option.bind_eq_some_iff.1 hevals
  obtain ⟨t, ht, hevals⟩ := Option.map_eq_some_iff.1 hevals
  exact ⟨c, t, Fallible.toOption_eq_some.1 hc, Fallible.toOption_eq_some.1 ht, Prod.mk.inj hevals⟩

/-- The two calls from outside agree, and the call from inside gives a plain number. -/
theorem echoing_calls_agree : ∃ c t, Catalog.build meters = .ok c ∧ Signatures.collect echoing = .ok t ∧
    ∃ second first inner : Call, calls (run c t echoing true).log = [second, first, inner] ∧
      first.again = false ∧ second.result = first.result ∧
      inner.again = true ∧ inner.result = .value (Shape.number.placeholder c) := by
  obtain ⟨c, t, hc, ht, hreturns, hcalls⟩ := echoing_calls
  have hagree (a b : Call) := calls_agree c t echoing (a := a) (b := b)
  generalize hall : calls (run c t echoing true).log = all at hcalls hagree
  obtain ⟨second, _, rfl, hsecond, hcalls⟩ := List.map_eq_cons_iff.1 hcalls
  obtain ⟨first, _, rfl, hfirst, hcalls⟩ := List.map_eq_cons_iff.1 hcalls
  obtain ⟨inner, _, rfl, hinner, hcalls⟩ := List.map_eq_cons_iff.1 hcalls
  cases List.map_eq_nil_iff.1 hcalls
  simp only [Prod.mk.injEq, List.length_eq_zero_iff] at hsecond hfirst hinner
  obtain ⟨_, _, _, hsame⟩ := hagree second first (by simp) (by simp) (hsecond.1.trans hfirst.1.symm)
    (hsecond.2.1.trans hfirst.2.1.symm)
  obtain ⟨signature, hlookup, hnone, -⟩ := hagree inner inner (by simp) (by simp) rfl rfl
  rw [hinner.1] at hlookup
  simp only [hlookup, Option.map_some, Option.some.injEq] at hreturns
  refine ⟨c, t, hc, ht, second, first, inner, hall, hfirst.2.2.1,
    hsame (Or.inl (hsecond.2.2.1.trans hfirst.2.2.1.symm)), hinner.2.2.1, ?_⟩
  rw [hnone hinner.2.2.1, hreturns]
  rfl

/-- A call from inside a function and one from outside can differ. -/
theorem echoing_calls_differ : ∃ c t, Catalog.build meters = .ok c ∧ Signatures.collect echoing = .ok t ∧
    ∃ a ∈ calls (run c t echoing true).log, ∃ b ∈ calls (run c t echoing true).log,
      a.callee = b.callee ∧ a.shapes = b.shapes ∧ a.result ≠ b.result := by
  obtain ⟨c, t, hc, ht, -, hcalls⟩ := echoing_calls
  refine ⟨c, t, hc, ht, ?_⟩
  generalize calls (run c t echoing true).log = all at hcalls ⊢
  obtain ⟨second, _, rfl, hsecond, hcalls⟩ := List.map_eq_cons_iff.1 hcalls
  obtain ⟨first, _, rfl, hfirst, hcalls⟩ := List.map_eq_cons_iff.1 hcalls
  obtain ⟨inner, _, rfl, hinner, hcalls⟩ := List.map_eq_cons_iff.1 hcalls
  simp only [Prod.mk.injEq, List.length_eq_zero_iff] at hfirst hinner
  refine ⟨first, by simp, inner, by simp, hfirst.1.trans hinner.1.symm,
    hfirst.2.1.trans hinner.2.1.symm, fun hsame => ?_⟩
  have hunits := congrArg CallResult.describe hsame
  rw [hfirst.2.2.2, hinner.2.2.2] at hunits
  exact absurd hunits (by decide)

end Metrology.Analysis

import Metrology.Proofs.Analysis.Lockstep
import Metrology.Proofs.Analysis.Persistence
import Metrology.Proofs.Scope.Aligned

/-! What a function can tell about its caller. A body is walked on a copy of the global scope in which nothing is
known, with parameters that nothing is known of either. So what it returns, what is found in it and what is
recorded depends on the shapes of globals and arguments, and on nothing else around the call. -/
namespace Metrology.Analysis

/-- A relation between histories that remember the same results, and go on doing so. -/
structure Recalling (L : State → State → Prop) : Prop extends Pairing (fun _ => True) L where
  lookup : ∀ {s s'}, L s s' → ∀ key, s'.instances.lookup key = s.instances.lookup key
  push : ∀ {s s'}, L s s' → ∀ key result, L { s with instances := (key, result) :: s.instances }
    { s' with instances := (key, result) :: s'.instances }

/-- Two walks at the same place on a footing. -/
structure Astride (F : Footing Float) (L : State → State → Prop) (n : Nat) (s s' : State) : Prop where
  scopes : s.scopes.Aligned F n s'.scopes
  frame : s'.frame = s.frame
  history : L s s'

/-- Two walks that look the same to a function that is called. -/
structure OneGround (L : State → State → Prop) (s s' : State) : Prop where
  reserved : s'.scopes.reserved = s.scopes.reserved
  globals : s.scopes.global.bindings.Resembles s'.scopes.global.bindings
  history : L s s'

theorem Astride.oneGround {F : Footing Float} {L : State → State → Prop} {n : Nat} {s s' : State}
    (h : Astride F L n s s') : OneGround L s s' := ⟨h.scopes.reserved, h.scopes.global, h.history⟩

namespace Recalling

variable {L : State → State → Prop} (hL : Recalling L) {s s' : State}

include hL

theorem note (h : L s s') (e : Event) : L ((Walk.note e).run s).2 ((Walk.note e).run s').2 := by
  cases e with
  | raised d => exact hL.raised h d
  | recorded id v => exact hL.recorded h id v trivial
  | _ => exact hL.silent h _ _ rfl rfl

theorem rescope (h : L s s') (scopes scopes' : ScopeStack Float) :
    L { s with scopes } { s' with scopes := scopes' } :=
  hL.indifferent h scopes scopes' s.active s'.active s.frame s'.frame

theorem bound {F : Footing Float} {n : Nat} (h : Astride F L n s s')
    {r r' : Except ScopeError (ScopeStack Float)}
    (hr : (∃ e, r = .error e ∧ r' = .error e) ∨
      ∃ t t', r = .ok t ∧ r' = .ok t' ∧ ScopeStack.Aligned F n t t') : Bound (Astride F L n) s s' r r' := by
  rcases hr with ⟨e, rfl, rfl⟩ | ⟨t, t', rfl, rfl, haligned⟩
  · exact .refused e
  · exact .bound ⟨haligned, h.frame, hL.rescope h.history t t'⟩

theorem parallel (F : Footing Float) : Parallel (Astride F L) where
  shows _ name s s' h := h.scopes.get?_eq name
  note h e := ⟨h.scopes, h.frame, hL.note h.history e⟩
  visit _ h _ _ _ := ⟨h.scopes, h.frame, hL.silent h.history _ _ rfl rfl⟩
  start h _ := ⟨h.scopes, h.frame, hL.silent h.history _ _ rfl rfl⟩
  frame h := h.frame
  infer {_ s s'} h v := by
    refine ⟨h.scopes, ?_, hL.indifferent h.history s.scopes s'.scopes s.active s'.active _ _⟩
    rw [Walk.run_infer, Walk.run_infer, h.frame]
  declare h name v := hL.bound h (h.scopes.declare name v)
  assign h name v := hL.bound h (h.scopes.assign name v)
  push h := ⟨h.scopes.push_block, h.frame, hL.rescope h.history _ _⟩
  close h ht := ⟨ht.scopes.truncate h.scopes, ht.frame, hL.rescope ht.history _ _⟩

end Recalling

namespace Walk

variable {L : State → State → Prop} (hL : Recalling L) {s s' : State} {b b' : Bindings Float}

include hL

theorem context_parallel {env : Setting} {active : List NodeId} (F : Footing Float)
    (henter : ∀ id bindings {s s'}, OneGround L s s' →
      ((enter env active id bindings).run s').1 = ((enter env active id bindings).run s).1 ∧
        L ((enter env active id bindings).run s).2 ((enter env active id bindings).run s').2) :
    (env.around active).Parallel (Astride F L) (env.around active) where
  toParallel := hL.parallel F
  catalog := rfl
  lookup _ := rfl
  active := rfl
  enter n id bindings s s' h := by
    obtain ⟨hresult, hhistory⟩ := henter id bindings h.oneGround
    refine ⟨hresult, trivial, ?_, ?_, hhistory⟩
    · have hscopes : ((enter env active id bindings).run s).2.scopes = s.scopes :=
        enter_scopes env active id bindings s
      have hscopes' : ((enter env active id bindings).run s').2.scopes = s'.scopes :=
        enter_scopes env active id bindings s'
      change ScopeStack.Aligned F n ((enter env active id bindings).run s).2.scopes
        ((enter env active id bindings).run s').2.scopes
      rw [hscopes, hscopes']
      exact h.scopes
    · exact (enter_frame env active id bindings s').trans (h.frame.trans (enter_frame env active id bindings s).symm)

/-- A body sees its function's copy of the globals and its parameters. -/
theorem body_alike {ctx : Context} (hc : ∀ F, ctx.Parallel (Astride F L) ctx) (f : FunctionDecl)
    (hb : b'.forgotten = b.forgotten) (h : OneGround L s s') :
    ((body ctx f b').run s').1 = ((body ctx f b).run s).1 ∧
      L ((body ctx f b).run s).2 ((body ctx f b').run s').2 := by
  have hparams : (s'.scopes.push .function).bindForgotten b' = (s'.scopes.push .function).bindForgotten b := by
    rw [ScopeStack.bindForgotten_eq_foldl, hb, ← ScopeStack.bindForgotten_eq_foldl]
  have hopen := (ScopeStack.aligned_push_function h.reserved h.globals).bindForgotten b
  have hstart : Astride _ L 0 (s.opened ctx.catalog f b) (s'.opened ctx.catalog f b) :=
    ⟨hopen, rfl, hL.indifferent h.history _ _ s.active s'.active _ _⟩
  rw [run_body, run_body, State.opened, hparams]
  obtain ⟨-, -, hend⟩ := stmts_lockstep (hc _) 0 f.body.stmts _ _ hstart
  exact ⟨State.inferred_congr hend.frame, hL.indifferent hend.history _ _ _ _ _ _⟩

theorem calling_alike {β : Type} (id : NodeId) {x y : Walk β}
    (hxy : (y.run { s' with active := id :: s'.active }).1 = (x.run { s with active := id :: s.active }).1 ∧
      L (x.run { s with active := id :: s.active }).2 (y.run { s' with active := id :: s'.active }).2) :
    ((calling id y).run s').1 = ((calling id x).run s).1 ∧
      L ((calling id x).run s).2 ((calling id y).run s').2 :=
  ⟨hxy.1, hL.indifferent hxy.2 _ _ _ _ _ _⟩

theorem remembered_alike (reuse : Bool) (key : InstanceKey) {x y : Walk (Option (Value Float))} (h : L s s')
    (hxy : (y.run s').1 = (x.run s).1 ∧ L (x.run s).2 (y.run s').2) :
    ((remembered reuse key y).run s').1 = ((remembered reuse key x).run s).1 ∧
      L ((remembered reuse key x).run s).2 ((remembered reuse key y).run s').2 := by
  rw [run_remembered, run_remembered, hL.lookup h]
  split
  · exact ⟨rfl, h⟩
  · refine ⟨hxy.1, ?_⟩
    dsimp only
    rw [hxy.1]
    exact hL.push hxy.2 key _

/-- Callers on one ground get the same from a function for arguments of the same shapes. -/
theorem enter_alike (env : Setting) (active : List NodeId) (id : NodeId) (hb : b'.forgotten = b.forgotten)
    (h : OneGround L s s') :
    ((enter env active id b').run s').1 = ((enter env active id b).run s).1 ∧
      L ((enter env active id b).run s).2 ((enter env active id b').run s').2 := by
  fun_induction enter env active id b generalizing b' s s' with
  | case1 active id b hf =>
    rw [enter_of_none hf]
    exact ⟨rfl, h.history⟩
  | case2 active id b f hf hactive =>
    rw [enter_of_active hactive]
    exact ⟨rfl, h.history⟩
  | case3 active id b f hf inactive ctx =>
    rename_i ih
    obtain rfl := Setting.id_of_function? hf
    have hkey : instanceKey f.id b' = instanceKey f.id b := by
      have hwords (b : Bindings Float) : b.map (·.2.describe) = b.forgotten.map (·.2.describe) := by
        simp [Bindings.forgotten]
      rw [instanceKey, instanceKey]
      exact congrArg _ ((hwords b').trans ((congrArg _ hb).trans (hwords b).symm))
    rw [enter_of_inactive hf inactive, hkey]
    have hcalling : OneGround L { s with active := f.id :: s.active } { s' with active := f.id :: s'.active } :=
      ⟨h.reserved, h.globals, hL.indifferent h.history _ _ _ _ _ _⟩
    refine remembered_alike hL env.reuse _ h.history (calling_alike hL f.id (body_alike hL (fun F => ?_) f hb hcalling))
    exact context_parallel hL F fun id bindings s s' h => ih id bindings rfl h

end Walk

/-! ### What is added to two histories -/

theorem reports_append (ds : List Diagnostic) {found found' : List Diagnostic}
    (h : ∀ d : Diagnostic, found'.any d.repeats = found.any d.repeats) :
    ∃ new, ds.foldl report found = found ++ new ∧ ds.foldl report found' = found' ++ new := by
  induction ds generalizing found found' with
  | nil => exact ⟨[], (List.append_nil _).symm, (List.append_nil _).symm⟩
  | cons d ds ih =>
    rw [List.foldl_cons, List.foldl_cons, report, report, h d]
    split
    · exact ih h
    · have hfound (e : Diagnostic) : (found' ++ [d]).any e.repeats = (found ++ [d]).any e.repeats := by
        rw [List.any_append, List.any_append, h e]
      obtain ⟨new, hnew, hnew'⟩ := ih hfound
      exact ⟨d :: new, by rw [hnew, List.append_assoc, List.singleton_append],
        by rw [hnew', List.append_assoc, List.singleton_append]⟩

/-- A node that is given a value has the last one that it is given, whatever it had before. -/
theorem lookup_results_eq {id : NodeId} {rs found found' : List (NodeId × Value Float)}
    (h : (∃ v, (id, v) ∈ rs) ∨ found'.lookup id = found.lookup id) :
    (rs.foldl (fun rs (id, v) => insertResult id v rs) found').lookup id =
      (rs.foldl (fun rs (id, v) => insertResult id v rs) found).lookup id := by
  induction rs generalizing found found' with
  | nil =>
    rcases h with ⟨v, hv⟩ | h
    · cases hv
    · exact h
  | cons r rs ih =>
    refine ih ?_
    rw [lookup_insertResult, lookup_insertResult]
    rcases h with ⟨v, hv⟩ | h
    · rcases List.mem_cons.1 hv with rfl | hv
      · exact Or.inr ((if_pos rfl).trans (if_pos rfl).symm)
      · exact Or.inl ⟨v, hv⟩
    · exact Or.inr (by rw [h])

/-- The same has been added to two histories, which remember the same results. -/
structure Since (s₀ s₀' s s' : State) : Prop where
  raised : ∃ ds, raised s.log = raised s₀.log ++ ds ∧ raised s'.log = raised s₀'.log ++ ds
  recorded : ∃ rs, recorded s.log = recorded s₀.log ++ rs ∧ recorded s'.log = recorded s₀'.log ++ rs
  instances : ∀ key, s'.instances.lookup key = s.instances.lookup key

theorem recalling_since (s₀ s₀' : State) : Recalling (Since s₀ s₀') where
  raised {s s'} h d := by
    obtain ⟨ds, hds, hds'⟩ := h.raised
    refine ⟨⟨ds ++ [d], ?_, ?_⟩, h.recorded, h.instances⟩
    · exact (raised_cons d s.log).trans (by rw [hds, List.append_assoc])
    · exact (raised_cons d s'.log).trans (by rw [hds', List.append_assoc])
  recorded {s s'} h id v _ := by
    obtain ⟨rs, hrs, hrs'⟩ := h.recorded
    refine ⟨h.raised, ⟨rs ++ [(id, v)], ?_, ?_⟩, h.instances⟩
    · exact (recorded_cons id v s.log).trans (by rw [hrs, List.append_assoc])
    · exact (recorded_cons id v s'.log).trans (by rw [hrs', List.append_assoc])
  silent {s s'} h e e' he he' := by
    obtain ⟨hraised, hrecorded⟩ := collect_silent he s.log
    obtain ⟨hraised', hrecorded'⟩ := collect_silent he' s'.log
    obtain ⟨ds, hds, hds'⟩ := h.raised
    obtain ⟨rs, hrs, hrs'⟩ := h.recorded
    exact ⟨⟨ds, hraised.trans hds, hraised'.trans hds'⟩, ⟨rs, hrecorded.trans hrs, hrecorded'.trans hrs'⟩,
      h.instances⟩
  indifferent h _ _ _ _ _ _ := ⟨h.raised, h.recorded, h.instances⟩
  lookup h := h.instances
  push h key result := by
    refine ⟨h.raised, h.recorded, fun key' => ?_⟩
    rw [List.lookup_cons, List.lookup_cons, h.instances]

theorem forgotten_eq_iff {v w : Value Float} : v.forgotten = w.forgotten ↔ Walk.shapeOf v = Walk.shapeOf w := by
  cases v <;> cases w <;> simp [Value.forgotten, Walk.shapeOf, Quantity.forgotten, Quantity.unknown]

theorem forgotten_eq_of_shapes {b b' : Bindings Float}
    (h : b'.map (fun e => (e.1, Walk.shapeOf e.2)) = b.map fun e => (e.1, Walk.shapeOf e.2)) :
    b'.forgotten = b.forgotten := by
  induction b generalizing b' with
  | nil =>
    rw [List.map_eq_nil_iff.1 h]
  | cons e b ih =>
    obtain ⟨e', rest, rfl, hfirst, hrest⟩ := List.map_eq_cons_iff.1 h
    obtain ⟨hname, hshape⟩ := Prod.mk.inj hfirst
    exact List.cons_eq_cons.2 ⟨Prod.ext hname (forgotten_eq_iff.2 hshape), ih hrest⟩

theorem resembles_of_shapes {b b' : Bindings Float}
    (h : ∀ name, (b'.get? name).map Walk.shapeOf = (b.get? name).map Walk.shapeOf) : b.Resembles b' := by
  intro name
  have hname := h name
  cases hb : b.get? name with
  | none =>
    rw [hb] at hname
    rw [Option.map_eq_none_iff.1 hname]
  | some v =>
    rw [hb] at hname
    obtain ⟨v', hb', hshape⟩ := Option.map_eq_some_iff.1 hname
    rw [hb']
    exact congrArg some (forgotten_eq_iff.2 hshape)

/-- Two states of an analysis that have the same reserved words, results of bodies and findings to check new ones
against, and the same names with the same shapes at global level. -/
structure State.Agrees (s s' : State) : Prop where
  reserved : s'.scopes.reserved = s.scopes.reserved
  globals : ∀ name, (s'.scopes.global.bindings.get? name).map Walk.shapeOf =
    (s.scopes.global.bindings.get? name).map Walk.shapeOf
  instances : ∀ key, s'.instances.lookup key = s.instances.lookup key
  reported : ∀ d : Diagnostic, (ofLog s'.log).diagnostics.any d.repeats = (ofLog s.log).diagnostics.any d.repeats

/-- A called function cannot tell its callers apart. For arguments of the same shapes, and in states that agree, it
returns the same, the same findings are appended and the same values recorded, so that the nodes in question have
the same values in the end; and the same results of bodies are remembered. The scopes above the global one, all
known values, what the caller has to return and what was recorded before play no part. -/
theorem callee_noninterference (env : Setting) (active : List NodeId) (id : NodeId) (b b' : Bindings Float)
    (hb : b'.map (fun e => (e.1, Walk.shapeOf e.2)) = b.map fun e => (e.1, Walk.shapeOf e.2))
    {s s' : State} (h : s.Agrees s') :
    let r := (Walk.enter env active id b).run s
    let r' := (Walk.enter env active id b').run s'
    r'.1 = r.1 ∧
    (∃ new, (ofLog r.2.log).diagnostics = (ofLog s.log).diagnostics ++ new ∧
      (ofLog r'.2.log).diagnostics = (ofLog s'.log).diagnostics ++ new) ∧
    (∃ rs, recorded r.2.log = recorded s.log ++ rs ∧ recorded r'.2.log = recorded s'.log ++ rs ∧
      ∀ node, (∃ v, (node, v) ∈ rs) → (ofLog r'.2.log).result? node = (ofLog r.2.log).result? node) ∧
    ∀ key, r'.2.instances.lookup key = r.2.instances.lookup key := by
  intro r r'
  have hstart : OneGround (Since s s') s s' :=
    ⟨h.reserved, resembles_of_shapes h.globals, ⟨[], by simp⟩, ⟨[], by simp⟩, h.instances⟩
  obtain ⟨hresult, hsince⟩ :=
    Walk.enter_alike (recalling_since s s') env active id (forgotten_eq_of_shapes hb) hstart
  obtain ⟨ds, hds, hds'⟩ := hsince.raised
  obtain ⟨rs, hrs, hrs'⟩ := hsince.recorded
  obtain ⟨new, hnew, hnew'⟩ := reports_append ds h.reported
  refine ⟨hresult, ⟨new, ?_, ?_⟩, ⟨rs, hrs, hrs', fun node hnode => ?_⟩, hsince.instances⟩
  · rw [ofLog, hds, List.foldl_append]
    exact hnew
  · rw [ofLog, hds', List.foldl_append]
    exact hnew'
  · rw [result?, result?, ofLog, ofLog, hrs, hrs', List.foldl_append, List.foldl_append]
    exact lookup_results_eq (Or.inl hnode)

/-- Divides its argument by a global. -/
def sharing : FunctionDecl where
  node := ⟨0, .none⟩
  name := "share"
  params := [⟨"whole", .number, .none⟩]
  returns := some .number
  body := .mk [.ret ⟨1, .none⟩ (some (.binary ⟨2, .none⟩ .div (.var ⟨3, .none⟩ "whole") (.var ⟨4, .none⟩ "parts")))]
    .none
  isEntry := false

def State.knowing (parts : Quantity Float) : State where
  scopes := (ScopeStack.empty []).bind "parts" (.measurement parts)
  active := []
  frame := none
  instances := []
  log := []

/-- A walk inside a function with a variable of its own, after other values have been recorded. -/
def State.elsewhere (parts : Quantity Float) : State where
  scopes := ((knowing parts).scopes.push .function).bind "whole" .text
  active := [5]
  frame := some ⟨"report", .shape .number, some .flag⟩
  instances := []
  log := [.recorded 2 .text]

/-- A call at global level with a known zero as divisor comes to the same as one from inside a function. -/
theorem sharing_alike : ∃ c, Catalog.build ({} : Description Float) = .ok c ∧
    let env : Setting := ⟨c, .empty, [sharing], true⟩
    let r := (Walk.enter env [] 0 [("whole", .measurement (.ofValue c.number 6))]).run
      (State.knowing (.ofValue c.number 0))
    let r' := (Walk.enter env [] 0 [("whole", .measurement (.unknown c.number))]).run
      (State.elsewhere (.ofValue c.number 4))
    r'.1 = r.1 ∧ (ofLog r'.2.log).diagnostics = (ofLog r.2.log).diagnostics := by
  have hbuilds : (Catalog.build ({} : Description Float)).toOption.isSome = true := by decide +kernel
  obtain ⟨c, hc⟩ := Option.isSome_iff_exists.1 hbuilds
  have hagrees : (State.knowing (.ofValue c.number 0)).Agrees (.elsewhere (.ofValue c.number 4)) :=
    ⟨rfl, fun name => ?_, fun key => rfl, fun d => rfl⟩
  obtain ⟨hresult, ⟨new, hnew, hnew'⟩, -⟩ :=
    callee_noninterference ⟨c, .empty, [sharing], true⟩ [] 0 [("whole", .measurement (.ofValue c.number 6))]
      [("whole", .measurement (.unknown c.number))] rfl hagrees
  · exact ⟨c, Fallible.toOption_eq_some.1 hc, hresult, hnew'.trans hnew.symm⟩
  · change (List.lookup name [("parts", .measurement (.ofValue c.number 4))]).map Walk.shapeOf =
      (List.lookup name [("parts", .measurement (.ofValue c.number 0))]).map Walk.shapeOf
    rw [List.lookup_cons, List.lookup_cons]
    split <;> rfl

end Metrology.Analysis

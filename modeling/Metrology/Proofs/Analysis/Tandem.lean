import Metrology.Proofs.Analysis.Shown
import Metrology.Proofs.Analysis.Steps
import Metrology.Proofs.Program
import Metrology.Proofs.Quantity.Measured
import Metrology.Proofs.Scope.Alongside

/-! Two walks over one expression, in step with each other. They may stand in different functions and have
different histories; as long as the calls in the tree give both the same results, both find the same values
and raise the same problems. -/
namespace Metrology.Analysis

open Catalog

/-- Two walks have the same results, of some kind, from related states, and end in related states. -/
def InStep {β : Type} (R : State → State → Prop) (P : β → Prop) (x y : Walk β) : Prop :=
  ∀ s s', R s s' → (y.run s').1 = (x.run s).1 ∧ P (x.run s).1 ∧ R (x.run s).2 (y.run s').2

namespace InStep

variable {β γ : Type} {R : State → State → Prop} {P : β → Prop} {Q : γ → Prop}

theorem pure {b : β} (hb : P b) : InStep R P (Pure.pure b : Walk β) (Pure.pure b) :=
  fun _ _ h => ⟨rfl, hb, h⟩

theorem bind {x y : Walk β} {f g : β → Walk γ} (hxy : InStep R P x y)
    (hfg : ∀ b, P b → InStep R Q (f b) (g b)) : InStep R Q (x >>= f) (y >>= g) := by
  intro s s' h
  obtain ⟨hresult, hP, hstates⟩ := hxy s s' h
  rw [Walk.run_bind, Walk.run_bind, hresult]
  exact hfg _ hP _ _ hstates

end InStep

/-- A relation between states of two walks that goes on when the same findings and, at some nodes, the same
values go into both; what else is noted does not count. -/
structure Noted (A : NodeId → Prop) (R : State → State → Prop) : Prop where
  raised : ∀ {s s'}, R s s' → ∀ d, R ((Walk.note (.raised d)).run s).2 ((Walk.note (.raised d)).run s').2
  recorded : ∀ {s s'}, R s s' → ∀ id v, A id →
    R ((Walk.note (.recorded id v)).run s).2 ((Walk.note (.recorded id v)).run s').2
  silent : ∀ {s s'}, R s s' → ∀ e e', e.isSilent = true → e'.isSilent = true →
    R ((Walk.note e).run s).2 ((Walk.note e').run s').2

structure Pairing (A : NodeId → Prop) (L : State → State → Prop) : Prop extends Noted A L where
  indifferent : ∀ {s s'}, L s s' → ∀ scopes scopes' active active' frame frame',
    L { s with scopes, active, frame } { s' with scopes := scopes', active := active', frame := frame' }

structure Abreast (c : Catalog Float) (outer outer' : List (Scope Float)) (L : State → State → Prop)
    (n : Nat) (s s' : State) : Prop where
  scopes : s.scopes.Beside c.Covers c.reservedWords outer outer' n s'.scopes
  frame : s'.frame = s.frame
  covered : c.CoversAny s.inferred
  history : L s s'

theorem Pairing.abreast {c : Catalog Float} {outer outer' : List (Scope Float)} {A : NodeId → Prop}
    {L : State → State → Prop} {n : Nat} (hL : Pairing A L) : Noted A (Abreast c outer outer' L n) where
  raised h d := ⟨h.scopes, h.frame, h.covered, hL.raised h.history d⟩
  recorded h id v hid := ⟨h.scopes, h.frame, h.covered, hL.recorded h.history id v hid⟩
  silent h e e' he he' := ⟨h.scopes, h.frame, h.covered, hL.silent h.history e e' he he'⟩

/-- Arguments that go with the parameters of a function. -/
def Fits (c : Catalog Float) (params : List (String × TypeRef)) (bindings : Bindings Float) : Prop :=
  List.Forall₂ (fun p b => b.1 = p.1 ∧ c.Covers b.2 ∧ ∃ shape v, Shape.resolve c p.2 = some shape ∧
    Typing.coerce c shape v = .ok b.2) params bindings

theorem Fits.covers {c : Catalog Float} {params : List (String × TypeRef)} {bindings : Bindings Float}
    (h : Fits c params bindings) : ∀ b ∈ bindings, c.Covers b.2 := by
  induction h with
  | nil => nofun
  | cons hb _ ih => exact List.forall_mem_cons.2 ⟨hb.2.1, ih⟩

/-- The surroundings of two walks. Of the functions that may be called, calls give both the same results. -/
structure Tandem (c : Catalog Float) (outer outer' : List (Scope Float)) (L : State → State → Prop)
    (A : NodeId → Prop) (Called : String → Prop) (ctx ctx' : Context) : Prop extends Pairing A L where
  catalog : ctx.catalog = c
  catalog' : ctx'.catalog = c
  signatures : ctx'.signatures = ctx.signatures
  enter : ∀ callee signature bindings n, Called callee → ctx.signatures.lookup callee = some signature →
    Fits c signature.params bindings →
    InStep (Abreast c outer outer' L n) c.CoversAny
      (ctx.enter signature.decl.id bindings) (ctx'.enter signature.decl.id bindings)

def Permits (A : NodeId → Prop) (Called : String → Prop) (parts : List Part) : Prop :=
  ∀ part ∈ parts, A part.id ∧ ∀ callee ∈ part.callee, Called callee

section Permits

variable {A : NodeId → Prop} {Called : String → Prop} {parts parts' : List Part}

theorem permits_cons {part : Part} : Permits A Called (part :: parts) ↔
    (A part.id ∧ ∀ callee ∈ part.callee, Called callee) ∧ Permits A Called parts := by
  simp [Permits]

theorem permits_append : Permits A Called (parts ++ parts') ↔
    Permits A Called parts ∧ Permits A Called parts' := List.forall_mem_append

end Permits

namespace Outcome

variable {desc : Description Float} {c : Catalog Float}

def Covered (c : Catalog Float) (o : Outcome) : Prop := ∀ v, o = .value v → c.Covers v

theorem covered_failed : Covered c .failed := nofun

theorem covered_refused (p : Problem) : Covered c (.refused p) := nofun

theorem covered_value {v : Value Float} (hv : c.Covers v) : Covered c (.value v) := by
  intro w hw
  cases hw
  exact hv

theorem covered_ofTyping {r : Except (TypeError Float) (Value Float)} (hr : ∀ v, r = .ok v → c.Covers v) :
    Covered c (ofTyping r) := by
  cases r with
  | ok v => exact covered_value (hr v rfl)
  | error e => exact covered_refused _

theorem covered_number (h : build desc = .ok c) (x : Float) (unit : Option String) :
    Covered c (number c x unit) := by
  cases unit with
  | none => exact covered_value (.declared (number_mem h))
  | some word =>
    cases hw : c.lookup word with
    | none => simpa [number, hw] using covered_refused _
    | some u =>
      have hu : c.Covers (.measurement (.ofValue u x)) := .declared (Registry.mem_of_lookup hw)
      simpa [number, hw] using covered_value hu

theorem covered_var {scopes : ScopeStack Float} (hs : scopes.top.bindings.Holds c.Covers) (name : String) :
    Covered c (var scopes name) := by
  cases hv : scopes.get? name with
  | none => simpa [var, hv] using covered_refused _
  | some v => simpa [var, hv] using covered_value (hs name v hv)

theorem covered_unary (op : UnaryOp) {v : Option (Value Float)} (hv : c.CoversAny v) :
    Covered c (unary op v) := by
  cases v with
  | none => exact covered_failed
  | some v => exact covered_ofTyping fun w hw => Covers.unary (hv v rfl) hw

theorem covered_binary (h : build desc = .ok c) (op : BinaryOp) {left right : Option (Value Float)}
    (hl : c.CoversAny left) (hr : c.CoversAny right) : Covered c (binary c op left right) := by
  match left, right with
  | none, none | none, some _ | some _, none => exact covered_failed
  | some l, some r => exact covered_ofTyping fun w hw => Covers.binary h (hl l rfl) (hr r rfl) hw

theorem covered_cast (word : String) (v : Option (Value Float)) : Covered c (cast c word v).1 := by
  match v with
  | none => exact covered_failed
  | some v =>
    cases hw : c.lookup word with
    | none => simpa [cast, hw] using covered_refused _
    | some target =>
      have htarget : c.Measures target := .declared (Registry.mem_of_lookup hw)
      cases hcast : Typing.cast c target v with
      | error e => simpa [cast, hw, hcast] using covered_refused _
      | ok r => simpa [cast, hw, hcast] using covered_value (Covers.cast htarget hcast)

end Outcome

def CallResult.Covered (c : Catalog Float) (r : CallResult) : Prop := ∀ v, r = .value v → c.Covers v

namespace Walk

variable {desc : Description Float} {c : Catalog Float} {outer outer' : List (Scope Float)}
  {L : State → State → Prop} {A : NodeId → Prop} {Called : String → Prop} {ctx ctx' : Context} {n : Nat}

theorem covered_callResult (h : build desc = .ok c) (returns : Option TypeRef)
    {inferred : Option (Value Float)} (hinferred : c.CoversAny inferred) :
    (callResult c returns inferred).Covered c := by
  intro v hv
  cases returns with
  | none => cases hv
  | some type =>
    cases hshape : Shape.resolve c type with
    | none => simp [callResult, hshape] at hv
    | some shape =>
      have hplaceholder := Covers.placeholder h hshape
      cases shape with
      | number =>
        simp only [callResult, hshape] at hv
        split at hv
        · next q =>
          cases hv
          exact covers_forgotten c _ (hinferred _ rfl)
        · cases hv
          exact hplaceholder
      | _ =>
        simp only [callResult, hshape] at hv
        cases hv
        exact hplaceholder

/-- What is bound to the parameters fits them. -/
theorem fits_of_bindArguments (h : build desc = .ok c) {callee : String} {position : Nat}
    {params : List (String × TypeRef)} {args : List (Value Float × Span)} {bindings : Bindings Float}
    (hlength : params.length = args.length) (hargs : ∀ a ∈ args, c.Covers a.1)
    (hb : bindArguments c callee position params args = .ok bindings) : Fits c params bindings := by
  induction params generalizing position args bindings with
  | nil =>
    cases hb
    exact .nil
  | cons p params ih =>
    cases args with
    | nil => cases hlength
    | cons a args =>
      rw [bindArguments] at hb
      split at hb
      · cases hb
      · next shape hshape =>
        split at hb
        · cases hb
        · next v hv =>
          obtain ⟨rest, hrest, hb⟩ := Fallible.bind_eq_ok.1 hb
          cases hb
          have hcovers := Covers.coerce h hshape (hargs a List.mem_cons_self) hv
          exact .cons ⟨rfl, hcovers, shape, a.1, hshape, hv⟩
            (ih (Nat.succ.inj hlength) (fun b hb => hargs b (List.mem_cons_of_mem a hb)) hrest)

theorem mapM_id_eq_some {values : List (Option (Value Float))} {vs : List (Value Float)}
    (h : values.mapM id = some vs) : values = vs.map some := by
  induction values generalizing vs with
  | nil =>
    cases h
    rfl
  | cons v values ih =>
    rw [List.mapM_cons] at h
    obtain ⟨w, hw, h⟩ := Option.bind_eq_some_iff.1 h
    obtain ⟨ws, hws, h⟩ := Option.bind_eq_some_iff.1 h
    cases h
    rw [ih hws, show v = some w from hw]
    rfl

theorem fits_of_call (h : build desc = .ok c) {callee : String} {signature : Signature} {args : List Expr}
    {vs : List (Value Float)} {bindings : Bindings Float} (hlength : (vs.map some).length = args.length)
    (harity : signature.arity = vs.length) (hvalues : ∀ v ∈ vs.map some, c.CoversAny v)
    (hb : bindArguments c callee 1 signature.params (vs.zip (args.map fun e => e.node.span)) = .ok bindings) :
    Fits c signature.params bindings := by
  refine fits_of_bindArguments h ?_ ?_ hb
  · have hparams : signature.params.length = vs.length := harity
    simp only [List.length_map] at hlength
    simp [hparams, ← hlength]
  · intro a ha
    have hmem := List.mem_map_of_mem (f := some) (List.of_mem_zip ha).1
    exact hvalues (some a.1) hmem a.1 rfl

section Noted

variable {R : State → State → Prop} (hR : Noted A R)

include hR

theorem note_inStep (e e' : Event) (he : e.isSilent = true) (he' : e'.isSilent = true) :
    InStep R (fun _ => True) (note e) (note e') :=
  fun _ _ h => ⟨rfl, trivial, hR.silent h e e' he he'⟩

theorem raise_inStep (p : Problem) (span : Span) :
    InStep R (fun _ => True) (raise p span) (raise p span) :=
  fun _ _ h => ⟨rfl, trivial, hR.raised h _⟩

theorem record_inStep {id : NodeId} (hid : A id) (v : Value Float) :
    InStep R (fun _ => True) (record id v) (record id v) :=
  fun _ _ h => ⟨rfl, trivial, hR.recorded h id v hid⟩

theorem settle_inStep {node : Node} (hid : A node.id) {o : Outcome} (ho : o.Covered c) :
    InStep R c.CoversAny (settle node o) (settle node o) := by
  have concluded {r : Option (Value Float)} (hr : c.CoversAny r) :
      InStep R c.CoversAny (do note (.exprVisit node r); return r)
        (do note (.exprVisit node r); return r) :=
    (note_inStep hR (.exprVisit node r) (.exprVisit node r) rfl rfl).bind fun _ _ => .pure hr
  cases o with
  | value v =>
    have hv : c.CoversAny (some v) := by
      rintro w ⟨⟩
      exact ho v rfl
    exact (record_inStep hR hid v).bind fun _ _ => concluded hv
  | refused p => exact (raise_inStep hR p node.span).bind fun _ _ => concluded nofun
  | failed => exact concluded nofun

end Noted

theorem applyCall_inStep (h : build desc = .ok c) (ht : Tandem c outer outer' L A Called ctx ctx')
    (node : Node) {callee : String} (hcallee : Called callee) {args : List Expr}
    {values : List (Option (Value Float))} (hlength : values.length = args.length)
    (hvalues : ∀ v ∈ values, c.CoversAny v) :
    InStep (Abreast c outer outer' L n) (CallResult.Covered c) (applyCall ctx node callee args values)
      (applyCall ctx' node callee args values) := by
  have concluded (bindings : Option (Bindings Float)) {result : CallResult} (hresult : result.Covered c) :
      InStep (Abreast c outer outer' L n) (CallResult.Covered c)
        (do note (.callVisit node callee bindings result); return result)
        (do note (.callVisit node callee bindings result); return result) :=
    (note_inStep ht.abreast _ _ rfl rfl).bind fun _ _ => .pure hresult
  have refused (p : Problem) (span : Span) :
      InStep (Abreast c outer outer' L n) (CallResult.Covered c)
        (do raise p span; note (.callVisit node callee none .invalid); return CallResult.invalid)
        (do raise p span; note (.callVisit node callee none .invalid); return CallResult.invalid) :=
    (raise_inStep ht.abreast p span).bind fun _ _ => concluded none nofun
  unfold applyCall
  rw [ht.catalog, ht.catalog', ht.signatures]
  cases hv : values.mapM id with
  | none => exact concluded none nofun
  | some vs =>
    obtain rfl := mapM_id_eq_some hv
    cases hl : ctx.signatures.lookup callee with
    | none => exact refused _ _
    | some signature =>
      dsimp only
      split
      · exact refused _ _
      · next harity =>
        split
        · next misfit _ =>
          cases misfit with
          | none => exact concluded none nofun
          | some misfit => exact refused misfit.1 misfit.2
        · next bindings hbindings =>
          have hfits := fits_of_call h hlength (not_not.1 harity) hvalues hbindings
          refine (ht.enter callee signature bindings n hcallee hl hfits).bind fun r hr => ?_
          exact (note_inStep ht.abreast _ _ rfl rfl).bind fun _ _ =>
            concluded (some bindings) (covered_callResult h signature.returns hr)

theorem warned_inStep (ht : Tandem c outer outer' L A Called ctx ctx') {node : Node} (hid : A node.id)
    {outcome : Outcome} (ho : outcome.Covered c) (warning : Option Problem) :
    InStep (Abreast c outer outer' L n) c.CoversAny
      (do if let some p := warning then raise p node.span
          settle node outcome)
      (do if let some p := warning then raise p node.span
          settle node outcome) := by
  have hsettle : InStep (Abreast c outer outer' L n) c.CoversAny (settle node outcome)
      (settle node outcome) := settle_inStep ht.abreast hid ho
  cases warning with
  | none => exact hsettle
  | some p => exact (raise_inStep ht.abreast p node.span).bind fun _ _ => hsettle

mutual

theorem expr_inStep (h : build desc = .ok c) (ht : Tandem c outer outer' L A Called ctx ctx')
    (e : Expr) (hparts : Permits A Called e.parts) :
    InStep (Abreast c outer outer' L n) c.CoversAny (expr ctx e) (expr ctx' e) := by
  match e with
  | .number node value unit =>
    rw [expr, expr, ht.catalog, ht.catalog']
    exact settle_inStep ht.abreast (permits_cons.1 hparts).1.1 (Outcome.covered_number h value unit)
  | .text node _ =>
    rw [expr, expr]
    exact settle_inStep ht.abreast (permits_cons.1 hparts).1.1 (Outcome.covered_value trivial)
  | .flag node _ =>
    rw [expr, expr]
    exact settle_inStep ht.abreast (permits_cons.1 hparts).1.1 (Outcome.covered_value trivial)
  | .var node name =>
    rw [expr, expr]
    intro s s' hs
    have hvar : Outcome.var s'.scopes name = Outcome.var s.scopes name := by
      simp only [Outcome.var, hs.scopes.get?_eq]
    rw [run_bind, run_bind, run_scopes, run_scopes, hvar]
    exact settle_inStep ht.abreast (permits_cons.1 hparts).1.1
      (Outcome.covered_var hs.scopes.holds name) s s' hs
  | .unary node op operand =>
    obtain ⟨⟨hid, _⟩, hoperand⟩ := permits_cons.1 hparts
    rw [expr, expr]
    exact (expr_inStep h ht operand hoperand).bind fun v hv =>
      settle_inStep ht.abreast hid (Outcome.covered_unary op hv)
  | .binary node op left right =>
    obtain ⟨⟨hid, _⟩, hoperands⟩ := permits_cons.1 hparts
    obtain ⟨hleft, hright⟩ := permits_append.1 hoperands
    rw [expr, expr, ht.catalog, ht.catalog']
    exact (expr_inStep h ht left hleft).bind fun l hl => (expr_inStep h ht right hright).bind fun r hr =>
      settle_inStep ht.abreast hid (Outcome.covered_binary h op hl hr)
  | .cast node unit operand =>
    obtain ⟨⟨hid, _⟩, hoperand⟩ := permits_cons.1 hparts
    rw [expr, expr, ht.catalog, ht.catalog']
    exact (expr_inStep h ht operand hoperand).bind fun v _ =>
      warned_inStep ht hid (Outcome.covered_cast unit v) _
  | .call node callee args =>
    obtain ⟨⟨hid, hcallee⟩, hargs⟩ := permits_cons.1 hparts
    rw [expr, expr]
    refine (exprs_inStep h ht args hargs).bind fun values hvalues => ?_
    refine (applyCall_inStep h ht node (hcallee callee rfl) hvalues.1 hvalues.2).bind fun result hr => ?_
    refine settle_inStep ht.abreast hid ?_
    cases result with
    | invalid => exact Outcome.covered_failed
    | void => exact Outcome.covered_refused _
    | value v => exact Outcome.covered_value (hr v rfl)

theorem exprs_inStep (h : build desc = .ok c) (ht : Tandem c outer outer' L A Called ctx ctx')
    (es : List Expr) (hparts : Permits A Called (Expr.partsOfList es)) :
    InStep (Abreast c outer outer' L n)
      (fun vs => vs.length = es.length ∧ ∀ v ∈ vs, c.CoversAny v) (exprs ctx es) (exprs ctx' es) := by
  match es with
  | [] =>
    rw [exprs, exprs]
    exact .pure ⟨rfl, nofun⟩
  | e :: es =>
    obtain ⟨hfirst, hrest⟩ := permits_append.1 hparts
    rw [exprs, exprs]
    refine (expr_inStep h ht e hfirst).bind fun v hv => ?_
    refine (exprs_inStep h ht es hrest).bind fun vs hvs => .pure ?_
    exact ⟨congrArg (· + 1) hvs.1, List.forall_mem_cons.2 ⟨hv, hvs.2⟩⟩

end

theorem condition_inStep (h : build desc = .ok c) (ht : Tandem c outer outer' L A Called ctx ctx')
    (e : Expr) (hparts : Permits A Called e.parts) :
    InStep (Abreast c outer outer' L n) (fun _ => True) (condition ctx e) (condition ctx' e) := by
  have concluded (ok : Bool) : InStep (Abreast c outer outer' L n) (fun _ => True)
      (do note (.conditionVisit e.node ok); return ok) (do note (.conditionVisit e.node ok); return ok) :=
    (note_inStep ht.abreast _ _ rfl rfl).bind fun _ _ => .pure trivial
  have refused (p : Problem) : InStep (Abreast c outer outer' L n) (fun _ => True)
      (do raise p e.node.span; note (.conditionVisit e.node false); return false)
      (do raise p e.node.span; note (.conditionVisit e.node false); return false) :=
    (raise_inStep ht.abreast p e.node.span).bind fun _ _ => concluded false
  refine (expr_inStep h ht e hparts).bind fun v _ => ?_
  match v with
  | some .flag => exact concluded true
  | some .text => exact refused _
  | some (.measurement q) => exact refused _
  | none => exact concluded false

theorem valued_inStep (h : build desc = .ok c) (ht : Tandem c outer outer' L A Called ctx ctx')
    (e : Expr) (hparts : Permits A Called e.parts) :
    InStep (Abreast c outer outer' L n) (fun _ => True) (do return (← expr ctx e).isSome)
      (do return (← expr ctx' e).isSome) :=
  (expr_inStep h ht e hparts).bind fun _ _ => .pure trivial

end Walk

end Metrology.Analysis

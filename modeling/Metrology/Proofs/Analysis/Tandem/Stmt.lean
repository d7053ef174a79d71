import Metrology.Proofs.Analysis.Composition
import Metrology.Proofs.Analysis.Tandem

/-! Two walks over the same statements, in step with each other. -/
namespace Metrology.Analysis

open Catalog

namespace Walk

variable {desc : Description Float} {c : Catalog Float} {outer outer' : List (Scope Float)}
  {L : State → State → Prop} {A : NodeId → Prop} {Called : String → Prop} {ctx ctx' : Context} {n : Nat}

theorem covers_placeholderFor (h : build desc = .ok c) (type : TypeRef) :
    c.Covers (placeholderFor c type) := by
  unfold placeholderFor
  cases hshape : Shape.resolve c type with
  | none => exact .declared (number_mem h)
  | some shape => exact Covers.placeholder h hshape

/-- What is returned first is kept, so covered values stay so. -/
theorem coversAny_infer {s : State} (hs : c.CoversAny s.inferred) {v : Value Float} (hv : c.Covers v) :
    c.CoversAny ((infer v).run s).2.inferred := by
  intro w hw
  obtain ⟨_, hmap, hw⟩ := Option.bind_eq_some_iff.1 hw
  obtain ⟨frame, hframe, rfl⟩ := Option.map_eq_some_iff.1 hmap
  rw [Frame.infer] at hw
  cases hfirst : frame.inferred with
  | none =>
    rw [hfirst] at hw
    cases hw
    exact hv
  | some u =>
    rw [hfirst] at hw
    exact hs w (Option.bind_eq_some_iff.2 ⟨frame, hframe, hfirst.trans hw⟩)

section Steps

variable (hL : Pairing A L)

include hL

theorem bindPlaceholder_inStep (h : build desc = .ok c) (name : String) (type : TypeRef) :
    InStep (Abreast c outer outer' L n) (fun _ => True) (bindPlaceholder c name type)
      (bindPlaceholder c name type) := by
  intro s s' hs
  refine ⟨rfl, trivial, ?_⟩
  simp only [bindPlaceholder, run_bind, run_scopes]
  rcases hs.scopes.declare name (covers_placeholderFor h type) with ⟨e, he, he'⟩ | ⟨t, t', ht, ht', hscopes⟩
  · rw [he, he']
    exact hs
  · rw [ht, ht']
    exact ⟨hscopes, hs.frame, hs.covered, hL.indifferent hs.history t t' _ _ _ _⟩

theorem commit_inStep {node : Node} (hid : A node.id) (v : Value Float) {s s' : State}
    (hs : Abreast c outer outer' L n s s') {r r' : Except ScopeError (ScopeStack Float)}
    (hr : (∃ e, r = .error e ∧ r' = .error e) ∨
      ∃ t t', r = .ok t ∧ r' = .ok t' ∧ t.Beside c.Covers c.reservedWords outer outer' n t') :
    ((commit node v r').run s').1 = ((commit node v r).run s).1 ∧
      Abreast c outer outer' L n ((commit node v r).run s).2 ((commit node v r').run s').2 := by
  rcases hr with ⟨e, rfl, rfl⟩ | ⟨t, t', rfl, rfl, hscopes⟩
  · exact ⟨rfl, (raise_inStep hL.abreast (.scope e) node.span s s' hs).2.2⟩
  · have ht : Abreast c outer outer' L n { s with scopes := t } { s' with scopes := t' } :=
      ⟨hscopes, hs.frame, hs.covered, hL.indifferent hs.history t t' _ _ _ _⟩
    exact ⟨rfl, (record_inStep hL.abreast hid v _ _ ht).2.2⟩

theorem declare_inStep (h : build desc = .ok c) {node : Node} (hid : A node.id) (type : TypeRef)
    (name : String) {init : Option (Option (Value Float))} (hinit : c.CoversAny init.join) :
    InStep (Abreast c outer outer' L n) (fun _ => True) (declare c node type name init)
      (declare c node type name init) := by
  have failed : InStep (Abreast c outer outer' L n) (fun _ => True)
      (do bindPlaceholder c name type; return false) (do bindPlaceholder c name type; return false) :=
    (bindPlaceholder_inStep hL h name type).bind fun _ _ => .pure trivial
  have refused (p : Problem) : InStep (Abreast c outer outer' L n) (fun _ => True)
      (do raise p node.span; bindPlaceholder c name type; return false)
      (do raise p node.span; bindPlaceholder c name type; return false) :=
    (raise_inStep hL.abreast p node.span).bind fun _ _ => failed
  unfold declare
  split
  · exact failed
  all_goals
    split
    · exact refused _
    · next shape hshape =>
      split
      · exact refused _
      · next v hv =>
        intro s s' hs
        have hcovers := Covers.initial h hshape hinit hv
        have hcommit := commit_inStep hL hid v hs (hs.scopes.declare name hcovers)
        exact ⟨hcommit.1, trivial, hcommit.2⟩

theorem assign_inStep {node : Node} (hid : A node.id) (target : String) (value : Option (Value Float)) :
    InStep (Abreast c outer outer' L n) (fun _ => True) (assign c node target value)
      (assign c node target value) := by
  have refused (p : Problem) : InStep (Abreast c outer outer' L n) (fun _ => True)
      (do raise p node.span; return false) (do raise p node.span; return false) :=
    (raise_inStep hL.abreast p node.span).bind fun _ _ => .pure trivial
  unfold assign
  split
  · exact .pure trivial
  · intro s s' hs
    simp only [run_bind, run_scopes, hs.scopes.get?_eq]
    cases hcurrent : s.scopes.get? target with
    | none => exact refused _ s s' hs
    | some current =>
      dsimp only
      split
      · exact refused _ s s' hs
      · next v hv =>
        have hshape := Typing.forgotten_of_coerce hv (shapeOf_ne_number current)
        rw [placeholder_shapeOf] at hshape
        have hcovers : c.Covers v :=
          .of_forgotten (hshape ▸ covers_forgotten c current (hs.scopes.holds target current hcurrent))
        have hcommit := commit_inStep hL hid v hs
          (hs.scopes.assign (covers_forgotten c) target hcovers)
        exact ⟨hcommit.1, trivial, hcommit.2⟩

theorem infer_inStep {v : Value Float} (hv : c.Covers v) :
    InStep (Abreast c outer outer' L n) (fun _ => True) (infer v) (infer v) := by
  intro s s' hs
  refine ⟨rfl, trivial, hs.scopes, ?_, ?_, hL.indifferent hs.history _ _ _ _ _ _⟩
  · rw [run_infer, run_infer, hs.frame]
  · exact coversAny_infer hs.covered hv

theorem giveBack_inStep (h : build desc = .ok c) (hcatalog : ctx.catalog = c) (hcatalog' : ctx'.catalog = c)
    (node : Node) {value : Option (Value Float)} (hvalue : c.CoversAny value) :
    InStep (Abreast c outer outer' L n) (fun _ => True) (giveBack ctx node value)
      (giveBack ctx' node value) := by
  have refused (p : Problem) : InStep (Abreast c outer outer' L n) (fun _ => True)
      (do raise p node.span; return false) (do raise p node.span; return false) :=
    (raise_inStep hL.abreast p node.span).bind fun _ _ => .pure trivial
  have checked (frame : Option Frame) : InStep (Abreast c outer outer' L n) (fun _ => True)
      (checkReturn c node frame value) (checkReturn c node frame value) := by
    unfold checkReturn
    dsimp only
    split
    · exact refused _
    · split
      · exact .pure trivial
      · exact .pure trivial
      · exact refused _
      · exact refused _
      · next shape v _ =>
        split
        · exact refused _
        · next w hw =>
          split
          · next hnumber =>
            subst hnumber
            have hshape : Shape.resolve c .number = some .number := rfl
            have hcovers : c.Covers w := Covers.coerce h hshape (hvalue v rfl) hw
            exact (infer_inStep hL hcovers).bind fun _ _ => .pure trivial
          · exact .pure trivial
  intro s s' hs
  rw [run_giveBack, run_giveBack, hcatalog, hcatalog', hs.frame]
  exact checked s.frame s s' hs

theorem nested_inStep {β : Type} {P : β → Prop} {x y : Walk β}
    (h : InStep (Abreast c outer outer' L (n + 1)) P x y) :
    InStep (Abreast c outer outer' L n) P (nested .block x) (nested .block y) := by
  intro s s' hs
  rw [run_nested, run_nested]
  have hpush : Abreast c outer outer' L (n + 1) { s with scopes := s.scopes.push .block }
      { s' with scopes := s'.scopes.push .block } :=
    ⟨hs.scopes.push_block (covers_forgotten c), hs.frame, hs.covered,
      hL.indifferent hs.history _ _ _ _ _ _⟩
  obtain ⟨hresult, hP, ht⟩ := h _ _ hpush
  exact ⟨hresult, hP, ht.scopes.truncate hs.scopes, ht.frame, ht.covered,
    hL.indifferent ht.history _ _ _ _ _ _⟩

theorem visiting_inStep {P : Bool → Prop} (node : Node) {x y : Walk Bool}
    (h : InStep (Abreast c outer outer' L n) P x y) :
    InStep (Abreast c outer outer' L n) P (visiting ctx node x) (visiting ctx' node y) := by
  intro s s' hs
  obtain ⟨hresult, hP, ht⟩ := h s s' hs
  exact ⟨hresult, hP, (note_inStep hL.abreast _ _ rfl rfl _ _ ht).2.2⟩

theorem startBody_inStep (control : Control) :
    InStep (Abreast c outer outer' L n) (fun _ => True) (startBody control) (startBody control) := by
  intro s s' hs
  exact note_inStep hL.abreast (.bodyStart control s.scopes) (.bodyStart control s'.scopes) rfl rfl s s' hs

end Steps

variable (h : build desc = .ok c) (ht : Tandem c outer outer' L A Called ctx ctx')

include h ht

theorem simple_inStep {st : Stmt} (hst : st.isSimple = true) (hparts : Permits A Called (Piece.simple st).parts) :
    InStep (Abreast c outer outer' L n) (fun _ => True) (stmt ctx st) (stmt ctx' st) := by
  cases st with
  | branch | whileLoop | forLoop => cases hst
  | declare node type name init =>
    obtain ⟨⟨hid, _⟩, hinit⟩ := permits_cons.1 hparts
    cases init with
    | none =>
      rw [stmt, stmt, ht.catalog, ht.catalog']
      exact visiting_inStep ht.toPairing node (declare_inStep ht.toPairing h hid type name nofun)
    | some init =>
      rw [stmt, stmt, ht.catalog, ht.catalog']
      refine visiting_inStep ht.toPairing node ((expr_inStep h ht init hinit).bind fun v hv => ?_)
      exact declare_inStep ht.toPairing h hid type name hv
  | assign node target value =>
    obtain ⟨⟨hid, _⟩, hvalue⟩ := permits_cons.1 hparts
    rw [stmt, stmt, ht.catalog, ht.catalog']
    refine visiting_inStep ht.toPairing node ((expr_inStep h ht value hvalue).bind fun v _ => ?_)
    exact assign_inStep ht.toPairing hid target v
  | ret node value =>
    obtain ⟨_, hvalue⟩ := permits_cons.1 hparts
    cases value with
    | none =>
      rw [stmt, stmt]
      exact visiting_inStep ht.toPairing node (giveBack_inStep ht.toPairing h ht.catalog ht.catalog' node nofun)
    | some value =>
      rw [stmt, stmt]
      refine visiting_inStep ht.toPairing node ((expr_inStep h ht value hvalue).bind fun v hv => ?_)
      cases v with
      | none => exact .pure trivial
      | some v => exact giveBack_inStep ht.toPairing h ht.catalog ht.catalog' node hv
  | print node value =>
    obtain ⟨_, hvalue⟩ := permits_cons.1 hparts
    rw [stmt, stmt]
    exact visiting_inStep ht.toPairing node (valued_inStep h ht value hvalue)
  | expr node value =>
    obtain ⟨_, hvalue⟩ := permits_cons.1 hparts
    have hvalued := valued_inStep (n := n) h ht value hvalue
    cases value with
    | call callNode callee args =>
      obtain ⟨⟨_, hcallee⟩, hargs⟩ := permits_cons.1 hvalue
      rw [stmt, stmt]
      refine visiting_inStep ht.toPairing node ((exprs_inStep h ht args hargs).bind fun values hv => ?_)
      exact (applyCall_inStep h ht callNode (hcallee callee rfl) hv.1 hv.2).bind fun _ _ => .pure trivial
    | _ =>
      simp only [stmt]
      exact visiting_inStep ht.toPairing node hvalued

theorem inStep_compositional : Compositional ctx ctx' fun ps x y => Permits A Called (ps.flatMap Piece.parts) →
    ∀ n, InStep (Abreast c outer outer' L n) (fun _ => True) x y where
  nothing _ _ := .pure trivial
  both hx hy hparts n := by
    rw [List.flatMap_append] at hparts
    obtain ⟨hfirst, hrest⟩ := permits_append.1 hparts
    exact (hx hfirst n).bind fun _ _ => (hy hrest n).bind fun _ _ => .pure trivial
  simple st hst hparts _ := by
    rw [List.flatMap_singleton] at hparts
    exact simple_inStep h ht hst hparts
  test e hparts _ := by
    rw [List.flatMap_singleton] at hparts
    exact condition_inStep h ht e hparts
  visiting node _ _ _ hx hparts n := visiting_inStep ht.toPairing node (hx (permits_cons.1 hparts).2 n)
  nested hx hparts n := nested_inStep ht.toPairing (hx hparts (n + 1))
  start control _ _ _ hx hparts n := (startBody_inStep ht.toPairing control).bind fun _ _ => hx hparts n

theorem stmts_inStep (sts : List Stmt) (n : Nat) (hparts : Permits A Called (Stmt.partsOfList sts)) :
    InStep (Abreast c outer outer' L n) (fun _ => True) (stmts ctx sts) (stmts ctx' sts) :=
  (inStep_compositional h ht).composed.stmts sts hparts n

end Walk

end Metrology.Analysis

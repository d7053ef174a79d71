import Mathlib.Data.List.Forall2
import Mathlib.Tactic.Common
import Metrology.Scope

/-! What can happen to scopes while others are open inside them. Along a chain of blocks a variable
outside can only be forgotten, up to and with the function around the chain. Beyond it nothing changes. -/
namespace Metrology

variable {α : Type}

/-- A value is kept or forgotten. -/
def Fades (v w : Option (Value α)) : Prop := w = v ∨ w = v.map Value.forgotten

namespace Fades

theorem trans {u v w : Option (Value α)} (huv : Fades u v) (hvw : Fades v w) : Fades u w := by
  rcases huv with rfl | rfl
  · exact hvw
  · right
    rcases hvw with rfl | rfl
    · rfl
    · cases u <;> simp

theorem modify (b : Bindings α) (name n : String) :
    Fades (b.get? n) ((b.modify name Value.forgotten).get? n) := by
  rw [Bindings.get?_modify]
  split
  · exact Or.inr rfl
  · exact Or.inl rfl

theorem shape {v : Value α} {w : Option (Value α)} (h : Fades (some v) w) :
    ∃ w', w = some w' ∧ w'.forgotten = v.forgotten := by
  rcases h with rfl | rfl
  · exact ⟨v, rfl, rfl⟩
  · exact ⟨v.forgotten, rfl, v.forgotten_forgotten⟩

end Fades

/-- A scope keeps exactly its names, each with its value or the forgotten form of it. -/
def Scope.Faded (s t : Scope α) : Prop :=
  t.kind = s.kind ∧ ∀ name, Fades (s.bindings.get? name) (t.bindings.get? name)

theorem Scope.Faded.refl (s : Scope α) : s.Faded s := ⟨rfl, fun _ => Or.inl rfl⟩

theorem Scope.Faded.trans {s t u : Scope α} (hst : s.Faded t) (htu : t.Faded u) : s.Faded u :=
  ⟨htu.1.trans hst.1, fun name => (hst.2 name).trans (htu.2 name)⟩

theorem Scope.Faded.forall₂_trans {a b c : List (Scope α)} (hab : List.Forall₂ Scope.Faded a b)
    (hbc : List.Forall₂ Scope.Faded b c) : List.Forall₂ Scope.Faded a c := by
  induction hab generalizing c with
  | nil => exact hbc
  | cons h _ ih =>
    cases hbc with
    | cons h' hrest => exact .cons (h.trans h') (ih hrest)

/-- What an assignment inside can do to the scopes around, given the kind of the scope inside. -/
inductive FadesOutward : Scope.Kind → List (Scope α) → List (Scope α) → Prop
  | function (scopes : List (Scope α)) : FadesOutward .function scopes scopes
  | nil : FadesOutward .block [] []
  | block {scope scope' : Scope α} {rest rest' : List (Scope α)} (kind : scope'.kind = scope.kind)
      (bindings : ∀ name, Fades (scope.bindings.get? name) (scope'.bindings.get? name))
      (outward : FadesOutward scope.kind rest rest') :
      FadesOutward .block (scope :: rest) (scope' :: rest')

namespace FadesOutward

theorem refl (kind : Scope.Kind) (scopes : List (Scope α)) : FadesOutward kind scopes scopes := by
  induction scopes generalizing kind with
  | nil => cases kind with
    | function => exact .function []
    | block => exact .nil
  | cons scope rest ih => cases kind with
    | function => exact .function _
    | block => exact .block rfl (fun _ => Or.inl rfl) (ih scope.kind)

theorem trans {kind : Scope.Kind} {a b c : List (Scope α)} (hab : FadesOutward kind a b)
    (hbc : FadesOutward kind b c) : FadesOutward kind a c := by
  induction hab generalizing c with
  | function => exact hbc
  | nil => exact hbc
  | @block scope scope' rest rest' kind bindings outward ih =>
    cases hbc with
    | block kind' bindings' outward' =>
      exact .block (kind'.trans kind) (fun name => (bindings name).trans (bindings' name))
        (ih (kind ▸ outward'))

theorem length_eq {kind : Scope.Kind} {a b : List (Scope α)} (h : FadesOutward kind a b) :
    b.length = a.length := by
  induction h with
  | function => rfl
  | nil => rfl
  | block kind bindings outward ih => rw [List.length_cons, List.length_cons, ih]

theorem forgetOutward (name : String) (scopes : List (Scope α)) :
    FadesOutward .block scopes (ScopeStack.forgetOutward name scopes) := by
  induction scopes with
  | nil => exact .nil
  | cons scope rest ih =>
    refine .block rfl (Fades.modify scope.bindings name) ?_
    cases scope.kind with
    | function => exact .function rest
    | block => exact ih

theorem faded {kind : Scope.Kind} {a b : List (Scope α)} (h : FadesOutward kind a b) :
    List.Forall₂ Scope.Faded a b := by
  induction h with
  | function scopes => exact List.forall₂_same.2 fun scope _ => .refl scope
  | nil => exact .nil
  | block kind bindings outward ih => exact .cons ⟨kind, bindings⟩ ih

end FadesOutward

namespace ScopeStack

/-- How scopes go on while statements run in the innermost one: it gains and changes bindings, and those
around it fade. -/
structure Keeps (s t : ScopeStack α) : Prop where
  kind : t.top.kind = s.top.kind
  below : FadesOutward s.top.kind s.below t.below
  reserved : t.reserved = s.reserved

/-- How scopes go on while one statement runs, which can give a new value to its target only. -/
structure Moves (target : Option String) (s t : ScopeStack α) : Prop extends Keeps s t where
  top : ∀ name, target ≠ some name → Fades (s.get? name) (t.get? name)

/-- Every visible name is still visible, with its category and unit. -/
def KeepsShapes (s t : ScopeStack α) : Prop :=
  ∀ name v, s.get? name = some v → ∃ w, t.get? name = some w ∧ w.forgotten = v.forgotten

variable {s t u : ScopeStack α}

theorem KeepsShapes.refl (s : ScopeStack α) : s.KeepsShapes s := fun _ v h => ⟨v, h, rfl⟩

theorem KeepsShapes.trans (hst : s.KeepsShapes t) (htu : t.KeepsShapes u) : s.KeepsShapes u := by
  intro name v hv
  obtain ⟨w, hw, hshape⟩ := hst name v hv
  obtain ⟨w', hw', hshape'⟩ := htu name w hw
  exact ⟨w', hw', hshape'.trans hshape⟩

/-- It is enough to look at the name that is given a value. -/
theorem Moves.keepsShapes {target : Option String} (h : s.Moves target t)
    (htarget : ∀ name v, target = some name → s.get? name = some v →
      ∃ w, t.get? name = some w ∧ w.forgotten = v.forgotten) : s.KeepsShapes t := by
  intro name v hv
  by_cases hname : target = some name
  · exact htarget name v hname hv
  · exact (hv ▸ h.top name hname).shape

theorem Keeps.depth_eq (h : s.Keeps t) : t.depth = s.depth := congrArg (· + 1) h.below.length_eq

theorem get?_eq_none_of_declare {name : String} {v : Value α} (h : s.declare name v = .ok t) :
    s.get? name = none := by
  unfold declare at h
  split at h
  · cases h
  · split at h
    · cases h
    · next hfree => exact Option.not_isSome_iff_eq_none.1 hfree

theorem Keeps.refl (s : ScopeStack α) : s.Keeps s := ⟨rfl, .refl _ _, rfl⟩

theorem Keeps.trans (hst : s.Keeps t) (htu : t.Keeps u) : s.Keeps u where
  kind := htu.kind.trans hst.kind
  below := hst.below.trans (hst.kind ▸ htu.below)
  reserved := htu.reserved.trans hst.reserved

theorem Moves.refl (target : Option String) (s : ScopeStack α) : s.Moves target s :=
  ⟨Keeps.refl s, fun _ _ => Or.inl rfl⟩

theorem Moves.trans {target : Option String} (hst : s.Moves target t) (htu : t.Moves target u) :
    s.Moves target u :=
  ⟨hst.toKeeps.trans htu.toKeeps, fun name h => (hst.top name h).trans (htu.top name h)⟩

theorem moves_bind (s : ScopeStack α) (name : String) (v : Value α) :
    s.Moves (some name) (s.bind name v) where
  kind := rfl
  below := .refl _ _
  reserved := rfl
  top n h := by
    have hne : n ≠ name := fun e => h (congrArg some e.symm)
    rw [get?_bind, if_neg hne]
    exact Or.inl rfl

theorem keeps_bindForgotten (s : ScopeStack α) (bindings : Bindings α) :
    s.Keeps (s.bindForgotten bindings) := by
  induction bindings generalizing s with
  | nil => exact Keeps.refl s
  | cons b bindings ih => exact (moves_bind s b.1 b.2.forgotten).toKeeps.trans (ih _)

theorem moves_declare {name : String} {v : Value α} (h : s.declare name v = .ok t) :
    s.Moves (some name) t ∧ t.get? name = some v := by
  unfold declare at h
  split at h
  · cases h
  · split at h
    · cases h
    · cases h
      refine ⟨moves_bind s name v, ?_⟩
      rw [get?_bind, if_pos rfl]

theorem moves_assign {name : String} {v : Value α} (h : s.assign name v = .ok t) :
    s.Moves (some name) t ∧ t.get? name = some v := by
  unfold assign at h
  split at h
  · next hhas =>
    cases h
    refine ⟨⟨⟨rfl, ?_, rfl⟩, ?_⟩, ?_⟩
    · cases hk : s.top.kind with
      | function => exact .function _
      | block => exact .forgetOutward name s.below
    · intro n hn
      have hne : n ≠ name := fun e => hn (congrArg some e.symm)
      left
      simp [get?, Bindings.get?_modify, hne]
    · obtain ⟨w, hw⟩ := Option.isSome_iff_exists.1 hhas
      simp [get?, Bindings.get?_modify, hw]
  · cases h

theorem keepsShapes_declare {name : String} {v : Value α} (h : s.declare name v = .ok t) :
    s.KeepsShapes t := by
  refine (moves_declare h).1.keepsShapes fun n w hn hw => ?_
  cases hn
  rw [get?_eq_none_of_declare h] at hw
  cases hw

theorem keepsShapes_assign {name : String} {v current : Value α} (h : s.assign name v = .ok t)
    (hcurrent : s.get? name = some current) (hshape : v.forgotten = current.forgotten) :
    s.KeepsShapes t := by
  refine (moves_assign h).1.keepsShapes fun n w hn hw => ?_
  cases hn
  rw [hcurrent] at hw
  cases hw
  exact ⟨v, (moves_assign h).2, hshape⟩

theorem truncate_of_depth (h : t.depth = s.depth + 1) : t.truncate s.depth = t.pop := by
  have hmax : max s.depth 1 = s.depth := Nat.max_eq_left (Nat.le_add_left 1 _)
  rw [truncate, h, hmax, Nat.add_sub_cancel_left]
  rfl

/-- Closing a block gives back the scopes around it, with some variables forgotten. -/
theorem Keeps.close_block (h : (s.push .block).Keeps t) (target : Option String) :
    s.Moves target (t.truncate s.depth) := by
  have hdepth : t.depth = s.depth + 1 := by
    rw [depth, h.below.length_eq]
    rfl
  rw [truncate_of_depth hdepth]
  obtain ⟨top, below, reserved⟩ := t
  obtain ⟨_, hbelow, hreserved⟩ := h
  change FadesOutward .block (s.top :: s.below) below at hbelow
  cases hbelow with
  | block kind bindings outward => exact ⟨⟨kind, outward, hreserved⟩, fun name _ => bindings name⟩

/-- Closing a function gives back the scopes around it as they were. -/
theorem Keeps.close_function (h : (s.push .function).Keeps t) : t.truncate s.depth = s := by
  have hdepth : t.depth = s.depth + 1 := by
    rw [depth, h.below.length_eq]
    rfl
  rw [truncate_of_depth hdepth]
  obtain ⟨top, below, reserved⟩ := t
  obtain ⟨_, hbelow, hreserved⟩ := h
  change FadesOutward .function (s.top :: s.below) below at hbelow
  cases hbelow with
  | function => exact congrArg (fun r => { s with reserved := r }) hreserved

/-- Whether the value of a variable is known. -/
def Knows (s : ScopeStack α) (name : String) : Prop :=
  ∃ q, s.get? name = some (.measurement q) ∧ q.isKnown = true

instance (s : ScopeStack α) (name : String) : Decidable (s.Knows name) :=
  match h : s.get? name with
  | some (.measurement ⟨unit, some x⟩) => isTrue ⟨⟨unit, some x⟩, h, rfl⟩
  | some (.measurement ⟨unit, none⟩) => isFalse (by simp [Knows, h, Quantity.isKnown])
  | some .text | some .flag | none => isFalse (by simp [Knows, h])

theorem not_knows_of_forgotten {name : String} {v : Option (Value α)}
    (h : s.get? name = v.map Value.forgotten) : ¬ s.Knows name := by
  rintro ⟨q, hq, hknown⟩
  rw [h] at hq
  obtain ⟨v, _, hv⟩ := Option.map_eq_some_iff.1 hq
  cases v <;> cases hv
  cases hknown

theorem not_knows_push_block (s : ScopeStack α) (name : String) : ¬ (s.push .block).Knows name :=
  not_knows_of_forgotten (get?_push_block s name)

theorem not_knows_push_function (s : ScopeStack α) (name : String) : ¬ (s.push .function).Knows name :=
  not_knows_of_forgotten (Bindings.get?_forgotten s.global.bindings name)

/-- What is still known has not changed. -/
theorem Knows.get?_eq {name : String} (ht : t.Knows name) (h : Fades (s.get? name) (t.get? name)) :
    t.get? name = s.get? name := by
  rcases h with h | h
  · exact h
  · exact absurd ht (not_knows_of_forgotten h)

/-- Nothing becomes known by fading. -/
theorem Knows.of_fades {name : String} (h : Fades (s.get? name) (t.get? name)) (ht : t.Knows name) :
    s.Knows name := by
  obtain ⟨q, hq, hknown⟩ := ht
  exact ⟨q, (Knows.get?_eq ⟨q, hq, hknown⟩ h).symm.trans hq, hknown⟩

theorem not_knows_bindForgotten {name : String} (h : ¬ s.Knows name) (bindings : Bindings α) :
    ¬ (s.bindForgotten bindings).Knows name := by
  induction bindings generalizing s with
  | nil => exact h
  | cons b bindings ih =>
    refine ih ?_
    by_cases hname : name = b.1
    · refine not_knows_of_forgotten (v := some b.2) ?_
      rw [get?_bind, if_pos hname]
      rfl
    · rintro ⟨q, hq, hknown⟩
      rw [get?_bind, if_neg hname] at hq
      exact h ⟨q, hq, hknown⟩

end ScopeStack

end Metrology

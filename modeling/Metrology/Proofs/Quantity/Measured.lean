import Metrology.Proofs.Catalog.Coherence
import Metrology.Typing

/-! The units that values can have. Whatever the rules of a language make of values in declared units, or in
units made up for a dimension, is in such a unit again. -/
namespace Metrology

open Catalog Fallible

variable {α : Type} [Scalar α] {desc : Description α}

section Units

variable {ε : Type} [Exponent ε] {c : Catalog α ε}

namespace Catalog.Registry.Measures

variable {u : MeasureUnit ε}

omit [Scalar α] in
theorem declared (hu : u ∈ c.units) : c.Measures u := Or.inl hu

omit [Scalar α] in
theorem unitFor {d : Dimension ε} (hd : d.arity = c.arity) : c.Measures (c.unitFor d) := Or.inr ⟨d, hd, rfl⟩

theorem arity (h : build desc = .ok c) (hu : c.Measures u) : u.dimension.arity = c.arity := by
  rcases hu with hu | ⟨d, hd, rfl⟩
  · exact arity_declared h hu
  · rw [Registry.dimension_unitFor, hd]

theorem coherentUnit (h : build desc = .ok c) (hu : c.Measures u) : c.Measures (c.coherentUnit u) := by
  obtain ⟨d, hd, _, hr⟩ := build_eq_ok h
  unfold Registry.coherentUnit
  split
  · next e he =>
    have hmem : e ∈ d.entries := by
      rw [hr] at he
      exact List.mem_of_find?_eq_some he
    obtain ⟨r, hrmem, _, hunit, _⟩ := (coherent_of_draft hd).reference e hmem
    rw [hr, ← hunit]
    exact Or.inl (List.mem_map_of_mem hrmem)
  · exact hu

end Catalog.Registry.Measures

namespace Quantity

variable {a b q : Quantity α ε}

theorem unit_toCoherent (c : Catalog α ε) (q : Quantity α ε) :
    (q.toCoherent c).unit = c.coherentUnit q.unit := by
  unfold toCoherent
  cases h : q.convertTo c (c.coherentUnit q.unit) with
  | none => simp [h, retagged]
  | some r => simpa [h] using unit_of_convertTo h

theorem arity_toCoherent (h : build desc = .ok c) (hq : c.Measures q.unit) :
    (q.toCoherent c).magnitude.dimension.arity = c.arity := by
  change (q.toCoherent c).unit.dimension.arity = c.arity
  rw [unit_toCoherent]
  exact (hq.coherentUnit h).arity h

theorem unit_add (h : a.add c b = .ok q) : q.unit = a.unit := by
  obtain ⟨_, _, h⟩ := bind_eq_ok.1 h
  obtain ⟨_, _, h⟩ := bind_eq_ok.1 h
  cases h
  rfl

theorem unit_sub (h : a.sub c b = .ok q) : q.unit = a.unit := by
  obtain ⟨_, _, h⟩ := bind_eq_ok.1 h
  obtain ⟨_, _, h⟩ := bind_eq_ok.1 h
  cases h
  rfl

theorem unit_mod (h : a.mod b = .ok q) : q.unit = a.unit := by
  unfold mod at h
  split_ifs at h
  obtain ⟨_, _, h⟩ := bind_eq_ok.1 h
  cases h
  rfl

theorem measures_mul (h : build desc = .ok c) (ha : c.Measures a.unit) (hb : c.Measures b.unit) :
    c.Measures (a.mul c b).unit := by
  unfold mul
  dsimp only
  split_ifs
  · exact ha
  · exact hb
  · refine .unitFor ?_
    rw [Magnitude.mul, Dimension.arity_mul, arity_toCoherent h ha, arity_toCoherent h hb, Nat.min_self]

theorem measures_div (h : build desc = .ok c) (ha : c.Measures a.unit) (hb : c.Measures b.unit)
    (hq : a.div c b = .ok q) : c.Measures q.unit := by
  unfold div at hq
  dsimp only at hq
  split_ifs at hq
  · cases hq
    exact .declared (number_mem h)
  · cases hq
    exact ha
  · obtain ⟨quotient, hquotient, hq⟩ := bind_eq_ok.1 hq
    cases hq
    refine .unitFor ?_
    unfold Magnitude.div at hquotient
    split_ifs at hquotient
    cases hquotient
    rw [Dimension.arity_div, arity_toCoherent h ha, arity_toCoherent h hb, Nat.min_self]

theorem measures_pow (h : build desc = .ok c) (ha : c.Measures a.unit) (hq : a.pow c b = .ok q) :
    c.Measures q.unit := by
  unfold pow at hq
  dsimp only at hq
  split_ifs at hq
  · obtain ⟨_, _, hq⟩ := bind_eq_ok.1 hq
    cases hq
    exact ha
  · cases hq
    exact ha
  · obtain ⟨raised, hraised, hq⟩ := bind_eq_ok.1 hq
    cases hq
    refine .unitFor ?_
    have harity := arity_toCoherent h ha
    unfold Magnitude.pow at hraised
    split_ifs at hraised
    · cases hraised
      exact harity
    · split at hraised
      · cases hraised
        rw [Dimension.arity_pow]
        exact harity
      · cases hraised

end Quantity

end Units

variable {c : Catalog α}

/-- Values whose unit, if they have one, is one that a catalog measures in. -/
def Catalog.Covers (c : Catalog α) : Value α → Prop
  | .measurement q => c.Measures q.unit
  | .text | .flag => True

def Catalog.CoversAny (c : Catalog α) (v : Option (Value α)) : Prop := ∀ w ∈ v, c.Covers w

omit [Scalar α] in
theorem Catalog.covers_forgotten (c : Catalog α) (v : Value α) (hv : c.Covers v) : c.Covers v.forgotten := by
  cases v <;> exact hv

namespace Catalog.Covers

variable {v w : Value α}

omit [Scalar α] in
theorem of_forgotten (hv : c.Covers v.forgotten) : c.Covers v := by
  cases v <;> exact hv

theorem placeholder (h : build desc = .ok c) {type : TypeRef} {shape : Shape}
    (hshape : Shape.resolve c type = some shape) : c.Covers (shape.placeholder c) := by
  cases type with
  | text => cases hshape; trivial
  | flag => cases hshape; trivial
  | number => cases hshape; exact .declared (number_mem h)
  | unit word =>
    obtain ⟨u, hu, rfl⟩ := Option.map_eq_some_iff.1 hshape
    exact .declared (Registry.mem_of_lookup hu)

omit [Scalar α] in
theorem measured {op : BinaryOp} {a b : Quantity α} {r : Except (AlgebraError α) (Quantity α)}
    (hv : (match r with
      | .ok q => .ok (.measurement q)
      | .error e => .error (TypeError.ofAlgebra op a b e)) = Except.ok v)
    (hr : ∀ q, r = .ok q → c.Measures q.unit) : c.Covers v := by
  split at hv
  · cases hv
    exact hr _ rfl
  · cases hv

theorem quantities (h : build desc = .ok c) {op : BinaryOp} {a b : Quantity α} (ha : c.Measures a.unit)
    (hb : c.Measures b.unit) (hv : Typing.quantities c op a b = .ok v) : c.Covers v := by
  cases op with
  | add => exact measured hv (fun q hq => Quantity.unit_add hq ▸ ha)
  | sub => exact measured hv (fun q hq => Quantity.unit_sub hq ▸ ha)
  | mul =>
    cases hv
    exact Quantity.measures_mul h ha hb
  | div => exact measured hv (fun q hq => Quantity.measures_div h ha hb hq)
  | mod => exact measured hv (fun q hq => Quantity.unit_mod hq ▸ ha)
  | pow => exact measured hv (fun q hq => Quantity.measures_pow h ha hq)
  | and => cases hv
  | or => cases hv
  | _ =>
    simp only [Typing.quantities] at hv
    split_ifs at hv
    cases hv
    trivial

theorem binary (h : build desc = .ok c) {op : BinaryOp} {left right : Value α} (hl : c.Covers left)
    (hr : c.Covers right) (hv : Typing.binary c op left right = .ok v) : c.Covers v := by
  match left, right with
  | .measurement a, .measurement b => exact quantities h hl hr hv
  | .text, .text | .text, .measurement q | .measurement q, .text | .flag, .flag =>
    simp only [Typing.binary, Typing.repetition] at hv
    split_ifs at hv <;> cases hv <;> trivial
  | .text, .flag | .flag, .text | .flag, .measurement q | .measurement q, .flag => cases hv

theorem unary {op : UnaryOp} (hv : c.Covers v) (hw : Typing.unary op v = .ok w) : c.Covers w := by
  cases op <;> cases v <;> cases hw
  · exact hv
  · trivial

theorem cast {target : MeasureUnit} (htarget : c.Measures target) {dropped : Option MeasureUnit}
    (hw : Typing.cast c target v = .ok (w, dropped)) : c.Covers w := by
  cases v with
  | flag => cases hw
  | text => cases hw; exact htarget
  | measurement q =>
    simp only [Typing.cast] at hw
    split at hw
    · next r hr =>
      cases hw
      rw [Covers, Quantity.unit_of_convertTo hr]
      exact htarget
    · split_ifs at hw
      cases hw
      exact htarget

theorem coerce (h : build desc = .ok c) {type : TypeRef} {shape : Shape}
    (hshape : Shape.resolve c type = some shape) (hv : c.Covers v)
    (hw : Typing.coerce c shape v = .ok w) : c.Covers w := by
  by_cases hnumber : shape = .number
  · subst hnumber
    cases v <;> cases hw
    exact hv
  · have hforgotten := Typing.forgotten_of_coerce hw hnumber
    exact of_forgotten (hforgotten ▸ placeholder h hshape)

theorem initial (h : build desc = .ok c) {type : TypeRef} {shape : Shape}
    (hshape : Shape.resolve c type = some shape) {init : Option (Value α)} (hinit : c.CoversAny init)
    (hw : init.elim (.ok (shape.placeholder c)) (Typing.coerce c shape) = .ok w) : c.Covers w := by
  cases init with
  | none =>
    cases hw
    exact placeholder h hshape
  | some v => exact coerce h hshape (hinit v rfl) hw

end Catalog.Covers

end Metrology

import Metrology.Proofs.Catalog.Draft

/-! Table factors of a catalog run between units of one dimension. The words that a factor is asked for
by are looked up first, so what it says about other units rests on what their names resolve to. -/
namespace Metrology.Catalog

open Conversion

variable {α ε : Type}

theorem factor_eq_some {c : Catalog α ε} {source target : String} {x : α} :
    c.factor source target = some x ↔ ∃ u v, c.lookup source = some u ∧ c.lookup target = some v ∧
      c.table.factor u.name v.name = some x := by
  simp only [factor, bind, Option.bind_eq_some_iff]
  constructor
  · rintro ⟨u, hu, v, hv, hx⟩
    exact ⟨u, v, hu, hv, hx⟩
  · rintro ⟨u, v, hu, hv, hx⟩
    exact ⟨u, hu, v, hv, hx⟩

variable [Scalar α] [Exponent ε]

omit [Exponent ε] in
theorem Draft.Level.dimension_of_route {d : Draft α ε} (h : d.Level) {start unit : String} {n : Nat}
    {x : α} (r : d.graph.Route start n unit x) {u v : MeasureUnit ε} (hu : u ∈ d.units)
    (hv : v ∈ d.units) (hun : u.name = start) (hvn : v.name = unit) : u.dimension = v.dimension := by
  have unique {v w : MeasureUnit ε} (hv : v ∈ d.units) (hw : w ∈ d.units) (hn : v.name = w.name) :
      v = w := List.inj_on_of_nodup_map h.nodup hv hw hn
  induction r generalizing v with
  | here => rw [unique hu hv (hun.trans hvn.symm)]
  | forward _ he ih =>
    obtain ⟨child, hc, parent, hp, hcn, hpn, hd⟩ := h.level _ he
    rw [ih hp hpn, ← hd, unique hc hv (hcn.trans hvn.symm)]
  | backward _ he ih =>
    obtain ⟨child, hc, parent, hp, hcn, hpn, hd⟩ := h.level _ he
    rw [ih hc hcn, hd, unique hp hv (hpn.trans hvn.symm)]

section Built

variable {desc : Description α} {c : Catalog α ε}

theorem names_nodup (h : build desc = .ok c) : (c.units.map (·.name)).Nodup := by
  obtain ⟨d, hd, _, hr⟩ := build_eq_ok h
  rw [hr]
  exact (level_of_draft hd).nodup

theorem lookup_declared (h : build desc = .ok c) {u : MeasureUnit ε} (hu : u ∈ c.units) :
    c.lookup u.name = some u := Registry.lookup_name (names_nodup h) hu

theorem dimension_of_table (h : build desc = .ok c) {u v : MeasureUnit ε} (hu : u ∈ c.units)
    (hv : v ∈ c.units) {x : α} (hx : c.table.factor u.name v.name = some x) :
    u.dimension = v.dimension := by
  obtain ⟨d, hd, ht, hr⟩ := build_eq_ok h
  have hl := level_of_draft hd
  rw [hr] at hu hv
  obtain ⟨n, _, r⟩ := Table.route_of_factor hl.built ht hx
  exact hl.dimension_of_route r hu hv rfl rfl

theorem table_self (h : build desc = .ok c) {u : MeasureUnit ε} (hu : u ∈ c.units) :
    c.table.factor u.name u.name = some 1 := by
  obtain ⟨d, hd, ht, hr⟩ := build_eq_ok h
  have hl := level_of_draft hd
  rw [hr] at hu
  exact Table.factor_self ht (hl.names ▸ List.mem_map_of_mem hu)

end Built

namespace Registry

variable {ε : Type} [Exponent ε]

/-- The units that quantities have: the declared ones and those that arithmetic makes. -/
def Measures (r : Registry ε) (u : MeasureUnit ε) : Prop :=
  u ∈ r.units ∨ ∃ d : Dimension ε, d.arity = r.arity ∧ u = r.unitFor d

/-- What arithmetic calls a dimension, if it means anything, means a unit of that dimension. -/
def RendersApart (r : Registry ε) : Prop :=
  ∀ d : Dimension ε, d.arity = r.arity → ∀ u, r.lookup (r.unitFor d).name = some u → u.dimension = d

@[simp] theorem dimension_unitFor (r : Registry ε) (d : Dimension ε) : (r.unitFor d).dimension = d := by
  unfold unitFor
  split
  · next e he =>
    have hp := List.find?_some he
    simp only [Bool.and_eq_true, decide_eq_true_eq] at hp
    exact hp.2
  · rfl

end Registry

/-- Unless rendered names clash, the name of any unit resolves to its own dimension. -/
theorem dimension_of_lookup {desc : Description α} {c : Catalog α ε} (h : build desc = .ok c)
    (apart : c.RendersApart) {u v : MeasureUnit ε} (hu : c.Measures u) (hv : c.lookup u.name = some v) :
    v.dimension = u.dimension := by
  rcases hu with hu | ⟨d, hd, rfl⟩
  · rw [lookup_declared h hu] at hv
    cases hv
    rfl
  · rw [Registry.dimension_unitFor]
    exact apart d hd v hv

theorem dimension_of_factor {desc : Description α} {c : Catalog α ε} (h : build desc = .ok c)
    (apart : c.RendersApart) {u v : MeasureUnit ε} (hu : c.Measures u) (hv : c.Measures v) {x : α}
    (hx : c.factor u.name v.name = some x) : u.dimension = v.dimension := by
  obtain ⟨u', v', hu', hv', ht⟩ := factor_eq_some.1 hx
  calc u.dimension = u'.dimension := (dimension_of_lookup h apart hu hu').symm
    _ = v'.dimension := dimension_of_table h (Registry.mem_of_lookup hu') (Registry.mem_of_lookup hv') ht
    _ = v.dimension := dimension_of_lookup h apart hv hv'

end Metrology.Catalog

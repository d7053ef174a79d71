import Metrology.Proofs.Conversion.Potential
import Metrology.Proofs.Quantity.Interchange
import Metrology.Proofs.Quantity.Symmetry

/-! Catalogs whose conversions fit together. Their factors compose and invert each other exactly, so that a value
converted and converted back is the value again. -/
namespace Metrology

open Conversion Fallible

namespace Catalog

variable {desc : Description Rat} {d : Draft Rat} {c : Catalog Rat} {p : String → Rat}

theorem build_of_draft (hd : draft desc = .ok d) {t : Table Rat} (ht : Table.build d.graph = .ok t) :
    build desc = .ok { entries := d.entries, classes := d.classes, table := t } :=
  bind_eq_ok.2 ⟨d, hd, bind_eq_ok.2 ⟨t, ht, rfl⟩⟩

theorem table_of_draft (h : build desc = .ok c) (hd : draft desc = .ok d) :
    Table.build d.graph = .ok c.table := by
  obtain ⟨d', hd', ht, _⟩ := build_eq_ok h
  cases hd.symm.trans hd'
  exact ht

section Fits

variable (h : build desc = .ok c) (hd : draft desc = .ok d) (hp : d.graph.Fits p)

include h hd hp

theorem factor_mul_of_fits {u v w : String} {x y : Rat} (hx : c.factor u v = some x)
    (hy : c.factor v w = some y) : c.factor u w = some (x * y) := by
  obtain ⟨u', v', hu, hv, hx⟩ := factor_eq_some.1 hx
  obtain ⟨v'', w', hv', hw, hy⟩ := factor_eq_some.1 hy
  obtain rfl : v' = v'' := Option.some.inj (hv.symm.trans hv')
  have hxy := Table.factor_mul_of_fits (level_of_draft hd).built (table_of_draft h hd) hp hx hy
  exact factor_eq_some.2 ⟨u', w', hu, hw, hxy⟩

theorem factor_back_of_fits {u v : String} {x : Rat} (hx : c.factor u v = some x) :
    c.factor v u = some (1 / x) := by
  obtain ⟨u', v', hu, hv, hx⟩ := factor_eq_some.1 hx
  have hback := Table.factor_back_of_fits (level_of_draft hd).built (table_of_draft h hd) hp hx
  exact factor_eq_some.2 ⟨v', u', hv, hu, hback⟩

theorem convert_back {u v : MeasureUnit} {x y : Rat} (hy : c.convert x u v = some y) :
    c.convert y v u = some x := by
  unfold convert at hy ⊢
  by_cases huv : u = v
  · rw [if_pos huv] at hy
    rw [if_pos huv.symm, hy]
  · rw [if_neg huv] at hy
    rw [if_neg (Ne.symm huv)]
    obtain ⟨f, hf, rfl⟩ := Option.map_eq_some_iff.1 hy
    have hpos := factor_pos h hf
    rw [factor_back_of_fits h hd hp hf, Option.map_some, mul_assoc, mul_one_div_cancel hpos.ne',
      mul_one]

theorem convertTo_back {q r : Quantity Rat} {u : MeasureUnit} (hr : q.convertTo c u = some r) :
    r.convertTo c q.unit = some q := by
  by_cases hunit : q.unit = u
  · obtain rfl : q = r := by simpa [Quantity.convertTo, hunit] using hr
    simp [Quantity.convertTo]
  · cases hf : c.factor q.unit.name u.name with
    | some f =>
      obtain rfl : ⟨u, q.value.map (· * f)⟩ = r := by simpa [Quantity.convertTo, hunit, hf] using hr
      have hpos := factor_pos h hf
      have hvalue : (fun x : Rat => x * f * (1 / f)) = id := by
        funext x
        rw [mul_assoc, mul_one_div_cancel hpos.ne', mul_one, id]
      simp only [Quantity.convertTo, if_neg (Ne.symm hunit), factor_back_of_fits h hd hp hf,
        Option.map_map, Function.comp_def, hvalue, Option.map_id_fun, id]
    | none =>
      have hdim : q.unit.dimension = u.dimension ∧ q.retagged u = r := by
        simpa [Quantity.convertTo, hunit, hf] using hr
      obtain ⟨hdim, rfl⟩ := hdim
      have hback : c.factor u.name q.unit.name = none := by
        simpa [hf] using isSome_factor_comm h u.name q.unit.name
      simp [Quantity.convertTo, Quantity.retagged, Ne.symm hunit, hback, hdim]

end Fits

/-- Conversions that fit together are taken exactly. A graph without cycles fits some sizes of its units; and a graph
that fits sizes has a table, with a factor between any two connected units, which is the quotient of their sizes.
The order of its units and conversions does not show in the table. In a catalog with such a graph factors
compose, and a value or a quantity that is converted and converted back is the same again. -/
theorem fitting_conversions_exact {g : Graph Rat} (hg : g.Built) :
    ((∀ steps, ¬ g.Cycle steps) → ∃ p, g.Fits p) ∧
    ∀ p, g.Fits p → ∃ t, Table.build g = .ok t ∧
      (∀ u v x, t.factor u v = some x ↔ u ∈ g.units ∧ g.Connected u v ∧ x = p v / p u) ∧
      (∀ g' : Graph Rat, g'.Built → (∀ u, u ∈ g'.units ↔ u ∈ g.units) →
        (∀ e, e ∈ g'.edges ↔ e ∈ g.edges) → ∃ t', Table.build g' = .ok t' ∧ t'.factor = t.factor ∧
          t'.connected = t.connected ∧ t'.size = t.size) ∧
      ∀ desc d, draft desc = .ok d → d.graph = g → ∃ c, build desc = .ok c ∧ c.table = t ∧
        (∀ u v w x y, c.factor u v = some x → c.factor v w = some y → c.factor u w = some (x * y)) ∧
        (∀ u v x y, c.convert x u v = some y → c.convert y v u = some x) ∧
        ∀ (q r : Quantity Rat) u, q.convertTo c u = some r → r.convertTo c q.unit = some q := by
  refine ⟨?_, ?_⟩
  · intro acyclic
    obtain ⟨t, ht⟩ := Table.exists_build hg fun steps hc => absurd hc (acyclic steps)
    exact ⟨t.fromHead g, Table.fits_fromHead hg ht acyclic⟩
  · intro p hp
    obtain ⟨t, ht⟩ := Table.exists_build hg (hp.consistent hg)
    refine ⟨t, ht, fun u v x => Table.factor_eq_some_iff_of_fits hg ht hp, ?_, ?_⟩
    · intro g' hg' hunits hedges
      have hp' : g'.Fits p :=
        ⟨fun u hu => hp.pos u ((hunits u).1 hu), fun e he => hp.ratio e ((hedges e).1 he)⟩
      obtain ⟨t', ht'⟩ := Table.exists_build hg' (hp'.consistent hg')
      have hfactor := Table.factor_eq_of_fits hg ht hp hg' ht' hp' hunits hedges
      have hperm : g'.units.Perm g.units :=
        (List.perm_ext_iff_of_nodup hg'.units_nodup hg.units_nodup).2 hunits
      exact ⟨t', ht', hfactor, Table.connected_eq ht ht' hfactor,
        Table.size_eq ht ht' hfactor hperm⟩
    · rintro desc d hd rfl
      have hc := build_of_draft hd ht
      exact ⟨_, hc, rfl, fun u v w x y => factor_mul_of_fits hc hd hp,
        fun u v x y => convert_back hc hd hp, fun q r u => convertTo_back hc hd hp⟩

def yardstick : Description Rat where
  units := [⟨"yard", "yd", .base, .none⟩, ⟨"foot", "ft", .scaled "yard" 3 .parentToChild, .none⟩,
    ⟨"inch", "in", .scaled "foot" (1 / 12) .childToParent, .none⟩]
  conversions := [⟨"inch", "yd", 36, .parentToChild, .none⟩]

/-- How many of a unit go into a yard. -/
def perYard (unit : String) : Rat := if unit = "foot" then 3 else if unit = "inch" then 36 else 1

/-- Inches and yards go into each other exactly, over feet and directly. -/
theorem yardstick_exact : ∃ d c, draft yardstick = .ok d ∧ d.graph.Fits perYard ∧ build yardstick = .ok c ∧
    c.table.factor "inch" "yard" = some (1 / 36) ∧
    ∀ u v x y, c.convert x u v = some y → c.convert y v u = some x := by
  have hdraft : (draft yardstick).toOption.map (·.graph) =
      some ⟨["number", "yard", "foot", "inch"],
        [⟨"inch", "yard", 36⟩, ⟨"inch", "foot", 12⟩, ⟨"foot", "yard", 3⟩]⟩ := by decide +kernel
  obtain ⟨d, hd, hgraph⟩ := Option.map_eq_some_iff.1 hdraft
  have hd : draft yardstick = .ok d := toOption_eq_some.1 hd
  have hfits : d.graph.Fits perYard := by
    rw [hgraph]
    exact ⟨by decide +kernel, by decide +kernel⟩
  have hbuilt := (level_of_draft hd).built
  obtain ⟨t, _, hfactor, _, hcatalog⟩ := (fitting_conversions_exact hbuilt).2 perYard hfits
  obtain ⟨c, hc, rfl, _, hback, _⟩ := hcatalog yardstick d hd rfl
  refine ⟨d, c, hd, hfits, hc, ?_, hback⟩
  have hconn : d.graph.Connected "inch" "yard" :=
    ⟨1, _, Graph.Route.here.backward (e := ⟨"inch", "yard", 36⟩) (by simp [hgraph])⟩
  exact (hfactor "inch" "yard" (1 / 36)).2 ⟨by simp [hgraph], hconn, by decide +kernel⟩

end Catalog

end Metrology

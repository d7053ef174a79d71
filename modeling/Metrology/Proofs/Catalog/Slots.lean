import Metrology.Proofs.Catalog.Coherence
import Metrology.Proofs.Catalog.Naming

/-! The slots of dimensions. The base units of a catalog own them in order of declaration; so a dimension that
no declared unit has goes by a name with an operator in it, and never by the plain name of a declared unit. -/
namespace Metrology.Catalog

open Fallible

variable {α ε : Type} [Exponent ε]

namespace Draft

variable {d d' : Draft α ε}

/-- Every base unit owns the next slot, and is not scaled. -/
structure Slotted (d : Draft α ε) : Prop where
  bases : (d.units.filter (·.isBase)).map (·.dimension) = (List.range d.arity).map (Dimension.base d.slots)
  unscaled : ∀ e ∈ d.entries, e.unit.isBase = true → e.reference = none

namespace Slotted

theorem start (slots : Nat) : (start slots : Draft α ε).Slotted where
  bases := rfl
  unscaled e he hbase := by
    obtain rfl : e = ⟨numberUnit slots, none⟩ := by simpa [Draft.start, Draft.insert] using he
    rfl

theorem insert (h : d.Slotted) {e : Entry ε} {graph : Conversion.Graph α}
    (hnew : e.unit.isBase = true → e.reference = none ∧ e.unit.dimension = Dimension.base d.slots d.arity) :
    Slotted { d.insert e with graph } where
  bases := by
    change ((d.insert e).units.filter (·.isBase)).map (·.dimension) =
      (List.range (d.insert e).arity).map (Dimension.base d.slots)
    rw [units_insert, arity_insert]
    cases hbase : e.unit.isBase with
    | false => simpa [hbase] using h.bases
    | true =>
      rw [if_pos rfl, List.range_succ, List.map_append, ← h.bases]
      simpa [hbase] using (hnew hbase).2
  unscaled e' he' hbase := by
    rcases List.mem_append.1 he' with he' | he'
    · exact h.unscaled e' he' hbase
    · rw [List.mem_singleton.1 he'] at hbase ⊢
      exact (hnew hbase).1

theorem declareUnit [Scalar α] (h : d.Slotted) {decl : Description.UnitDecl α}
    (hd : d.declareUnit decl = .ok d') : d'.Slotted := by
  obtain ⟨_, _, hdef⟩ := declareUnit_eq_ok.1 hd
  obtain ⟨_, rfl⟩ | ⟨_, _, _, _, _, _, _, _, _, _, rfl⟩ | ⟨_, _, _, _, rfl⟩ := define_eq_ok hdef
  · exact h.insert fun _ => ⟨rfl, rfl⟩
  · exact h.insert nofun
  · exact h.insert nofun

theorem declareConversion [Scalar α] (h : d.Slotted) {decl : Description.ConversionDecl α}
    (hd : d.declareConversion decl = .ok d') : d'.Slotted := by
  obtain ⟨_, _, _, _, _, _, _, _, _, rfl⟩ := declareConversion_eq_ok hd
  exact ⟨h.bases, h.unscaled⟩

theorem declareClass (h : d.Slotted) {decl : Description.ClassDecl} (hd : d.declareClass decl = .ok d') :
    d'.Slotted := by
  obtain ⟨_, _, rfl⟩ := declareClass_eq_ok hd
  exact ⟨h.bases, h.unscaled⟩

end Slotted

end Draft

variable [Scalar α] {desc : Description α} {c : Catalog α ε}

theorem slotted_of_draft {d : Draft α ε} (h : draft desc = .ok d) : d.Slotted := by
  obtain ⟨units, hunits, h⟩ := bind_eq_ok.1 h
  obtain ⟨conversions, hconversions, hclasses⟩ := bind_eq_ok.1 h
  have h₁ := foldlM_keeps (fun _ _ _ _ hd h => Draft.Slotted.declareUnit h hd) hunits
    (Draft.Slotted.start _)
  have h₂ := foldlM_keeps (fun _ _ _ _ hd h => Draft.Slotted.declareConversion h hd) hconversions h₁
  exact foldlM_keeps (fun _ _ _ _ hd h => Draft.Slotted.declareClass h hd) hclasses h₂

/-- Plain numbers and single base units have declared units, which are not scaled. -/
theorem exists_unscaled (h : build desc = .ok c) {dim : Dimension ε}
    (hdim : dim = Dimension.none c.arity ∨ ∃ slot < c.arity, dim = Dimension.base c.arity slot) :
    ∃ e ∈ c.entries, e.reference = none ∧ e.unit.dimension = dim := by
  obtain ⟨d, hd, _, hr⟩ := build_eq_ok h
  rw [hr] at hdim ⊢
  rw [arity_of_draft hd] at hdim
  rcases hdim with rfl | ⟨slot, hslot, rfl⟩
  · exact ⟨_, List.mem_of_mem_head? (coherent_of_draft hd).number, rfl, rfl⟩
  · have hmem : Dimension.base d.slots slot ∈ (d.units.filter (·.isBase)).map (·.dimension) := by
      rw [(slotted_of_draft hd).bases, arity_of_draft hd]
      exact List.mem_map_of_mem (List.mem_range.2 hslot)
    obtain ⟨u, hu, hdim⟩ := List.mem_map.1 hmem
    obtain ⟨hu, hbase⟩ := List.mem_filter.1 hu
    obtain ⟨e, he, rfl⟩ := List.mem_map.1 hu
    exact ⟨e, he, (slotted_of_draft hd).unscaled e he hbase, hdim⟩

/-- Declared names are free of the operators that rendered dimensions are made with. -/
def Registry.PlainNames (r : Registry ε) : Prop :=
  ∀ u ∈ r.units, ∀ c ∈ u.name.toList, Dimension.isOperator c = false

instance (r : Registry ε) : Decidable r.PlainNames :=
  decidable_of_iff (r.units.all fun u => u.name.toList.all fun c => !Dimension.isOperator c)
    (by simp [Registry.PlainNames])

/-- A unit that arithmetic makes is declared, or has a name that no declared unit has. -/
theorem unitFor_declared_or_unnamed (h : build desc = .ok c) (plain : c.PlainNames) {dim : Dimension ε}
    (hdim : dim.arity = c.arity) : c.unitFor dim ∈ c.units ∨
      c.entries.find? (·.hasName (c.unitFor dim).name) = none := by
  unfold Registry.unitFor
  split
  · next e he => exact Or.inl (List.mem_map_of_mem (List.mem_of_find?_eq_some he))
  · next hnone =>
    right
    rw [List.find?_eq_none] at hnone ⊢
    intro e he hname
    -- a plain name renders a dimension that has a unit of its own
    have hname : e.unit.name = dim.render c.baseSymbols := of_decide_eq_true hname
    have hrender : ∀ ch ∈ (dim.render c.baseSymbols).toList, Dimension.isOperator ch = false := by
      rw [← hname]
      exact plain e.unit (List.mem_map_of_mem he)
    have hcases := Dimension.none_or_base_of_render hdim hrender
    rw [hdim] at hcases
    obtain ⟨e', he', href, hunit⟩ := exists_unscaled h hcases
    exact hnone e' he' (by simp [href, hunit])

theorem dimension_coherentUnit (h : build desc = .ok c) (plain : c.PlainNames) {u : MeasureUnit ε}
    (hu : c.Measures u) : (c.coherentUnit u).dimension = u.dimension := by
  rcases hu with hu | ⟨dim, hdim, rfl⟩
  · exact (coherentUnit_spec h hu).2.1
  · rcases unitFor_declared_or_unnamed h plain hdim with hmem | hnone
    · exact (coherentUnit_spec h hmem).2.1
    · simp [Registry.coherentUnit, hnone]

end Metrology.Catalog

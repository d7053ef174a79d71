import Metrology.Proofs.Catalog.Level

/-! Coherent units. Every declared unit goes back to one that is not scaled, of its own dimension and
connected to it by conversions; and all dimensions have a slot for each base unit. -/
namespace Metrology

theorem Dimension.div_self {ε : Type} [Exponent ε] (d : Dimension ε) : d.div d = none d.arity := by
  cases d with
  | mk exponents =>
    simp only [div, none, arity, mk.injEq, List.eq_replicate_iff, List.length_zipWith, Nat.min_self,
      true_and]
    intro n hn
    obtain ⟨i, hi, rfl⟩ := List.mem_iff_getElem.1 hn
    simp

namespace Catalog

open Fallible Conversion

variable {α ε : Type} [Scalar α] [Exponent ε]

namespace Draft

variable {d d' : Draft α ε}

/-- A draft in which every unit is measured in one that is not scaled. -/
structure Coherent (d : Draft α ε) : Prop where
  number : d.entries.head? = some ⟨numberUnit d.slots, none⟩
  arity : ∀ u ∈ d.units, u.dimension.arity = d.slots
  reference : ∀ e ∈ d.entries, ∃ r ∈ d.entries, r.reference = none ∧ r.unit = e.coherent ∧
    r.unit.dimension = e.unit.dimension ∧ d.graph.Connected e.unit.name r.unit.name

namespace Coherent

theorem start (slots : Nat) : (start slots : Draft α ε).Coherent where
  number := rfl
  arity u hu := by
    have hu : u ∈ [numberUnit slots] := hu
    rw [List.mem_singleton.1 hu]
    exact Dimension.arity_none slots
  reference e he := by
    refine ⟨e, he, ?_⟩
    obtain rfl : e = ⟨numberUnit slots, none⟩ := by simpa [Draft.start, Draft.insert] using he
    exact ⟨rfl, rfl, rfl, 0, 1, .here⟩

theorem insert (h : d.Coherent) {e : Entry ε} (harity : e.unit.dimension.arity = d.slots)
    {graph : Graph α} (hedges : d.graph.edges ⊆ graph.edges)
    (href : ∃ r ∈ d.entries ++ [e], r.reference = none ∧ r.unit = e.coherent ∧
      r.unit.dimension = e.unit.dimension ∧ graph.Connected e.unit.name r.unit.name) :
    Coherent { d.insert e with graph } where
  number := by simp [Draft.insert, List.head?_append, h.number]
  arity u hu := by
    have hu : u ∈ d.units ++ [e.unit] := units_insert d e ▸ hu
    rcases List.mem_append.1 hu with hu | hu
    · exact h.arity u hu
    · rw [List.mem_singleton.1 hu]
      exact harity
  reference e' he' := by
    rcases List.mem_append.1 he' with he' | he'
    · obtain ⟨r, hr, hnone, hunit, hdim, hconn⟩ := h.reference e' he'
      exact ⟨r, List.mem_append_left _ hr, hnone, hunit, hdim, hconn.mono hedges⟩
    · rw [List.mem_singleton.1 he']
      exact href

theorem insert_coherent (h : d.Coherent) {unit : MeasureUnit ε}
    (harity : unit.dimension.arity = d.slots) : (d.insert ⟨unit, none⟩).Coherent := by
  have hedges : d.graph.edges ⊆ (d.graph.addUnit unit.name).edges := by rw [Graph.edges_addUnit]; simp
  exact h.insert harity hedges ⟨⟨unit, none⟩, by simp, rfl, rfl, rfl, 0, 1, .here⟩

theorem arity_timesTerm (h : d.Coherent) {unit : String} {span : Span} {product dimension : Dimension ε}
    {term : Description.Term} (hp : product.arity = d.slots)
    (ht : d.timesTerm unit span product term = .ok dimension) : dimension.arity = d.slots := by
  unfold timesTerm at ht
  obtain ⟨e, he, ht⟩ := bind_eq_ok.1 ht
  split at ht
  · cases ht
  · cases ht
    have hu := h.arity _ (List.mem_map_of_mem (Registry.mem_of_find? (require_eq_ok.1 he)))
    simp [hp, hu]

theorem declareUnit (h : d.Coherent) {decl : Description.UnitDecl α}
    (hd : d.declareUnit decl = .ok d') : d'.Coherent := by
  obtain ⟨_, _, hdef⟩ := declareUnit_eq_ok.1 hd
  obtain ⟨_, rfl⟩ | ⟨_, _, _, parent, edge, graph, _, hparent, hedge, hgraph, rfl⟩ |
    ⟨terms, dimension, _, hdimension, rfl⟩ := define_eq_ok hdef
  · exact h.insert_coherent (Dimension.arity_base _ _)
  · have hparent := Registry.mem_of_find? hparent
    obtain ⟨r, hr, hnone, hunit, hdim, hconn⟩ := h.reference parent hparent
    obtain ⟨_, _, rfl⟩ := Graph.addEdge_eq_ok.1 hgraph
    have hends : edge.child = decl.name ∧ edge.parent = parent.unit.name := by
      unfold Edge.ofFactor at hedge
      split_ifs at hedge
      cases hedge
      exact ⟨rfl, rfl⟩
    have hedges : d.graph.edges ⊆ edge :: (d.graph.addUnit decl.name).edges := by
      rw [Graph.edges_addUnit]
      exact List.subset_cons_self _ _
    -- one step to the parent, and on from there as the parent goes back
    have hstep : Graph.Connected { d.graph.addUnit decl.name with
        edges := edge :: (d.graph.addUnit decl.name).edges } decl.name parent.unit.name := by
      rw [← hends.1, ← hends.2]
      exact ⟨1, _, Graph.Route.here.backward List.mem_cons_self⟩
    exact h.insert (e := ⟨⟨decl.name, decl.symbol, parent.unit.dimension, false⟩, some parent.coherent⟩)
      (h.arity parent.unit (List.mem_map_of_mem hparent)) hedges
      ⟨r, List.mem_append_left _ hr, hnone, hunit, hdim, hstep.trans (hconn.mono hedges)⟩
  · refine h.insert_coherent ?_
    exact foldlM_keeps (P := fun dimension => dimension.arity = d.slots)
      (fun _ _ _ _ ht hp => h.arity_timesTerm hp ht) hdimension (Dimension.arity_none _)

theorem declareConversion (h : d.Coherent) {decl : Description.ConversionDecl α}
    (hd : d.declareConversion decl = .ok d') : d'.Coherent := by
  obtain ⟨_, _, edge, graph, _, _, _, _, hgraph, rfl⟩ := declareConversion_eq_ok hd
  obtain ⟨_, _, rfl⟩ := Graph.addEdge_eq_ok.1 hgraph
  refine ⟨h.number, h.arity, ?_⟩
  intro e he
  obtain ⟨r, hr, hnone, hunit, hdim, hconn⟩ := h.reference e he
  exact ⟨r, hr, hnone, hunit, hdim, hconn.mono (List.subset_cons_self _ _)⟩

theorem declareClass (h : d.Coherent) {decl : Description.ClassDecl}
    (hd : d.declareClass decl = .ok d') : d'.Coherent := by
  obtain ⟨_, members, rfl⟩ := declareClass_eq_ok hd
  exact ⟨h.number, h.arity, h.reference⟩

end Coherent

omit [Scalar α] [Exponent ε] in
theorem arity_insert (d : Draft α ε) (e : Entry ε) :
    (d.insert e).arity = d.arity + if e.unit.isBase then 1 else 0 := by
  unfold Registry.arity Registry.baseSymbols
  rw [units_insert]
  by_cases h : e.unit.isBase = true <;> simp [h]

/-- A base unit adds a slot that is in use, and no other unit does. -/
theorem arity_declareUnit {decl : Description.UnitDecl α} (hd : d.declareUnit decl = .ok d') :
    d'.slots = d.slots ∧ d'.arity = d.arity + match decl.definition with
      | .base => 1
      | _ => 0 := by
  obtain ⟨_, _, hdef⟩ := declareUnit_eq_ok.1 hd
  obtain ⟨hbase, rfl⟩ | ⟨_, _, _, parent, edge, graph, hscaled, _, _, _, rfl⟩ |
    ⟨terms, dimension, hcompound, _, rfl⟩ := define_eq_ok hdef
  · exact ⟨rfl, by rw [hbase, arity_insert]; rfl⟩
  · exact ⟨rfl, by rw [hscaled]; exact arity_insert d _⟩
  · exact ⟨rfl, by rw [hcompound]; exact arity_insert d _⟩

theorem arity_declareUnits {units : List (Description.UnitDecl α)}
    (h : units.foldlM declareUnit d = .ok d') :
    d'.slots = d.slots ∧ d'.arity = d.arity + baseCount { units } := by
  induction units generalizing d with
  | nil =>
    cases h
    exact ⟨rfl, rfl⟩
  | cons decl units ih =>
    obtain ⟨next, hnext, h⟩ := foldlM_cons_eq_ok.1 h
    obtain ⟨hslots, harity⟩ := arity_declareUnit hnext
    obtain ⟨hslots', harity'⟩ := ih h
    refine ⟨hslots'.trans hslots, ?_⟩
    rw [harity', harity]
    cases hdef : decl.definition <;> simp [baseCount, hdef]
    omega

end Draft

theorem arity_of_draft {desc : Description α} {d : Draft α ε} (h : draft desc = .ok d) :
    d.arity = d.slots := by
  obtain ⟨units, hunits, h⟩ := bind_eq_ok.1 h
  obtain ⟨conversions, hconversions, hclasses⟩ := bind_eq_ok.1 h
  obtain ⟨hslots, harity⟩ := Draft.arity_declareUnits hunits
  have hstart : (Draft.start (baseCount desc) : Draft α ε).arity = 0 := rfl
  have hunits : units.arity = units.slots := by
    rw [harity, hslots, hstart, Nat.zero_add]
    rfl
  have hconversions : conversions.arity = conversions.slots := by
    refine foldlM_keeps (P := fun d : Draft α ε => d.arity = d.slots) ?_ hconversions hunits
    intro decl _ d d' hd hkeep
    obtain ⟨_, _, _, _, _, _, _, _, _, rfl⟩ := Draft.declareConversion_eq_ok hd
    exact hkeep
  refine foldlM_keeps (P := fun d : Draft α ε => d.arity = d.slots) ?_ hclasses hconversions
  intro decl _ d d' hd hkeep
  obtain ⟨_, _, rfl⟩ := Draft.declareClass_eq_ok hd
  exact hkeep

theorem coherent_of_draft {desc : Description α} {d : Draft α ε} (h : draft desc = .ok d) :
    d.Coherent := by
  obtain ⟨units, hunits, h⟩ := bind_eq_ok.1 h
  obtain ⟨conversions, hconversions, hclasses⟩ := bind_eq_ok.1 h
  have h₁ := foldlM_keeps (fun _ _ _ _ hd h => Draft.Coherent.declareUnit h hd) hunits
    (Draft.Coherent.start _)
  have h₂ := foldlM_keeps (fun _ _ _ _ hd h => Draft.Coherent.declareConversion h hd) hconversions h₁
  exact foldlM_keeps (fun _ _ _ _ hd h => Draft.Coherent.declareClass h hd) hclasses h₂

section Built

variable {desc : Description α} {c : Catalog α ε}

theorem number_mem (h : build desc = .ok c) : c.number ∈ c.units := by
  obtain ⟨d, hd, _, hr⟩ := build_eq_ok h
  obtain ⟨rest, hrest⟩ := List.head?_eq_some_iff.1 (coherent_of_draft hd).number
  rw [hr]
  simp [Registry.number, Registry.units, hrest]

/-- The dimension of every declared unit has a slot for each base unit. -/
theorem arity_declared (h : build desc = .ok c) {u : MeasureUnit ε} (hu : u ∈ c.units) :
    u.dimension.arity = c.arity := by
  obtain ⟨d, hd, _, hr⟩ := build_eq_ok h
  rw [hr] at hu ⊢
  rw [(coherent_of_draft hd).arity u hu, arity_of_draft hd]

theorem number_isPure (h : build desc = .ok c) : c.number.isPure = true := by
  obtain ⟨d, hd, _, hr⟩ := build_eq_ok h
  obtain ⟨rest, hrest⟩ := List.head?_eq_some_iff.1 (coherent_of_draft hd).number
  have hnumber : c.number = numberUnit d.slots := by rw [hr]; simp [Registry.number, hrest]
  rw [hnumber, MeasureUnit.isPure, Dimension.isNone_iff]
  simp [numberUnit]

/-- All units that only count have one dimension. -/
theorem dimension_eq_of_isPure (h : build desc = .ok c) {u v : MeasureUnit ε} (hu : u ∈ c.units)
    (hv : v ∈ c.units) (hup : u.isPure = true) (hvp : v.isPure = true) : u.dimension = v.dimension := by
  rw [(Dimension.isNone_iff _).1 hup, (Dimension.isNone_iff _).1 hvp, arity_declared h hu, arity_declared h hv]

/-- A quotient of two units of one dimension counts in plain numbers. -/
theorem unitFor_div_self (h : build desc = .ok c) {u : MeasureUnit ε} (hu : u ∈ c.units) :
    c.unitFor (u.dimension.div u.dimension) = c.number := by
  obtain ⟨d, hd, _, hr⟩ := build_eq_ok h
  obtain ⟨rest, hrest⟩ := List.head?_eq_some_iff.1 (coherent_of_draft hd).number
  have harity : u.dimension.arity = d.slots := (coherent_of_draft hd).arity u (hr ▸ hu)
  have hnumber : d.number = numberUnit d.slots := by simp [Registry.number, hrest]
  rw [hr, Dimension.div_self, harity, hnumber]
  simp [Registry.unitFor, hrest, numberUnit]

theorem coherentUnit_entry (h : build desc = .ok c) {e : Entry ε} (he : e ∈ c.entries) :
    c.coherentUnit e.unit = e.coherent := by
  simp [Registry.coherentUnit, Registry.find?_hasName (names_nodup h) he]

theorem exists_reference (h : build desc = .ok c) {e : Entry ε} (he : e ∈ c.entries) :
    ∃ r ∈ c.entries, r.reference = none ∧ r.unit = c.coherentUnit e.unit ∧
      r.unit.dimension = e.unit.dimension ∧ ∃ d : Draft α ε, draft desc = .ok d ∧
        Table.build d.graph = .ok c.table ∧ d.graph.Connected e.unit.name r.unit.name := by
  rw [coherentUnit_entry h he]
  obtain ⟨d, hd, ht, hr⟩ := build_eq_ok h
  rw [hr] at he ⊢
  obtain ⟨r, hrmem, hnone, hunit, hdim, hconn⟩ := (coherent_of_draft hd).reference e he
  exact ⟨r, hrmem, hnone, hunit, hdim, d, hd, ht, hconn⟩

/-- A declared unit is measured in a declared unit of the same dimension, into which it converts. -/
theorem coherentUnit_spec (h : build desc = .ok c) {u : MeasureUnit ε} (hu : u ∈ c.units) :
    c.coherentUnit u ∈ c.units ∧ (c.coherentUnit u).dimension = u.dimension ∧
      ∃ d : Draft α ε, draft desc = .ok d ∧ Table.build d.graph = .ok c.table ∧
        d.graph.Connected u.name (c.coherentUnit u).name := by
  obtain ⟨e, he, rfl⟩ := List.mem_map.1 hu
  obtain ⟨r, hr, _, hunit, hdim, hconn⟩ := exists_reference h he
  rw [← hunit]
  exact ⟨List.mem_map_of_mem hr, hdim, hconn⟩

end Built

end Catalog

end Metrology

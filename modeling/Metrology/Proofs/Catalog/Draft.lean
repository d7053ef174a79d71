import Mathlib.Data.List.Nodup
import Metrology.Catalog.Build
import Metrology.Proofs.Conversion.Reach

/-! What a declaration does to a draft, said once for each kind of declaration, and what all drafts of
descriptions have in common. -/
namespace Metrology.Catalog

open Fallible

namespace Registry

variable {ε : Type} {r : Registry ε}

theorem mem_of_find? {word : String} {e : Entry ε} (h : r.find? word = some e) : e ∈ r.entries := by
  simp only [find?, Option.orElse_eq_orElse, Option.orElse_eq_or, Option.or_eq_some_iff] at h
  rcases h with h | ⟨_, h⟩
  · exact List.mem_of_find?_eq_some h
  · exact List.mem_of_find?_eq_some h

theorem mem_of_lookup {word : String} {u : MeasureUnit ε} (h : r.lookup word = some u) :
    u ∈ r.units := by
  obtain ⟨e, he, rfl⟩ := Option.map_eq_some_iff.1 h
  exact List.mem_map_of_mem (mem_of_find? he)

/-- A new word is no name of a declared unit. -/
theorem name_ne_of_free {word : String} (h : r.isTaken word = false) {u : MeasureUnit ε}
    (hu : u ∈ r.units) : u.name ≠ word := by
  obtain ⟨e, he, rfl⟩ := List.mem_map.1 hu
  intro hn
  have htaken : r.isTaken word = true := by
    simp only [isTaken, Bool.or_eq_true, List.any_eq_true]
    exact Or.inl ⟨e, he, Or.inl (by simpa [Entry.hasName] using hn)⟩
  rw [h] at htaken
  cases htaken

theorem find?_hasName (hn : (r.units.map (·.name)).Nodup) {e : Entry ε} (he : e ∈ r.entries) :
    r.entries.find? (·.hasName e.unit.name) = some e := by
  obtain ⟨e', he'⟩ : ∃ e', r.entries.find? (·.hasName e.unit.name) = some e' := by
    rw [← Option.isSome_iff_exists, List.find?_isSome]
    exact ⟨e, he, by simp [Entry.hasName]⟩
  have hname : e'.unit.name = e.unit.name := by
    simpa [Entry.hasName] using List.find?_some he'
  rw [units, List.map_map] at hn
  rw [he', List.inj_on_of_nodup_map hn (List.mem_of_find?_eq_some he') he hname]

theorem lookup_name (hn : (r.units.map (·.name)).Nodup) {u : MeasureUnit ε} (hu : u ∈ r.units) :
    r.lookup u.name = some u := by
  obtain ⟨e, he, rfl⟩ := List.mem_map.1 hu
  simp [lookup, find?, find?_hasName hn he]

end Registry

namespace Draft

variable {α ε : Type} {d d' : Draft α ε}

theorem require_eq_ok {word : String} {span : Span} {e : Entry ε} :
    d.require word span = .ok e ↔ d.find? word = some e := by
  unfold require
  split <;> simp_all

theorem requireFree_eq_ok {word : String} {span : Span} {x : PUnit} :
    d.requireFree word span = .ok x ↔ d.isTaken word = false := by
  unfold requireFree
  split_ifs with h <;> simp [h]

theorem units_insert (d : Draft α ε) (e : Entry ε) : (d.insert e).units = d.units ++ [e.unit] := by
  simp [insert, Registry.units]

theorem declareClass_eq_ok {decl : Description.ClassDecl} (h : d.declareClass decl = .ok d') :
    d.isTaken decl.name = false ∧
      ∃ members, d' = { d with classes := d.classes ++ [(decl.name, members)] } := by
  unfold declareClass at h
  obtain ⟨_, hfree, h⟩ := bind_eq_ok.1 h
  obtain ⟨members, _, h⟩ := bind_eq_ok.1 h
  cases h
  exact ⟨requireFree_eq_ok.1 hfree, members, rfl⟩

variable [Scalar α] [Exponent ε]

theorem declareUnit_eq_ok {decl : Description.UnitDecl α} :
    d.declareUnit decl = .ok d' ↔ d.isTaken decl.name = false ∧
      (decl.symbol = decl.name ∨ d.isTaken decl.symbol = false) ∧ d.define decl = .ok d' := by
  unfold declareUnit
  simp only [bind_eq_ok, requireFree_eq_ok]
  split_ifs with hs
  · simp [bind_eq_ok, requireFree_eq_ok, hs]
  · simp [not_not.1 hs]

/-- A base unit takes the next slot, a scaled unit the dimension of its parent and a conversion into it,
a compound unit the dimension of its terms. -/
theorem define_eq_ok {decl : Description.UnitDecl α} (h : d.define decl = .ok d') :
    (decl.definition = .base ∧
      d' = d.insert ⟨⟨decl.name, decl.symbol, Dimension.base d.slots d.baseSymbols.length, true⟩, none⟩) ∨
      (∃ word factor direction parent edge graph,
        decl.definition = .scaled word factor direction ∧ d.find? word = some parent ∧
        Conversion.Edge.ofFactor decl.name parent.unit.name factor direction decl.span = .ok edge ∧
        (d.graph.addUnit decl.name).addEdge edge decl.span = .ok graph ∧
        d' = { d.insert ⟨⟨decl.name, decl.symbol, parent.unit.dimension, false⟩,
          some parent.coherent⟩ with graph }) ∨
      ∃ terms dimension, decl.definition = .compound terms ∧
        terms.foldlM (d.timesTerm decl.name decl.span) (Dimension.none d.slots) = .ok dimension ∧
        d' = d.insert ⟨⟨decl.name, decl.symbol, dimension, false⟩, none⟩ := by
  unfold define at h
  split at h
  · next hdef =>
    cases h
    exact Or.inl ⟨hdef, rfl⟩
  · next word factor direction hdef =>
    obtain ⟨parent, hparent, h⟩ := bind_eq_ok.1 h
    obtain ⟨edge, hedge, h⟩ := bind_eq_ok.1 h
    obtain ⟨graph, hgraph, h⟩ := bind_eq_ok.1 h
    cases h
    exact Or.inr (Or.inl ⟨word, factor, direction, parent, edge, graph, hdef, require_eq_ok.1 hparent,
      hedge, hgraph, rfl⟩)
  · next terms hdef =>
    obtain ⟨dimension, hdimension, h⟩ := bind_eq_ok.1 h
    cases h
    exact Or.inr (Or.inr ⟨terms, dimension, hdef, hdimension, rfl⟩)

theorem declareConversion_eq_ok {decl : Description.ConversionDecl α}
    (h : d.declareConversion decl = .ok d') :
    ∃ child parent edge graph, d.find? decl.child = some child ∧ d.find? decl.parent = some parent ∧
      child.unit.dimension = parent.unit.dimension ∧
      Conversion.Edge.ofFactor child.unit.name parent.unit.name decl.factor decl.direction decl.span =
        .ok edge ∧
      d.graph.addEdge edge decl.span = .ok graph ∧ d' = { d with graph } := by
  unfold declareConversion at h
  obtain ⟨child, hchild, h⟩ := bind_eq_ok.1 h
  obtain ⟨parent, hparent, h⟩ := bind_eq_ok.1 h
  simp only at h
  split_ifs at h with hd
  · cases h
  · obtain ⟨edge, hedge, h⟩ := bind_eq_ok.1 h
    obtain ⟨graph, hgraph, h⟩ := bind_eq_ok.1 h
    cases h
    exact ⟨child, parent, edge, graph, require_eq_ok.1 hchild, require_eq_ok.1 hparent, not_not.1 hd,
      hedge, hgraph, rfl⟩

/-- The conversions of a draft run between its units, and only between units of one dimension. -/
structure Level (d : Draft α ε) : Prop where
  built : d.graph.Built
  names : d.graph.units = d.units.map (·.name)
  level : ∀ e ∈ d.graph.edges, ∃ child ∈ d.units, ∃ parent ∈ d.units,
    child.name = e.child ∧ parent.name = e.parent ∧ child.dimension = parent.dimension

namespace Level

omit [Exponent ε] in
theorem nodup (h : d.Level) : (d.units.map (·.name)).Nodup := h.names ▸ h.built.units_nodup

theorem start (slots : Nat) : (start slots : Draft α ε).Level where
  built := Conversion.Graph.Built.empty.addUnit numberName
  names := rfl
  level e he := by cases he

omit [Exponent ε] in
theorem insert (h : d.Level) {e : Entry ε} (free : d.isTaken e.unit.name = false) :
    (d.insert e).Level where
  built := h.built.addUnit e.unit.name
  names := by
    have hnew : e.unit.name ∉ d.graph.units := by
      rw [h.names]
      intro hm
      obtain ⟨u, hu, hn⟩ := List.mem_map.1 hm
      exact Registry.name_ne_of_free free hu hn
    rw [units_insert, List.map_append, ← h.names]
    simp [Draft.insert, Conversion.Graph.addUnit, hnew]
  level edge he := by
    have he' : edge ∈ d.graph.edges := by
      simpa [Draft.insert, Conversion.Graph.edges_addUnit] using he
    obtain ⟨child, hc, parent, hp, hjoin⟩ := h.level edge he'
    rw [units_insert]
    exact ⟨child, List.mem_append_left _ hc, parent, List.mem_append_left _ hp, hjoin⟩

omit [Exponent ε] in
theorem join (h : d.Level) {child parent : MeasureUnit ε} (hc : child ∈ d.units) (hp : parent ∈ d.units)
    (hd : child.dimension = parent.dimension) {factor : α} {direction : Direction} {span span' : Span}
    {edge : Conversion.Edge α} {graph : Conversion.Graph α}
    (hedge : Conversion.Edge.ofFactor child.name parent.name factor direction span = .ok edge)
    (hgraph : d.graph.addEdge edge span' = .ok graph) : Level { d with graph } := by
  have hends : edge.child = child.name ∧ edge.parent = parent.name := by
    unfold Conversion.Edge.ofFactor at hedge
    split_ifs at hedge
    cases hedge
    exact ⟨rfl, rfl⟩
  refine ⟨h.built.addEdge hedge hgraph, ?_, ?_⟩
  · obtain ⟨_, _, rfl⟩ := Conversion.Graph.addEdge_eq_ok.1 hgraph
    exact h.names
  · obtain ⟨_, _, rfl⟩ := Conversion.Graph.addEdge_eq_ok.1 hgraph
    intro e he
    rcases List.mem_cons.1 he with rfl | he
    · exact ⟨child, hc, parent, hp, hends.1.symm, hends.2.symm, hd⟩
    · exact h.level e he

theorem declareUnit (h : d.Level) {decl : Description.UnitDecl α}
    (hd : d.declareUnit decl = .ok d') : d'.Level := by
  obtain ⟨free, _, hdef⟩ := declareUnit_eq_ok.1 hd
  obtain ⟨_, rfl⟩ | ⟨_, _, _, parent, edge, graph, _, hparent, hedge, hgraph, rfl⟩ | ⟨_, _, _, _, rfl⟩ :=
    define_eq_ok hdef
  · exact h.insert free
  · let unit : MeasureUnit ε := ⟨decl.name, decl.symbol, parent.unit.dimension, false⟩
    have hnew : (d.insert ⟨unit, some parent.coherent⟩).Level := h.insert free
    have hchild : unit ∈ (d.insert ⟨unit, some parent.coherent⟩).units := by simp [units_insert]
    have hold : parent.unit ∈ (d.insert ⟨unit, some parent.coherent⟩).units := by
      rw [units_insert]
      exact List.mem_append_left _ (List.mem_map_of_mem (Registry.mem_of_find? hparent))
    exact hnew.join hchild hold rfl hedge hgraph
  · exact h.insert free

theorem declareConversion (h : d.Level) {decl : Description.ConversionDecl α}
    (hd : d.declareConversion decl = .ok d') : d'.Level := by
  obtain ⟨child, parent, edge, graph, hchild, hparent, hdim, hedge, hgraph, rfl⟩ :=
    declareConversion_eq_ok hd
  exact h.join (List.mem_map_of_mem (Registry.mem_of_find? hchild))
    (List.mem_map_of_mem (Registry.mem_of_find? hparent)) hdim hedge hgraph

omit [Exponent ε] in
theorem declareClass (h : d.Level) {decl : Description.ClassDecl} (hd : d.declareClass decl = .ok d') :
    d'.Level := by
  obtain ⟨_, members, rfl⟩ := declareClass_eq_ok hd
  exact ⟨h.built, h.names, h.level⟩

end Level

end Draft

variable {α ε : Type} [Scalar α] [Exponent ε]

theorem level_of_draft {desc : Description α} {d : Draft α ε} (h : draft desc = .ok d) : d.Level := by
  obtain ⟨units, hunits, h⟩ := bind_eq_ok.1 h
  obtain ⟨conversions, hconversions, hclasses⟩ := bind_eq_ok.1 h
  have h₁ := foldlM_keeps (fun _ _ _ _ hd h => Draft.Level.declareUnit h hd) hunits
    (Draft.Level.start _)
  have h₂ := foldlM_keeps (fun _ _ _ _ hd h => Draft.Level.declareConversion h hd) hconversions h₁
  exact foldlM_keeps (fun _ _ _ _ hd h => Draft.Level.declareClass h hd) hclasses h₂

theorem build_eq_ok {desc : Description α} {c : Catalog α ε} (h : build desc = .ok c) :
    ∃ d, draft desc = .ok d ∧ Conversion.Table.build d.graph = .ok c.table ∧
      c.toRegistry = d.toRegistry := by
  obtain ⟨d, hd, h⟩ := bind_eq_ok.1 h
  obtain ⟨table, htable, h⟩ := bind_eq_ok.1 h
  cases h
  exact ⟨d, hd, htable, rfl⟩

end Metrology.Catalog

import Metrology.Proofs.Catalog.Slots
import Metrology.Proofs.Catalog.Words
import Metrology.Proofs.Conversion.Components

/-! Units that stand for themselves. Plain numbers, base units and compound units are not scaled; every unit
is measured in one of them, and arithmetic takes the first of a dimension for its results. -/
namespace Metrology

namespace Description.UnitDecl

variable {α : Type}

def isBase (decl : UnitDecl α) : Bool :=
  match decl.definition with
  | .base => true
  | _ => false

/-- Whether a unit is declared by a factor to another one. -/
def isScaled (decl : UnitDecl α) : Bool :=
  match decl.definition with
  | .scaled _ _ _ => true
  | _ => false

end Description.UnitDecl

namespace Catalog

open Fallible Conversion

variable {α ε : Type}

/-- What a declaration has in common with the entry that it leads to. -/
structure Declares (decl : Description.UnitDecl α) (e : Entry ε) : Prop where
  name : e.unit.name = decl.name
  symbol : e.unit.symbol = decl.symbol
  base : e.unit.isBase = decl.isBase
  scaled : e.reference.isSome = decl.isScaled

/-- The units of a catalog that its description does not scale, in order of declaration. -/
def unscaledUnits [Exponent ε] (desc : Description α) (c : Catalog α ε) : List (MeasureUnit ε) :=
  c.number :: ((desc.units.zip c.units.tail).filter (!·.1.isScaled)).map (·.2)

theorem unscaled_of_declares {decls : List (Description.UnitDecl α)} {entries : List (Entry ε)}
    (h : List.Forall₂ Declares decls entries) :
    ((decls.zip (entries.map (·.unit))).filter (!·.1.isScaled)).map (·.2) =
      (entries.filter (·.reference.isNone)).map (·.unit) := by
  induction h with
  | nil => rfl
  | @cons decl e decls entries hde _ ih =>
    have hsame : e.reference.isNone = !decl.isScaled := by
      rw [← hde.scaled, ← Option.not_isSome]
    cases hscaled : decl.isScaled <;> simp [hsame, hscaled, ih]

theorem words_of_declares {decls : List (Description.UnitDecl α)} {entries : List (Entry ε)}
    (h : List.Forall₂ Declares decls entries) :
    entries.map (fun e => (e.unit.name, e.unit.symbol, e.unit.isBase)) =
      decls.map fun decl => (decl.name, decl.symbol, decl.isBase) := by
  induction h with
  | nil => rfl
  | cons hde _ ih => simp [hde.name, hde.symbol, hde.base, ih]

variable [Scalar α] [Exponent ε]

namespace Draft

variable {d d' : Draft α ε}

theorem declares_declareUnit {decl : Description.UnitDecl α} (hd : d.declareUnit decl = .ok d') :
    ∃ e, d'.entries = d.entries ++ [e] ∧ Declares decl e := by
  obtain ⟨_, _, hdef⟩ := declareUnit_eq_ok.1 hd
  obtain ⟨hbase, rfl⟩ | ⟨_, _, _, _, _, _, hscaled, _, _, _, rfl⟩ | ⟨_, _, hcompound, _, rfl⟩ :=
    define_eq_ok hdef
  · exact ⟨_, rfl, rfl, rfl, by rw [Description.UnitDecl.isBase, hbase],
      by rw [Description.UnitDecl.isScaled, hbase]; rfl⟩
  · exact ⟨_, rfl, rfl, rfl, by rw [Description.UnitDecl.isBase, hscaled],
      by rw [Description.UnitDecl.isScaled, hscaled]; rfl⟩
  · exact ⟨_, rfl, rfl, rfl, by rw [Description.UnitDecl.isBase, hcompound],
      by rw [Description.UnitDecl.isScaled, hcompound]; rfl⟩

theorem declares_declareUnits {decls : List (Description.UnitDecl α)}
    (h : decls.foldlM declareUnit d = .ok d') :
    ∃ entries, d'.entries = d.entries ++ entries ∧ List.Forall₂ Declares decls entries := by
  induction decls generalizing d with
  | nil =>
    cases h
    exact ⟨[], (List.append_nil _).symm, .nil⟩
  | cons decl decls ih =>
    obtain ⟨next, hnext, h⟩ := foldlM_cons_eq_ok.1 h
    obtain ⟨e, he, hdecl⟩ := declares_declareUnit hnext
    obtain ⟨entries, hentries, hdecls⟩ := ih h
    refine ⟨e :: entries, ?_, .cons hdecl hdecls⟩
    rw [hentries, he, List.append_assoc, List.singleton_append]

end Draft

section Built

variable {desc : Description α} {c : Catalog α ε}

theorem entries_of_build (h : build desc = .ok c) : ∃ entries,
    c.entries = ⟨numberUnit c.arity, none⟩ :: entries ∧ List.Forall₂ Declares desc.units entries := by
  obtain ⟨d, hd, _, hr⟩ := build_eq_ok h
  have harity := arity_of_draft hd
  have hnumber := (coherent_of_draft hd).number
  obtain ⟨units, hunits, hrest⟩ := bind_eq_ok.1 hd
  obtain ⟨conversions, hconversions, hclasses⟩ := bind_eq_ok.1 hrest
  obtain ⟨entries, hentries, hdecls⟩ := Draft.declares_declareUnits hunits
  -- conversions and classes add no entries
  have hkeep : d.entries = units.entries := by
    have hsame := foldlM_keeps (P := fun d : Draft α ε => d.entries = units.entries) (fun _ _ d d' hd hkeep => by
      obtain ⟨_, _, _, _, _, _, _, _, _, rfl⟩ := Draft.declareConversion_eq_ok hd
      exact hkeep) hconversions rfl
    exact foldlM_keeps (P := fun d : Draft α ε => d.entries = units.entries) (fun _ _ d d' hd hkeep => by
      obtain ⟨_, _, rfl⟩ := Draft.declareClass_eq_ok hd
      exact hkeep) hclasses hsame
  refine ⟨entries, ?_, hdecls⟩
  rw [hkeep, hentries] at hnumber
  rw [hr, hkeep, hentries, harity]
  exact congrArg (· :: entries) (Option.some.inj hnumber)

theorem unscaledUnits_eq (h : build desc = .ok c) :
    unscaledUnits desc c = (c.entries.filter (·.reference.isNone)).map (·.unit) := by
  obtain ⟨entries, hentries, hdecls⟩ := entries_of_build h
  rw [unscaledUnits, number_eq h, Registry.units, hentries, List.map_cons, List.tail_cons,
    unscaled_of_declares hdecls]
  simp

theorem units_of_build (h : build desc = .ok c) :
    c.units.tail.map (fun u => (u.name, u.symbol, u.isBase)) =
      desc.units.map fun decl => (decl.name, decl.symbol, decl.isBase) := by
  obtain ⟨entries, hentries, hdecls⟩ := entries_of_build h
  rw [Registry.units, hentries, List.map_cons, List.tail_cons, List.map_map]
  exact words_of_declares hdecls

theorem coherentUnit_mem_unscaledUnits (h : build desc = .ok c) {u : MeasureUnit ε} (hu : u ∈ c.units) :
    c.coherentUnit u ∈ unscaledUnits desc c := by
  obtain ⟨e, he, rfl⟩ := List.mem_map.1 hu
  obtain ⟨r, hr, hnone, hunit, _⟩ := exists_reference h he
  rw [unscaledUnits_eq h, ← hunit]
  exact List.mem_map_of_mem (List.mem_filter.2 ⟨hr, by simp [hnone]⟩)

/-- Units that are not scaled are measured in themselves. -/
theorem coherentUnit_idem (h : build desc = .ok c) {u : MeasureUnit ε} (hu : u ∈ c.units) :
    c.coherentUnit (c.coherentUnit u) = c.coherentUnit u := by
  obtain ⟨e, he, rfl⟩ := List.mem_map.1 hu
  obtain ⟨r, hr, hnone, hunit, _⟩ := exists_reference h he
  rw [← hunit, coherentUnit_entry h hr, Entry.coherent, hnone]
  rfl

theorem factor_coherentUnit_isSome (h : build desc = .ok c) {u : MeasureUnit ε} (hu : u ∈ c.units) :
    (c.factor u.name (c.coherentUnit u).name).isSome = true := by
  obtain ⟨hmem, _, d, hd, ht, hconn⟩ := coherentUnit_spec h hu
  have hlevel := level_of_draft hd
  have hname : u.name ∈ d.graph.units := by
    obtain ⟨d', hd', _, hr⟩ := build_eq_ok h
    cases hd.symm.trans hd'
    rw [hlevel.names]
    exact List.mem_map_of_mem (hr ▸ hu)
  obtain ⟨x, hx⟩ := Table.factor_of_connected hlevel.built.joined ht hname hconn
  exact Option.isSome_iff_exists.2 ⟨x, factor_eq_some.2
    ⟨u, _, lookup_declared h hu, lookup_declared h hmem, hx⟩⟩

theorem unitFor_eq (h : build desc = .ok c) (d : Dimension ε) :
    c.unitFor d = ((unscaledUnits desc c).find? (·.dimension = d)).getD (.anonymous c.baseSymbols d) := by
  have hfind : (c.entries.filter (·.reference.isNone)).find? (·.unit.dimension = d) =
      c.entries.find? (fun e => e.reference.isNone && e.unit.dimension = d) := by
    simp only [List.find?_filter, Bool.decide_and, Bool.decide_eq_true, decide_eq_true_eq]
  rw [unscaledUnits_eq h, List.find?_map, Function.comp_def, Registry.unitFor, hfind]
  cases c.entries.find? (fun e => e.reference.isNone && e.unit.dimension = d) <;> rfl

theorem dimension_of_base (h : build desc = .ok c) {k : Nat}
    (hk : k < (c.units.filter (·.isBase)).length) :
    (c.units.filter (·.isBase))[k].dimension = Dimension.base c.arity k := by
  obtain ⟨d, hd, _, hr⟩ := build_eq_ok h
  have hbases := (slotted_of_draft hd).bases
  rw [← arity_of_draft hd, ← hr] at hbases
  have hk' : k < ((c.units.filter (·.isBase)).map (·.dimension)).length := by simpa using hk
  have hget : ((c.units.filter (·.isBase)).map (·.dimension))[k] = Dimension.base c.arity k := by
    simp [hbases]
  simpa using hget

theorem arity_of_build (h : build desc = .ok c) : c.arity = baseCount desc := by
  obtain ⟨rest, hrest⟩ := List.head?_eq_some_iff.1 (head?_units h)
  have hwords := congrArg (List.countP (·.2.2)) (units_of_build h)
  rw [List.countP_map, List.countP_map, hrest, List.tail_cons] at hwords
  calc c.arity = c.units.countP (·.isBase) := by
        simp [Registry.arity, Registry.baseSymbols, List.countP_eq_length_filter]
    _ = rest.countP (·.isBase) := by simp [hrest, numberUnit]
    _ = desc.units.countP (·.isBase) := hwords
    _ = baseCount desc := List.countP_eq_length_filter

/-- A catalog is coherent. All dimensions have one slot for each base unit, and the base units own the slots
in the order in which they are declared. Every unit is measured in a unit that is not scaled, has its own
dimension and is measured in itself, and it converts into that unit; units that convert into each other
have one dimension. Arithmetic takes for a dimension the first unit that has it and is not scaled, plain
numbers for no dimension at all, and an anonymous one where there is none. -/
theorem units_are_coherent (h : build desc = .ok c) :
    c.units.tail.map (fun u => (u.name, u.symbol, u.isBase)) =
      desc.units.map (fun decl => (decl.name, decl.symbol, decl.isBase)) ∧
    c.arity = baseCount desc ∧
    (∀ u ∈ c.units, u.dimension.arity = baseCount desc) ∧
    (∀ k (hk : k < (c.units.filter (·.isBase)).length),
      (c.units.filter (·.isBase))[k].dimension = Dimension.base (baseCount desc) k) ∧
    (∀ u ∈ c.units, c.coherentUnit u ∈ unscaledUnits desc c ∧
      (c.coherentUnit u).dimension = u.dimension ∧
      c.coherentUnit (c.coherentUnit u) = c.coherentUnit u ∧
      (c.factor u.name (c.coherentUnit u).name).isSome) ∧
    (∀ a ∈ c.units, ∀ b ∈ c.units, (c.factor a.name b.name).isSome → a.dimension = b.dimension) ∧
    (∀ d : Dimension ε, (c.unitFor d).dimension = d ∧
      c.unitFor d =
        ((unscaledUnits desc c).find? (·.dimension = d)).getD (.anonymous c.baseSymbols d)) ∧
    c.unitFor (Dimension.none (baseCount desc)) = c.number := by
  have harity := arity_of_build h
  refine ⟨units_of_build h, harity, ?_, ?_, ?_, ?_, ?_, ?_⟩
  · intro u hu
    rw [arity_declared h hu, harity]
  · intro k hk
    rw [dimension_of_base h hk, harity]
  · intro u hu
    exact ⟨coherentUnit_mem_unscaledUnits h hu, (coherentUnit_spec h hu).2.1, coherentUnit_idem h hu,
      factor_coherentUnit_isSome h hu⟩
  · intro a ha b hb hfactor
    obtain ⟨x, hx⟩ := Option.isSome_iff_exists.1 hfactor
    obtain ⟨a', b', ha', hb', ht⟩ := factor_eq_some.1 hx
    rw [lookup_declared h ha, Option.some.injEq] at ha'
    rw [lookup_declared h hb, Option.some.injEq] at hb'
    exact dimension_of_table h ha hb (ha' ▸ hb' ▸ ht)
  · intro d
    exact ⟨Registry.dimension_unitFor c.toRegistry d, unitFor_eq h d⟩
  · rw [unitFor_eq h, unscaledUnits, List.find?_cons_of_pos]
    · rfl
    · simp [number_eq h, numberUnit, harity]

end Built

/-- Leagues are measured in kilometers and these in meters; two units have the dimension of a speed. -/
def journeys : Description Rat where
  units := [⟨"meter", "m", .base, .none⟩, ⟨"second", "s", .base, .none⟩,
    ⟨"kilometer", "km", .scaled "m" 1000 .childToParent, .none⟩,
    ⟨"league", "", .scaled "km" 4 .childToParent, .none⟩,
    ⟨"speed", "mps", .compound [⟨"m", 1⟩, ⟨"s", -1⟩], .none⟩,
    ⟨"pace", "", .compound [⟨"speed", 1⟩], .none⟩]
  conversions := [⟨"pace", "speed", 2, .childToParent, .none⟩]

/-- Leagues go back to meters, and the first of the two speeds is taken. -/
theorem journeys_coherent : ∃ (c : Catalog Rat) (league speed : MeasureUnit), build journeys = .ok c ∧
    league ∈ c.units ∧ c.coherentUnit league = ⟨"meter", "m", ⟨[1, 0]⟩, true⟩ ∧
    (c.factor league.name "meter").isSome ∧ speed.name = "speed" ∧ c.unitFor ⟨[1, -1]⟩ = speed ∧
    (c.unitFor ⟨[2, 0]⟩).dimension = ⟨[2, 0]⟩ := by
  let league : MeasureUnit := ⟨"league", "", ⟨[1, 0]⟩, false⟩
  let speed : MeasureUnit := ⟨"speed", "mps", ⟨[1, -1]⟩, false⟩
  have hevals : (build journeys).toOption.map (fun c : Catalog Rat => (decide (league ∈ c.units), c.coherentUnit league,
      unscaledUnits journeys c)) = some (true, ⟨"meter", "m", ⟨[1, 0]⟩, true⟩,
        [numberUnit 2, ⟨"meter", "m", ⟨[1, 0]⟩, true⟩, ⟨"second", "s", ⟨[0, 1]⟩, true⟩, speed,
          ⟨"pace", "", ⟨[1, -1]⟩, false⟩]) := by decide +kernel
  obtain ⟨c, hc, hevals⟩ := Option.map_eq_some_iff.1 hevals
  have h : build journeys = .ok c := toOption_eq_some.1 hc
  simp only [Prod.mk.injEq, decide_eq_true_eq] at hevals
  obtain ⟨hleague, hmeter, hunscaled⟩ := hevals
  obtain ⟨_, _, _, _, hcoherent, _, hfor, _⟩ := units_are_coherent h
  obtain ⟨_, _, _, hfactor⟩ := hcoherent league hleague
  rw [hmeter] at hfactor
  refine ⟨c, league, speed, h, hleague, hmeter, hfactor, rfl, ?_, (hfor ⟨[2, 0]⟩).1⟩
  rw [(hfor ⟨[1, -1]⟩).2, hunscaled]
  rfl

end Catalog

end Metrology

import Metrology.Proofs.Catalog.Level
import Metrology.Typing

/-! When two quantities can be brought together: converted, compared, added or subtracted. Two units are
told apart by their names, so that only quantities of one dimension meet is a property of the catalog. -/
namespace Metrology

open Fallible

variable {α : Type}

namespace Quantity

theorem isCompatible_iff {c : Catalog α} {a b : Quantity α} : a.isCompatible c b = true ↔
    a.unit.dimension = b.unit.dimension ∨ ∃ x, c.factor a.unit.name b.unit.name = some x := by
  simp [isCompatible, Option.isSome_iff_exists]

variable [Scalar α]

/-- The ways in which two quantities are brought together. -/
inductive Meet (c : Catalog α) (a b : Quantity α) : Prop
  | compatible (h : a.isCompatible c b = true)
  | converted {r : Quantity α} (h : a.convertTo c b.unit = some r)
  | added {r : Quantity α} (h : a.add c b = .ok r)
  | subtracted {r : Quantity α} (h : a.sub c b = .ok r)
  | compared {op : BinaryOp} {r : Value α} (hop : op.isComparison = true)
    (h : Typing.binary c op (.measurement a) (.measurement b) = .ok r)

variable {c : Catalog α} {a b : Quantity α}

theorem convertTo_isSome_iff {target : MeasureUnit} : (∃ r, a.convertTo c target = some r) ↔
    a.unit = target ∨ (∃ x, c.factor a.unit.name target.name = some x) ∨
      a.unit.dimension = target.dimension := by
  by_cases h : a.unit = target
  · simp [convertTo, h]
  · cases hx : c.factor a.unit.name target.name with
    | some x => simp [convertTo, h, hx]
    | none => by_cases hd : a.unit.dimension = target.dimension <;> simp [convertTo, h, hx, hd]

theorem aligned_compatible {r : Quantity α} (h : a.aligned c b = .ok r) :
    a.isCompatible c b = true := by
  unfold aligned at h
  split_ifs at h with hc
  simpa using hc

/-- Whatever is brought together is compatible, or can be converted. -/
theorem Meet.cases (h : a.Meet c b) :
    a.isCompatible c b = true ∨ ∃ r, a.convertTo c b.unit = some r := by
  cases h with
  | compatible h => exact Or.inl h
  | converted h => exact Or.inr ⟨_, h⟩
  | added h =>
    obtain ⟨r, hr, _⟩ := bind_eq_ok.1 h
    exact Or.inl (aligned_compatible hr)
  | subtracted h =>
    obtain ⟨r, hr, _⟩ := bind_eq_ok.1 h
    exact Or.inl (aligned_compatible hr)
  | @compared op r hop h =>
    left
    cases op <;> simp only [BinaryOp.isComparison, Bool.false_eq_true] at hop <;>
      · simp only [Typing.binary, Typing.quantities] at h
        split_ifs at h with hc
        exact hc

/-- Quantities that meet have one dimension, or a factor between the names of their units. -/
theorem Meet.dimension_or_factor (h : a.Meet c b) :
    a.unit.dimension = b.unit.dimension ∨ ∃ x, c.factor a.unit.name b.unit.name = some x := by
  rcases h.cases with h | h
  · exact isCompatible_iff.1 h
  · rcases convertTo_isSome_iff.1 h with h | h | h
    · exact Or.inl (congrArg MeasureUnit.dimension h)
    · exact Or.inr h
    · exact Or.inl h

end Quantity

namespace Catalog

variable [Scalar α]

/-- Conversion is dimensionally sound in a catalog exactly when no declared unit goes by the name that
arithmetic gives to another dimension. -/
theorem meet_same_dimension_iff {desc : Description α} {c : Catalog α} (h : build desc = .ok c) :
    (∀ a b : Quantity α, c.Measures a.unit → c.Measures b.unit → a.Meet c b →
      a.unit.dimension = b.unit.dimension) ↔ c.RendersApart := by
  constructor
  · intro sound d hd u hu
    have hmem := Registry.mem_of_lookup hu
    -- the clashing unit converts into itself, and the rendered name resolves to it
    have hx : c.factor (c.unitFor d).name u.name = some 1 :=
      factor_eq_some.2 ⟨u, u, hu, lookup_declared h hmem, table_self h hmem⟩
    have hmeet : (Quantity.unknown (c.unitFor d) : Quantity α).Meet c (.unknown u) :=
      .compatible (Quantity.isCompatible_iff.2 (Or.inr ⟨1, hx⟩))
    have hdim := sound _ _ (Or.inr ⟨d, hd, rfl⟩) (Or.inl hmem) hmeet
    simpa [Quantity.unknown] using hdim.symm
  · intro apart a b ha hb hmeet
    rcases hmeet.dimension_or_factor with hdim | ⟨x, hx⟩
    · exact hdim
    · exact dimension_of_factor h apart ha hb hx

/-- A duration whose symbol reads like an area. -/
def ticks : Description Float where
  units := [⟨"meter", "m", .base, .none⟩, ⟨"second", "s", .base, .none⟩,
    ⟨"tick", "m^2", .compound [⟨"second", 1⟩], .none⟩]

/-- Areas and ticks meet: the name of an area resolves to a tick. -/
theorem ticks_meet_areas : ∃ c, build ticks = .ok c ∧ ¬ c.RendersApart ∧
    ∃ a b : Quantity Float, c.Measures a.unit ∧ c.Measures b.unit ∧ a.Meet c b ∧
      a.unit.dimension ≠ b.unit.dimension := by
  have hevals : (build ticks).toOption.map
      (fun c => (c.arity, c.lookup (c.unitFor ⟨[2, 0]⟩).name)) =
      some (2, some ⟨"tick", "m^2", ⟨[0, 1]⟩, false⟩) := by decide +kernel
  obtain ⟨c, hc, hevals⟩ := Option.map_eq_some_iff.1 hevals
  have h : build ticks = .ok c := Fallible.toOption_eq_some.1 hc
  obtain ⟨harity, hlookup⟩ := Prod.mk.inj hevals
  have clash : ¬ c.RendersApart := by
    intro apart
    have hdim := apart ⟨[2, 0]⟩ harity.symm _ hlookup
    simp at hdim
  refine ⟨c, h, clash, ?_⟩
  have unsound := mt (meet_same_dimension_iff h).1 clash
  push Not at unsound
  exact unsound

end Catalog

end Metrology

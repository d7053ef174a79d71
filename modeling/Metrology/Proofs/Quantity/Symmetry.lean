import Mathlib.Data.List.TFAE
import Mathlib.Tactic.TFAE
import Metrology.Proofs.Conversion.Components
import Metrology.Proofs.Quantity.Meet

/-! Bringing two quantities together does not depend on their order. To compare, to convert and to add ask for
the same thing, and a catalog gives one answer for both orders, because factors come in pairs. So operands may
trade places wherever an operator does not tell them apart. -/
namespace Metrology

open Fallible

variable {α : Type} [Scalar α]

theorem Conversion.Table.isSome_factor_comm {g : Graph α} {t : Table α} (hg : g.Joined)
    (h : build g = .ok t) (u v : String) : (t.factor u v).isSome = (t.factor v u).isSome := by
  have back {u v : String} (huv : (t.factor u v).isSome = true) : (t.factor v u).isSome = true := by
    obtain ⟨hu, hv, hconn⟩ := (factor_isSome_iff hg h).1 huv
    exact (factor_isSome_iff hg h).2 ⟨hv, hu, hconn.symm⟩
  exact Bool.eq_iff_iff.2 ⟨back, back⟩

theorem Catalog.isSome_factor_comm {desc : Description α} {c : Catalog α} (h : Catalog.build desc = .ok c)
    (source target : String) : (c.factor source target).isSome = (c.factor target source).isSome := by
  obtain ⟨d, hd, ht, _⟩ := build_eq_ok h
  have hjoined := (level_of_draft hd).built.joined
  unfold factor
  cases hu : c.lookup source with
  | none => cases c.lookup target <;> rfl
  | some u =>
    cases hv : c.lookup target with
    | none => rfl
    | some v => exact Conversion.Table.isSome_factor_comm hjoined ht u.name v.name

namespace Quantity

variable {c : Catalog α} {a b r : Quantity α}

/-- What has equal units has equal dimensions, so that a conversion asks for no more than a comparison. -/
theorem convertTo_isSome_iff_isCompatible :
    (∃ r, a.convertTo c b.unit = some r) ↔ a.isCompatible c b = true := by
  rw [convertTo_isSome_iff, isCompatible_iff]
  constructor
  · rintro (hunit | hfactor | hdim)
    · exact Or.inl (congrArg MeasureUnit.dimension hunit)
    · exact Or.inr hfactor
    · exact Or.inl hdim
  · rintro (hdim | hfactor)
    · exact Or.inr (Or.inr hdim)
    · exact Or.inr (Or.inl hfactor)

/-- An aligned quantity has the unit of the other one, and with it the dimension. -/
theorem dimension_of_aligned (h : a.aligned c b = .ok r) :
    r.magnitude.dimension = a.magnitude.dimension := by
  unfold aligned at h
  split_ifs at h
  split at h
  · next hconv =>
    cases h
    exact congrArg MeasureUnit.dimension (unit_of_convertTo hconv)
  · cases h

section Built

variable {desc : Description α} (h : Catalog.build desc = .ok c)

include h

theorem isCompatible_comm : a.isCompatible c b = b.isCompatible c a := by
  unfold isCompatible
  rw [Catalog.isSome_factor_comm h]
  exact congrArg (· || _) (decide_eq_decide.2 eq_comm)

theorem aligned_of_isCompatible (hab : a.isCompatible c b = true) :
    ∃ r, b.convertTo c a.unit = some r ∧ a.aligned c b = .ok r := by
  obtain ⟨r, hr⟩ := convertTo_isSome_iff_isCompatible.2 (isCompatible_comm h ▸ hab)
  exact ⟨r, hr, by simp [aligned, hab, hr]⟩

theorem combine_isOk_iff {f : Magnitude α → Magnitude α → Except (AlgebraError α) (Magnitude α)}
    (hf : ∀ x y, x.dimension = y.dimension → ∃ z, f x y = .ok z)
    (finish : Quantity α → Magnitude α → Quantity α) :
    (∃ r, (do
        let b ← a.aligned c b
        let z ← f a.magnitude b.magnitude
        return finish b z) = Except.ok r) ↔ a.isCompatible c b = true := by
  constructor
  · rintro ⟨r, hr⟩
    obtain ⟨b', hb', _⟩ := bind_eq_ok.1 hr
    exact aligned_compatible hb'
  · intro hab
    obtain ⟨b', _, hb'⟩ := aligned_of_isCompatible h hab
    obtain ⟨z, hz⟩ := hf a.magnitude b'.magnitude (dimension_of_aligned hb').symm
    exact ⟨finish b' z, bind_eq_ok.2 ⟨b', hb', bind_eq_ok.2 ⟨z, hz, rfl⟩⟩⟩

theorem add_isOk_iff : (∃ r, a.add c b = .ok r) ↔ a.isCompatible c b = true :=
  combine_isOk_iff h (f := Magnitude.add) (fun _ _ hdim => ⟨_, if_pos hdim⟩)
    fun b sum => derived a.unit sum.value (a.isKnown && b.isKnown)

theorem sub_isOk_iff : (∃ r, a.sub c b = .ok r) ↔ a.isCompatible c b = true :=
  combine_isOk_iff h (f := Magnitude.sub) (fun _ _ hdim => ⟨_, if_pos hdim⟩)
    fun b difference => derived a.unit difference.value (a.isKnown && b.isKnown)

end Built

end Quantity

/-- The operators that take their operands in either order. -/
def BinaryOp.isSymmetric : BinaryOp → Bool
  | div | mod | pow => false
  | _ => true

namespace Typing

variable {c : Catalog α} {op : BinaryOp}

theorem comparison_isOk_iff (hop : op.isComparison = true) (a b : Quantity α) :
    (∃ r, binary c op (.measurement a) (.measurement b) = .ok r) ↔ a.isCompatible c b = true := by
  cases op <;> simp only [BinaryOp.isComparison, Bool.false_eq_true] at hop <;>
    · simp only [binary, quantities]
      split_ifs with hab <;> simp [hab]

theorem quantities_add_isOk_iff {a b : Quantity α} :
    (∃ v, quantities c .add a b = .ok v) ↔ ∃ r, a.add c b = .ok r := by
  simp only [quantities]
  cases a.add c b <;> simp

theorem quantities_sub_isOk_iff {a b : Quantity α} :
    (∃ v, quantities c .sub a b = .ok v) ↔ ∃ r, a.sub c b = .ok r := by
  simp only [quantities]
  cases a.sub c b <;> simp

theorem quantities_isOk_comm {desc : Description α} (h : Catalog.build desc = .ok c)
    (hop : op.isSymmetric = true) (a b : Quantity α) :
    (∃ v, quantities c op a b = .ok v) ↔ ∃ v, quantities c op b a = .ok v := by
  have hcomm : a.isCompatible c b = true ↔ b.isCompatible c a = true := by
    rw [Quantity.isCompatible_comm h]
  have compared (hop : op.isComparison = true) :
      (∃ v, quantities c op a b = .ok v) ↔ ∃ v, quantities c op b a = .ok v :=
    (comparison_isOk_iff hop a b).trans (hcomm.trans (comparison_isOk_iff hop b a).symm)
  cases op with
  | add =>
    rw [quantities_add_isOk_iff, quantities_add_isOk_iff, Quantity.add_isOk_iff h, Quantity.add_isOk_iff h]
    exact hcomm
  | sub =>
    rw [quantities_sub_isOk_iff, quantities_sub_isOk_iff, Quantity.sub_isOk_iff h, Quantity.sub_isOk_iff h]
    exact hcomm
  | mul => simp [quantities]
  | div | mod | pow => cases hop
  | eq | ne | lt | le | gt | ge => exact compared rfl
  | and | or => simp [quantities]

theorem binary_isOk_comm {desc : Description α} (h : Catalog.build desc = .ok c)
    (hop : op.isSymmetric = true) (left right : Value α) :
    (∃ v, binary c op left right = .ok v) ↔ ∃ v, binary c op right left = .ok v := by
  cases left with
  | measurement a =>
    cases right with
    | measurement b => exact quantities_isOk_comm h hop a b
    | text => by_cases hmul : op = .mul <;> simp [binary, hmul]
    | flag => simp [binary]
  | text =>
    cases right with
    | measurement b => by_cases hmul : op = .mul <;> simp [binary, hmul]
    | text => exact Iff.rfl
    | flag => simp [binary]
  | flag =>
    cases right with
    | flag => exact Iff.rfl
    | _ => simp [binary]

end Typing

namespace Catalog

open Quantity

/-- In every catalog it is one and the same thing for two quantities to be compatible, to be converted into
one another's units, to be added, to be subtracted and to be compared, in either order; and an operator that
takes its operands in either order accepts them in both or in none. So once two quantities are known to be
compatible, neither aligning them nor the sum or difference of what is aligned can fail any more. -/
theorem agreement_is_symmetric {desc : Description α} {c : Catalog α} (h : build desc = .ok c) :
    (∀ a b : Quantity α,
      [a.isCompatible c b = true, b.isCompatible c a = true,
        ∃ r, a.convertTo c b.unit = some r, ∃ r, b.convertTo c a.unit = some r,
        ∃ r, a.add c b = .ok r, ∃ r, a.sub c b = .ok r].TFAE ∧
      ∀ op : BinaryOp, op.isComparison = true →
        ((∃ r, Typing.binary c op (.measurement a) (.measurement b) = .ok r) ↔ a.isCompatible c b = true)) ∧
    (∀ (op : BinaryOp) (left right : Value α), op.isSymmetric = true →
      ((∃ r, Typing.binary c op left right = .ok r) ↔ ∃ r, Typing.binary c op right left = .ok r)) ∧
    ∀ a b : Quantity α,
      (a.isCompatible c b = true → b.convertTo c a.unit ≠ none) ∧
      ∀ r, a.aligned c b = .ok r → a.magnitude.dimension = r.magnitude.dimension := by
  refine ⟨fun a b => ⟨?_, fun op hop => Typing.comparison_isOk_iff hop a b⟩,
    fun op left right hop => Typing.binary_isOk_comm h hop left right, fun a b => ⟨?_, ?_⟩⟩
  · tfae_have 1 ↔ 2 := by rw [isCompatible_comm h]
    tfae_have 3 ↔ 1 := convertTo_isSome_iff_isCompatible
    tfae_have 4 ↔ 2 := convertTo_isSome_iff_isCompatible
    tfae_have 5 ↔ 1 := add_isOk_iff h
    tfae_have 6 ↔ 1 := sub_isOk_iff h
    tfae_finish
  · intro hab
    obtain ⟨r, hr, _⟩ := aligned_of_isCompatible h hab
    rw [hr]
    exact Option.some_ne_none r
  · intro r hr
    exact (dimension_of_aligned hr).symm

/-- An area is added to a tick, whose symbol reads like it, and no length is. -/
theorem ticks_agree : ∃ c, build ticks = .ok c ∧ ∃ area tick length : Quantity Float,
    area.unit.dimension ≠ tick.unit.dimension ∧ area.isCompatible c tick = true ∧
    (∃ r, tick.convertTo c area.unit = some r) ∧ (∃ r, area.add c tick = .ok r) ∧
    (∃ r, tick.add c area = .ok r) ∧ ¬ ∃ r, length.sub c area = .ok r := by
  let area : Quantity Float := .unknown ⟨"m^2", "m^2", ⟨[2, 0]⟩, false⟩
  let tick : Quantity Float := .unknown ⟨"tick", "m^2", ⟨[0, 1]⟩, false⟩
  let length : Quantity Float := .unknown ⟨"meter", "m", ⟨[1, 0]⟩, true⟩
  have hevals : (build ticks).toOption.map (fun c =>
      (area.isCompatible c tick, area.isCompatible c length)) = some (true, false) := by decide +kernel
  obtain ⟨c, hc, hevals⟩ := Option.map_eq_some_iff.1 hevals
  have h : build ticks = .ok c := Fallible.toOption_eq_some.1 hc
  obtain ⟨htick, hlength⟩ := Prod.mk.inj hevals
  obtain ⟨agree, _⟩ := agreement_is_symmetric h
  have along := (agree area tick).1
  have back := (agree tick area).1
  have apart := (agree length area).1
  refine ⟨c, h, area, tick, length, by decide, htick, (along.out 0 3).1 htick, (along.out 0 4).1 htick,
    (back.out 1 4).1 htick, ?_⟩
  rw [(apart.out 5 1 :), hlength]
  exact Bool.false_ne_true

end Catalog

end Metrology

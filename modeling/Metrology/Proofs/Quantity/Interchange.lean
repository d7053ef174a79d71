import Metrology.Proofs.Catalog.Coherence
import Metrology.Proofs.Conversion.Drift
import Metrology.Quantity

/-! Whether products and quotients depend on the unit that an operand is expressed in, in exact
arithmetic. Operands go into a product by way of their coherent units, but one that only counts goes in
as it is; so the conversions of a catalog have to fit the scales that arithmetic gives to its units. -/
namespace Metrology

variable {ε : Type} [Exponent ε]

namespace Catalog

/-- What one of a unit comes to in the unit that it is measured in. -/
def worth (c : Catalog Rat ε) (u : MeasureUnit ε) : Rat := ((Quantity.ofValue u 1).toCoherent c).amount

/-- What one of a unit counts for in a product, where a unit that only counts is not converted. -/
def scale (c : Catalog Rat ε) (u : MeasureUnit ε) : Rat := if u.isPure then 1 else c.worth u

/-- Every conversion factor is the quotient of the scales of its two units. -/
def FactorsFit (c : Catalog Rat ε) : Prop :=
  ∀ u ∈ c.units, ∀ v ∈ c.units, ∀ x, c.factor u.name v.name = some x → c.scale u = x * c.scale v

end Catalog

namespace Quantity

/-- Two quantities are the same: one of them, expressed in the unit of the other, is the other. -/
def Alike (c : Catalog Rat ε) (a b : Quantity Rat ε) : Prop :=
  a.convertTo c b.unit = some b ∨ b.convertTo c a.unit = some a

/-- Two quantities can stand for each other in products and quotients with a third one. -/
structure Interchangeable (c : Catalog Rat ε) (a b b' : Quantity Rat ε) : Prop where
  mul : (a.mul c b).Alike c (a.mul c b')
  mul_left : (b.mul c a).Alike c (b'.mul c a)
  div : b.value ≠ some 0 → ∃ r r', a.div c b = .ok r ∧ a.div c b' = .ok r' ∧ r.Alike c r'
  div_left : a.value ≠ some 0 → ∃ r r', b.div c a = .ok r ∧ b'.div c a = .ok r' ∧ r.Alike c r'

theorem Alike.refl (c : Catalog Rat ε) (a : Quantity Rat ε) : a.Alike c a := Or.inl (by simp [convertTo])

theorem Alike.symm {c : Catalog Rat ε} {a b : Quantity Rat ε} (h : a.Alike c b) : b.Alike c a := Or.symm h

theorem Alike.of_eq {c : Catalog Rat ε} {a b : Quantity Rat ε} (h : a = b) : a.Alike c b := h ▸ .refl c a

theorem Alike.value_eq {c : Catalog Rat ε} {u : MeasureUnit ε} {x y : Rat}
    (h : (ofValue u x).Alike c (ofValue u y)) : x = y := by
  rcases h with h | h
  · simpa [convertTo, ofValue] using h
  · simpa [convertTo, ofValue] using h.symm

theorem toCoherent_ofValue (c : Catalog Rat ε) (u : MeasureUnit ε) (x : Rat) :
    (ofValue u x).toCoherent c = ofValue (c.coherentUnit u) (x * c.worth u) := by
  by_cases hu : u = c.coherentUnit u
  · have hsame (y : Rat) : (ofValue u y).toCoherent c = ofValue u y := by
      simp [toCoherent, convertTo, ofValue, ← hu]
    rw [Catalog.worth, hsame, hsame, ← hu]
    simp [amount, ofValue]
  · cases hx : c.factor u.name (c.coherentUnit u).name with
    | some y => simp [toCoherent, convertTo, Catalog.worth, ofValue, hu, hx, amount]
    | none =>
      by_cases hd : u.dimension = (c.coherentUnit u).dimension <;>
        simp [toCoherent, convertTo, Catalog.worth, ofValue, retagged, hu, hx, hd, amount]

end Quantity

namespace Catalog

open Quantity

section Built

variable {desc : Description Rat} {c : Catalog Rat ε} {p q u v : MeasureUnit ε} {a b x : Rat}

theorem factor_declared (h : build desc = .ok c) (hu : u ∈ c.units) (hv : v ∈ c.units) :
    c.factor u.name v.name = c.table.factor u.name v.name := by
  simp [factor, lookup_declared h hu, lookup_declared h hv]

theorem factor_self (h : build desc = .ok c) (hu : u ∈ c.units) : c.factor u.name u.name = some 1 := by
  rw [factor_declared h hu hu, table_self h hu]

theorem factor_pos (h : build desc = .ok c) {source target : String}
    (hx : c.factor source target = some x) : 0 < x := by
  obtain ⟨d, hd, ht, _⟩ := build_eq_ok h
  obtain ⟨_, _, _, _, hx⟩ := factor_eq_some.1 hx
  exact Conversion.Table.factor_pos (level_of_draft hd).built ht hx

theorem dimension_eq (h : build desc = .ok c) (hu : u ∈ c.units) (hv : v ∈ c.units)
    (hx : c.factor u.name v.name = some x) : u.dimension = v.dimension :=
  dimension_of_table h hu hv (factor_declared h hu hv ▸ hx)

theorem factor_coherentUnit (h : build desc = .ok c) (hu : u ∈ c.units) :
    c.factor u.name (c.coherentUnit u).name = some (c.worth u) := by
  obtain ⟨hmem, hdim, d, hd, ht, n, y, r⟩ := coherentUnit_spec h hu
  have hlevel := level_of_draft hd
  have hunit : u.name ∈ d.graph.units := by
    obtain ⟨d', hd', _, hr⟩ := build_eq_ok h
    cases hd.symm.trans hd'
    rw [hlevel.names]
    exact List.mem_map_of_mem (hr ▸ hu)
  obtain ⟨z, hz, _⟩ := Conversion.Table.factor_route hlevel.built ht
    (Conversion.Table.factor_self ht hunit) r
  rw [← factor_declared h hu hmem] at hz
  by_cases hself : u = c.coherentUnit u
  · rw [← hself, factor_self h hu]
    simp [worth, toCoherent, convertTo, ofValue, amount, ← hself]
  · simp [worth, toCoherent, convertTo, ofValue, amount, hself, hz]

theorem worth_pos (h : build desc = .ok c) (hu : u ∈ c.units) : 0 < c.worth u :=
  factor_pos h (factor_coherentUnit h hu)

theorem magnitude_toCoherent (h : build desc = .ok c) (hu : u ∈ c.units) (x : Rat) :
    ((ofValue u x).toCoherent c).magnitude = ⟨u.dimension, x * c.worth u⟩ := by
  rw [toCoherent_ofValue, ← (coherentUnit_spec h hu).2.1]
  rfl

theorem convertTo_of_factor (h : build desc = .ok c) (hq : q ∈ c.units)
    (hx : c.factor q.name u.name = some x) (b : Rat) :
    (ofValue q b).convertTo c u = some (ofValue u (b * x)) := by
  by_cases hqu : q = u
  · subst hqu
    obtain rfl : 1 = x := by simpa [factor_self h hq] using hx
    simp [convertTo, ofValue]
  · simp [convertTo, ofValue, hqu, hx]

theorem alike_of_factor (h : build desc = .ok c) (hq : q ∈ c.units)
    (hx : c.factor q.name u.name = some x) (b : Rat) : (ofValue q b).Alike c (ofValue u (b * x)) :=
  Or.inl (convertTo_of_factor h hq hx b)

/-- A product goes by the shortcut for an operand that only counts, or by coherent units. -/
theorem mul_ofValue (h : build desc = .ok c) (hp : p ∈ c.units) (hq : q ∈ c.units) (a b : Rat) :
    (ofValue p a).mul c (ofValue q b) =
      if q.isPure then ofValue p (a * b)
      else if p.isPure then ofValue q (a * b)
      else ofValue (c.unitFor (p.dimension.mul q.dimension)) (a * c.worth p * (b * c.worth q)) := by
  simp only [Quantity.mul, magnitude_toCoherent h hp, magnitude_toCoherent h hq]
  rfl

/-- A quotient goes by the shortcut for equal units, by that for a divisor that only counts, or by
coherent units. -/
theorem div_ofValue (h : build desc = .ok c) (hp : p ∈ c.units) (hq : q ∈ c.units) (a : Rat)
    (hb : b ≠ 0) :
    (ofValue p a).div c (ofValue q b) = .ok
      (if p = q then ofValue c.number (a / b)
      else if q.isPure then ofValue p (a / b)
      else ofValue (c.unitFor (p.dimension.div q.dimension)) (a * c.worth p / (b * c.worth q))) := by
  have hzero : (ofValue q b).isKnownZero = false := by
    simpa [isKnownZero, ofValue, Scalar.isZero, Scalar.eq] using hb
  have hworth : Scalar.isZero (b * c.worth q) = false := by
    simpa [Scalar.isZero, Scalar.eq, hb] using (worth_pos h hq).ne'
  simp only [Quantity.div, hzero, magnitude_toCoherent h hp, magnitude_toCoherent h hq, Magnitude.div,
    hworth]
  split_ifs <;> first | rfl | contradiction

end Built

section Fit

variable {desc : Description Rat} {c : Catalog Rat ε} {p q u : MeasureUnit ε} {a b x : Rat}

theorem FactorsFit.eq_one (fit : c.FactorsFit) (hq : q ∈ c.units) (hu : u ∈ c.units)
    (hqp : q.isPure = true) (hup : u.isPure = true) (hx : c.factor q.name u.name = some x) : x = 1 := by
  have hscale := fit q hq u hu x hx
  simpa [scale, hqp, hup] using hscale.symm

theorem FactorsFit.worth_eq (h : build desc = .ok c) (fit : c.FactorsFit) (hq : q ∈ c.units)
    (hu : u ∈ c.units) (hx : c.factor q.name u.name = some x) : c.worth q = x * c.worth u := by
  have scale_eq {w : MeasureUnit ε} (hw : w ∈ c.units) : c.scale w = c.worth w := by
    unfold scale
    split_ifs with hpure
    · obtain ⟨hmem, hdim, _⟩ := coherentUnit_spec h hw
      have hpure' : (c.coherentUnit w).isPure = true := by rw [MeasureUnit.isPure, hdim]; exact hpure
      exact (fit.eq_one hw hmem hpure hpure' (factor_coherentUnit h hw)).symm
    · rfl
  rw [← scale_eq hq, ← scale_eq hu]
  exact fit q hq u hu x hx

theorem FactorsFit.alike_number (h : build desc = .ok c) (fit : c.FactorsFit) (hu : u ∈ c.units)
    (hpure : u.isPure = true) (x : Rat) : (ofValue c.number x).Alike c (ofValue u x) := by
  right
  have hnumber := number_mem h
  have hpure' := number_isPure h
  have hdim : u.dimension = c.number.dimension := dimension_eq_of_isPure h hu hnumber hpure hpure'
  cases hx : c.factor u.name c.number.name with
  | some y =>
    obtain rfl := fit.eq_one hu hnumber hpure hpure' hx
    have hconv := convertTo_of_factor h hu hx x
    rwa [mul_one] at hconv
  | none =>
    by_cases hself : u = c.number
    · simp [convertTo, ofValue, hself]
    · simp [convertTo, ofValue, retagged, hself, hx, hdim]

theorem isPure_eq (h : build desc = .ok c) (hq : q ∈ c.units) (hu : u ∈ c.units)
    (hx : c.factor q.name u.name = some x) : u.isPure = q.isPure := by
  rw [MeasureUnit.isPure, MeasureUnit.isPure, dimension_eq h hq hu hx]

theorem FactorsFit.mul_alike (h : build desc = .ok c) (fit : c.FactorsFit) (hp : p ∈ c.units)
    (hq : q ∈ c.units) (hu : u ∈ c.units) (hx : c.factor q.name u.name = some x) (a b : Rat) :
    ((ofValue p a).mul c (ofValue q b)).Alike c ((ofValue p a).mul c (ofValue u (b * x))) := by
  have hpure := isPure_eq h hq hu hx
  rw [mul_ofValue h hp hq, mul_ofValue h hp hu, hpure, dimension_eq h hq hu hx]
  split_ifs with hqp hpp
  · obtain rfl := fit.eq_one hq hu hqp (hpure.trans hqp) hx
    exact .of_eq (by rw [mul_one])
  · rw [← mul_assoc]
    exact alike_of_factor h hq hx (a * b)
  · rw [fit.worth_eq h hq hu hx, mul_assoc b x]
    exact .refl c _

theorem FactorsFit.mul_left_alike (h : build desc = .ok c) (fit : c.FactorsFit) (hp : p ∈ c.units)
    (hq : q ∈ c.units) (hu : u ∈ c.units) (hx : c.factor q.name u.name = some x) (a b : Rat) :
    ((ofValue q b).mul c (ofValue p a)).Alike c ((ofValue u (b * x)).mul c (ofValue p a)) := by
  have hpure := isPure_eq h hq hu hx
  rw [mul_ofValue h hq hp, mul_ofValue h hu hp, hpure, dimension_eq h hq hu hx]
  split_ifs with hpp hqp
  · rw [mul_right_comm]
    exact alike_of_factor h hq hx (b * a)
  · obtain rfl := fit.eq_one hq hu hqp (hpure.trans hqp) hx
    exact .of_eq (by rw [mul_one])
  · rw [fit.worth_eq h hq hu hx, mul_assoc b x]
    exact .refl c _

/-- A quotient by a unit that does not only count goes by coherent units even where units are equal. -/
theorem div_ofValue_of_not_isPure (h : build desc = .ok c) (hp : p ∈ c.units) (hq : q ∈ c.units)
    (hqp : q.isPure = false) (a : Rat) (hb : b ≠ 0) :
    (ofValue p a).div c (ofValue q b) = .ok
      (ofValue (c.unitFor (p.dimension.div q.dimension)) (a * c.worth p / (b * c.worth q))) := by
  rw [div_ofValue h hp hq a hb]
  by_cases hpq : p = q
  · subst hpq
    rw [if_pos rfl, unitFor_div_self h hp, mul_div_mul_right a b (worth_pos h hp).ne']
  · simp [hpq, hqp]

theorem FactorsFit.div_alike (h : build desc = .ok c) (fit : c.FactorsFit) (hp : p ∈ c.units)
    (hq : q ∈ c.units) (hu : u ∈ c.units) (hx : c.factor q.name u.name = some x) (a : Rat)
    (hb : b ≠ 0) : ∃ r r', (ofValue p a).div c (ofValue q b) = .ok r ∧
      (ofValue p a).div c (ofValue u (b * x)) = .ok r' ∧ r.Alike c r' := by
  have hpure := isPure_eq h hq hu hx
  have hbx : b * x ≠ 0 := mul_ne_zero hb (factor_pos h hx).ne'
  cases hqp : q.isPure with
  | false =>
    refine ⟨_, _, div_ofValue_of_not_isPure h hp hq hqp a hb,
      div_ofValue_of_not_isPure h hp hu (hpure.trans hqp) a hbx, ?_⟩
    rw [fit.worth_eq h hq hu hx, dimension_eq h hq hu hx, mul_assoc b x]
    exact .refl c _
  | true =>
    have hup := hpure.trans hqp
    refine ⟨_, _, div_ofValue h hp hq a hb, div_ofValue h hp hu a hbx, ?_⟩
    obtain rfl := fit.eq_one hq hu hqp hup hx
    rw [mul_one, if_pos hqp, if_pos hup]
    -- the shortcut for equal units drops a unit that only counts; the other one keeps it
    split_ifs with hpq hpu hpu
    · exact .refl c _
    · exact fit.alike_number h hp (hpq ▸ hqp) (a / b)
    · exact (fit.alike_number h hp (hpu ▸ hup) (a / b)).symm
    · exact .refl c _

theorem FactorsFit.div_left_alike (h : build desc = .ok c) (fit : c.FactorsFit) (hp : p ∈ c.units)
    (hq : q ∈ c.units) (hu : u ∈ c.units) (hx : c.factor q.name u.name = some x) (b : Rat)
    (ha : a ≠ 0) : ∃ r r', (ofValue q b).div c (ofValue p a) = .ok r ∧
      (ofValue u (b * x)).div c (ofValue p a) = .ok r' ∧ r.Alike c r' := by
  have hpure := isPure_eq h hq hu hx
  cases hpp : p.isPure with
  | false =>
    refine ⟨_, _, div_ofValue_of_not_isPure h hq hp hpp b ha,
      div_ofValue_of_not_isPure h hu hp hpp (b * x) ha, ?_⟩
    rw [fit.worth_eq h hq hu hx, dimension_eq h hq hu hx, mul_assoc b x]
    exact .refl c _
  | true =>
    refine ⟨_, _, div_ofValue h hq hp b ha, div_ofValue h hu hp (b * x) ha, ?_⟩
    rw [if_pos hpp, if_pos hpp]
    have one (hqp : q.isPure = true) : x = 1 := fit.eq_one hq hu hqp (hpure.trans hqp) hx
    split_ifs with hqp hup hup
    · exact .of_eq (by rw [one (hqp ▸ hpp), mul_one])
    · rw [one (hqp ▸ hpp), mul_one]
      exact fit.alike_number h hu (hpure.trans (hqp ▸ hpp)) (b / a)
    · have hqp : q.isPure = true := hpure.symm.trans (hup ▸ hpp)
      rw [one hqp, mul_one]
      exact (fit.alike_number h hq hqp (b / a)).symm
    · rw [mul_div_right_comm]
      exact alike_of_factor h hq hx (b / a)

/-- Where the factors fit, a quantity can be expressed in any unit before arithmetic. -/
theorem FactorsFit.interchangeable (h : build desc = .ok c) (fit : c.FactorsFit) (hp : p ∈ c.units)
    (hq : q ∈ c.units) (hu : u ∈ c.units) (hx : c.factor q.name u.name = some x) (a b : Rat) :
    Interchangeable c (ofValue p a) (ofValue q b) (ofValue u (b * x)) where
  mul := fit.mul_alike h hp hq hu hx a b
  mul_left := fit.mul_left_alike h hp hq hu hx a b
  div hb := fit.div_alike h hp hq hu hx a fun e => hb (congrArg some e)
  div_left ha := fit.div_left_alike h hp hq hu hx b fun e => ha (congrArg some e)

/-- The scales of two units can be told from a product alone. -/
theorem scale_eq_of_mul_alike (h : build desc = .ok c) (hq : q ∈ c.units) (hu : u ∈ c.units)
    (hx : c.factor q.name u.name = some x)
    (hmul : ∀ p ∈ c.units,
      ((ofValue p 1).mul c (ofValue q 1)).Alike c ((ofValue p 1).mul c (ofValue u (1 * x)))) :
    c.scale q = x * c.scale u := by
  have hpure := isPure_eq h hq hu hx
  cases hqp : q.isPure with
  | true =>
    have hnumber := hmul c.number (number_mem h)
    rw [mul_ofValue h (number_mem h) hq, mul_ofValue h (number_mem h) hu, if_pos hqp,
      if_pos (hpure.trans hqp)] at hnumber
    simpa [scale, hqp, hpure] using hnumber.value_eq
  | false =>
    have hself := hmul q hq
    rw [mul_ofValue h hq hq, mul_ofValue h hq hu, hpure, hqp, dimension_eq h hq hu hx] at hself
    have hvalue := hself.value_eq
    simpa [scale, hqp, hpure, (worth_pos h hq).ne'] using hvalue

/-- Arithmetic respects conversion in a catalog exactly when its factors fit the scales that arithmetic
gives to units: then, and only then, a known quantity in a declared unit can be replaced in all products
and quotients by its expression in any unit that it converts into. -/
theorem interchangeable_iff_factorsFit (h : build desc = .ok c) :
    (∀ p ∈ c.units, ∀ q ∈ c.units, ∀ u ∈ c.units, ∀ a b x, c.factor q.name u.name = some x →
      ∃ b', (ofValue q b).convertTo c u = some b' ∧
        Interchangeable c (ofValue p a) (ofValue q b) b') ↔ c.FactorsFit := by
  constructor
  · intro respects q hq u hu x hx
    refine scale_eq_of_mul_alike h hq hu hx fun p hp => ?_
    obtain ⟨b', hb', hinter⟩ := respects p hp q hq u hu 1 1 x hx
    rw [convertTo_of_factor h hq hx] at hb'
    cases hb'
    exact hinter.mul
  · intro fit p hp q hq u hu a b x hx
    exact ⟨_, convertTo_of_factor h hq hx b, fit.interchangeable h hp hq hu hx a b⟩

end Fit

/-- Lengths, and hundredths to count in. -/
def hundredths : Description Rat where
  units := [⟨"meter", "m", .base, .none⟩, ⟨"percent", "pc", .scaled "number" (1 / 100) .childToParent, .none⟩]

/-- Fifty percent of five meters is taken fifty times, and a half of them is a half. -/
theorem hundredths_not_interchangeable : ∃ (c : Catalog Rat) (m pc : MeasureUnit), build hundredths = .ok c ∧
    m ∈ c.units ∧ pc ∈ c.units ∧ c.factor pc.name c.number.name = some (1 / 100) ∧
    (ofValue m 5).mul c (ofValue pc 50) = ofValue m 250 ∧
    (ofValue m 5).mul c (ofValue c.number (50 / 100)) = ofValue m (5 / 2) ∧
    ¬ c.FactorsFit ∧ ∃ p ∈ c.units, ∃ q ∈ c.units, ∃ u ∈ c.units, ∃ a b x,
      c.factor q.name u.name = some x ∧ ∀ b', (ofValue q b).convertTo c u = some b' →
        ¬ Interchangeable c (ofValue p a) (ofValue q b) b' := by
  let m : MeasureUnit := ⟨"meter", "m", ⟨[1]⟩, true⟩
  let pc : MeasureUnit := ⟨"percent", "pc", ⟨[0]⟩, false⟩
  have hevals : (build hundredths).toOption.map (fun c : Catalog Rat => (decide (m ∈ c.units), decide (pc ∈ c.units),
      c.factor pc.name c.number.name, [(ofValue m 5).mul c (ofValue pc 50),
      (ofValue m 5).mul c (ofValue c.number (50 / 100))])) =
      some (true, true, some (1 / 100), [ofValue m 250, ofValue m (5 / 2)]) := by decide +kernel
  obtain ⟨c, hc, hevals⟩ := Option.map_eq_some_iff.1 hevals
  have h : build hundredths = .ok c := Fallible.toOption_eq_some.1 hc
  simp only [Prod.mk.injEq, List.cons.injEq, decide_eq_true_eq] at hevals
  obtain ⟨hm, hpc, hx, hmul, hmul', _⟩ := hevals
  have unfit : ¬ c.FactorsFit := by
    intro fit
    have hone := fit.eq_one hpc (number_mem h) rfl (number_isPure h) hx
    norm_num at hone
  refine ⟨c, m, pc, h, hm, hpc, hx, hmul, hmul', unfit, ?_⟩
  have broken := mt (interchangeable_iff_factorsFit h).1 unfit
  push Not at broken
  exact broken

end Catalog

end Metrology

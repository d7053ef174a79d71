import Mathlib.Algebra.Order.Ring.Rat
import Mathlib.Tactic.SplitIfs
import Metrology.Proofs.Quantity.Dimensions
import Metrology.Proofs.Quantity.Interchange

/-! Powers are iterated products, in exact arithmetic. A power goes to coherent units once and squares from there, a
product goes there with every factor. Both come to the same, because the unit of a product is measured in itself:
its name is not that of a declared unit, unless it is that unit. -/
namespace Metrology

theorem Scalar.powerLoop_eq (r a : Rat) (n : Nat) : powerLoop r a n = r * a ^ n := by
  fun_induction powerLoop r a n with
  | case1 r a n hn hodd =>
    obtain rfl : n = 1 := by omega
    rw [pow_one]
  | case2 r a n hn heven =>
    obtain rfl : n = 0 := by omega
    rw [pow_zero, mul_one]
  | case3 r a n hn ih =>
    rw [dite_eq_ite] at ih
    rw [ih, ← pow_two, ← pow_mul]
    split_ifs with hodd
    · rw [mul_assoc, ← pow_succ', show 2 * (n / 2) + 1 = n by omega]
    · rw [show 2 * (n / 2) = n by omega]

theorem Scalar.intPower_natCast (a : Rat) (n : Nat) : intPower a n = a ^ n := by
  rw [intPower, if_neg (by omega), Int.natAbs_natCast, powerLoop_eq, one_mul]

namespace Dimension

theorem pow_mul_self (d : Dimension Int) (n : Nat) : (d.pow n).mul d = d.pow (n + 1 : Nat) := by
  obtain ⟨exponents⟩ := d
  simp only [pow, mul, mk.injEq, Exponent.ofInt_int]
  induction exponents with
  | nil => rfl
  | cons k rest ih =>
    rw [List.map_cons, List.zipWith_cons_cons, ih, List.map_cons, Int.natCast_succ, Int.mul_add, Int.mul_one]

theorem isNone_pow (d : Dimension Int) {n : Nat} (hn : n ≠ 0) : (d.pow n).isNone = d.isNone := by
  have hzero (k : Int) : k * (n : Int) = 0 ↔ k = 0 := by simp [hn]
  simp only [isNone, pow, List.all_map, Function.comp_def, Exponent.ofInt_int, Exponent.toInt_int, hzero]

end Dimension

theorem Magnitude.pow_natCast (b : Magnitude Rat Int) {d : Dimension Int} {n : Nat} (hb : b.dimension.isNone = false)
    (hd : d.isNone = true) (hmax : n ≤ maxExponent) :
    b.pow ⟨d, n⟩ = .ok ⟨b.dimension.pow n, b.value ^ n⟩ := by
  have hwhole : wholeExponent? (n : Rat) = some (n : Int) := by
    simp [wholeExponent?, Scalar.toInt?, hmax]
  simp only [pow, hd, hb, hwhole, Scalar.intPower_natCast]
  rfl

namespace Catalog

open Quantity

variable {desc : Description Rat} {c : Catalog Rat Int}

theorem coherentUnit_unitFor (h : build desc = .ok c) (plain : c.PlainNames) {d : Dimension Int}
    (hd : d.arity = c.arity) : c.coherentUnit (c.unitFor d) = c.unitFor d := by
  cases hfind : c.entries.find? (fun e => e.reference.isNone && e.unit.dimension = d) with
  | some e =>
    have he := List.mem_of_find?_eq_some hfind
    have hunit : c.unitFor d = e.unit := by rw [Registry.unitFor, hfind]
    have hspec := List.find?_some hfind
    simp only [Bool.and_eq_true, Option.isNone_iff_eq_none] at hspec
    rw [hunit, coherentUnit_entry h he, Entry.coherent, hspec.1]
    rfl
  | none =>
    rcases unitFor_declared_or_unnamed h plain hd with hmem | hnone
    · -- a declared unit has an unscaled one of its dimension behind it
      obtain ⟨e, he, hunit⟩ := List.mem_map.1 hmem
      obtain ⟨r, hr, href, _, hdim, _⟩ := exists_reference h he
      have hdim : r.unit.dimension = d := by rw [hdim, hunit, Registry.dimension_unitFor]
      exact absurd (List.find?_eq_none.1 hfind r hr) (by simp [href, hdim])
    · rw [Registry.coherentUnit, hnone]

theorem worth_of_coherentUnit {u : MeasureUnit Int} (hu : c.coherentUnit u = u) : c.worth u = 1 := by
  simp [worth, toCoherent, convertTo, hu, ofValue, amount]

end Catalog

namespace Quantity

open Catalog

/-- A quantity multiplied with itself, by the number of factors. -/
def selfProduct (c : Catalog Rat Int) (a : Quantity Rat Int) : Nat → Quantity Rat Int
  | 0 => .ofValue c.number 1
  | 1 => a
  | n + 2 => (selfProduct c a (n + 1)).mul c a

variable {desc : Description Rat} {c : Catalog Rat Int} {u v : MeasureUnit Int}

theorem mul_ofValue_of_unit (hu : u.isPure = false) (hv : v.isPure = false) (x y : Rat) :
    (ofValue u x).mul c (ofValue v y) =
      ofValue (c.unitFor ((c.coherentUnit u).dimension.mul (c.coherentUnit v).dimension))
        (x * c.worth u * (y * c.worth v)) := by
  have hu' : (ofValue u x).isPure = false := hu
  have hv' : (ofValue v y).isPure = false := hv
  simp only [mul, toCoherent_ofValue, hu', hv', Bool.false_eq_true, if_false]
  rfl

section Measured

variable (h : build desc = .ok c) (plain : c.PlainNames) (hu : c.Measures u) (himpure : u.isPure = false)

include h plain hu himpure

/-- From two factors on, a product is in a unit that is measured in itself. -/
theorem selfProduct_eq (x : Rat) (n : Nat) : selfProduct c (ofValue u x) (n + 2) =
    ofValue (c.unitFor (u.dimension.pow (n + 2 : Nat))) ((x * c.worth u) ^ (n + 2)) := by
  have hdim := dimension_coherentUnit h plain hu
  induction n with
  | zero =>
    rw [selfProduct, selfProduct, mul_ofValue_of_unit himpure himpure, hdim, ← pow_two]
    have hone : u.dimension.pow (1 : Nat) = u.dimension := by simp [Dimension.pow]
    rw [← Dimension.pow_mul_self, hone]
  | succ n ih =>
    have harity : (u.dimension.pow (n + 2 : Nat)).arity = c.arity := by
      rw [Dimension.arity_pow, hu.arity h]
    have hself := coherentUnit_unitFor h plain harity
    have himpure' : (c.unitFor (u.dimension.pow (n + 2 : Nat))).isPure = false := by
      rw [MeasureUnit.isPure, Registry.dimension_unitFor, Dimension.isNone_pow _ (by omega)]
      exact himpure
    rw [selfProduct, ih, mul_ofValue_of_unit himpure' himpure, hself, hdim, worth_of_coherentUnit hself,
      Registry.dimension_unitFor, mul_one, ← pow_succ, Dimension.pow_mul_self]

theorem pow_ofValue (x : Rat) {n : Nat} (hn : n ≠ 1) (hmax : n ≤ Magnitude.maxExponent) :
    (ofValue u x).pow c (ofValue c.number n) =
      .ok (ofValue (c.unitFor (u.dimension.pow n)) ((x * c.worth u) ^ n)) := by
  have hdim := dimension_coherentUnit h plain hu
  have himpure' : (ofValue u x).isPure = false := himpure
  have hpure : (ofValue c.number (n : Rat)).isPure = true := number_isPure h
  have hone : Scalar.eq (ofValue c.number (n : Rat)).amount 1 = false := by
    simpa [ofValue, amount, Scalar.eq] using hn
  have hraised : ((ofValue u x).toCoherent c).magnitude.pow (ofValue c.number (n : Rat)).magnitude =
      .ok ⟨u.dimension.pow n, (x * c.worth u) ^ n⟩ := by
    have hcoherent : (c.coherentUnit u).dimension.isNone = false := hdim ▸ himpure
    rw [toCoherent_ofValue, ← hdim]
    exact Magnitude.pow_natCast _ hcoherent (number_isPure h) hmax
  simp only [pow, hpure, himpure', hone, hraised]
  rfl

end Measured

/-- A power with a whole exponent is the product of so many factors, in unit and value: whether the base stands in a
declared unit, which may be scaled, or in one that arithmetic has made, and whatever units the products on the
way have. -/
theorem power_is_iterated_product {desc : Description Rat} {c : Catalog Rat Int} (h : build desc = .ok c)
    (plain : c.PlainNames) {a : Quantity Rat Int} (hunit : c.Measures a.unit) (himpure : a.isPure = false)
    (known : a.isKnown = true) {n : Nat} (hpos : 1 ≤ n) (hmax : n ≤ 2147483647) :
    a.pow c (.ofValue c.number n) = .ok (selfProduct c a n) := by
  obtain ⟨u, value⟩ := a
  obtain ⟨x, rfl⟩ := Option.isSome_iff_exists.1 known
  by_cases hone : n = 1
  · subst hone
    have hpure : (ofValue c.number ((1 : Nat) : Rat)).isPure = true := number_isPure h
    have heq : Scalar.eq (ofValue c.number ((1 : Nat) : Rat)).amount 1 = true := by
      simp [ofValue, amount, Scalar.eq]
    simp only [pow, hpure, himpure, heq]
    rfl
  · obtain ⟨k, rfl⟩ := Nat.exists_eq_add_of_le' (show 2 ≤ n by omega)
    calc (ofValue u x).pow c (ofValue c.number (k + 2 : Nat))
        = .ok (ofValue (c.unitFor (u.dimension.pow (k + 2 : Nat))) ((x * c.worth u) ^ (k + 2))) :=
          pow_ofValue h plain hunit himpure x hone hmax
      _ = .ok (selfProduct c (ofValue u x) (k + 2)) := by rw [selfProduct_eq h plain hunit himpure]

/-- Lengths and areas, where the symbol of a length reads like a volume. -/
def plots : Description Rat where
  units := [⟨"meter", "m", .base, .none⟩, ⟨"kilometer", "m^3", .scaled "meter" 1000 .childToParent, .none⟩,
    ⟨"square", "sq", .compound [⟨"meter", 2⟩], .none⟩]

/-- The cube of kilometers is reached over declared squares. -/
theorem plots_cube : ∃ c : Catalog Rat Int, build plots = .ok c ∧ c.PlainNames ∧ ∃ a : Quantity Rat Int,
    c.Measures a.unit ∧ a.isPure = false ∧ a.pow c (.ofValue c.number (3 : Nat)) = .ok (selfProduct c a 3) ∧
    selfProduct c a 2 = .ofValue ⟨"square", "sq", ⟨[2]⟩, false⟩ 4000000 ∧
    selfProduct c a 3 = .ofValue ⟨"m^3", "m^3", ⟨[3]⟩, false⟩ 8000000000 := by
  let a : Quantity Rat Int := .ofValue ⟨"kilometer", "m^3", ⟨[1]⟩, false⟩ 2
  have hevals : (build plots).toOption.map (fun c : Catalog Rat Int => (decide c.PlainNames, decide (a.unit ∈ c.units),
      selfProduct c a 2, selfProduct c a 3)) = some (true, true,
        .ofValue ⟨"square", "sq", ⟨[2]⟩, false⟩ 4000000, .ofValue ⟨"m^3", "m^3", ⟨[3]⟩, false⟩ 8000000000) := by
    decide +kernel
  obtain ⟨c, hc, hevals⟩ := Option.map_eq_some_iff.1 hevals
  have h : build plots = .ok c := Fallible.toOption_eq_some.1 hc
  obtain ⟨hplain, hrest⟩ := Prod.mk.inj hevals
  obtain ⟨hmem, hrest⟩ := Prod.mk.inj hrest
  obtain ⟨hsquare, hcube⟩ := Prod.mk.inj hrest
  have plain : c.PlainNames := of_decide_eq_true hplain
  have hunit : c.Measures a.unit := .declared (of_decide_eq_true hmem)
  exact ⟨c, h, plain, a, hunit, rfl,
    power_is_iterated_product h plain hunit rfl rfl (by decide) (by decide), hsquare, hcube⟩

end Quantity

end Metrology

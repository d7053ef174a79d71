import Metrology.Proofs.Catalog.Slots
import Metrology.Proofs.Decimal.Binary
import Metrology.Proofs.Quantity.Measured

/-! Arithmetic on quantities adds, subtracts and scales dimensions. Results get their units along different
ways: the unit of an operand is kept, plain numbers are taken, or a unit is looked up for the dimension of the
coherent operands. All of them agree with the exponents of the operands. -/
namespace Metrology

namespace Dimension

def exponent (d : Dimension Int) (slot : Nat) : Int := d.exponents.getD slot 0

variable {a b : Dimension Int}

theorem exponent_of_isNone (h : a.isNone = true) (slot : Nat) : a.exponent slot = 0 := by
  rw [(isNone_iff a).1 h]
  simp only [exponent, none, List.getD_eq_getElem?_getD, List.getElem?_replicate]
  split_ifs <;> rfl

theorem getD_zipWith {f : Int → Int → Int} (hf : f 0 0 = 0) {l m : List Int} (h : l.length = m.length)
    (slot : Nat) : (List.zipWith f l m).getD slot 0 = f (l.getD slot 0) (m.getD slot 0) := by
  simp only [List.getD_eq_getElem?_getD, List.getElem?_zipWith]
  by_cases hslot : slot < l.length
  · simp [hslot, h ▸ hslot]
  · simp [Nat.le_of_not_lt hslot, h ▸ Nat.le_of_not_lt hslot, hf]

theorem exponent_mul (h : a.arity = b.arity) (slot : Nat) :
    (a.mul b).exponent slot = a.exponent slot + b.exponent slot := getD_zipWith rfl h slot

theorem exponent_div (h : a.arity = b.arity) (slot : Nat) :
    (a.div b).exponent slot = a.exponent slot - b.exponent slot := getD_zipWith rfl h slot

theorem exponent_pow (a : Dimension Int) (n : Int) (slot : Nat) :
    (a.pow n).exponent slot = n * a.exponent slot := by
  simp only [exponent, pow, List.getD_eq_getElem?_getD, List.getElem?_map, Exponent.ofInt_int]
  cases a.exponents[slot]? <;> simp [Int.mul_comm]

end Dimension

open Catalog Fallible

namespace Quantity

variable {α : Type}

def exponent (q : Quantity α Int) (slot : Nat) : Int := q.unit.dimension.exponent slot

/-- A quantity has a slot for each base unit of a catalog, and in them these exponents. -/
structure HasDimension (c : Catalog α Int) (q : Quantity α Int) (exponents : Nat → Int) : Prop where
  arity : q.unit.dimension.arity = c.arity
  exponent : ∀ slot, q.exponent slot = exponents slot

variable {desc : Description α} {c : Catalog α Int} {a b q : Quantity α Int}

theorem exponent_of_isPure (h : q.isPure = true) (slot : Nat) : q.exponent slot = 0 :=
  Dimension.exponent_of_isNone h slot

theorem HasDimension.of_unit_eq (harity : a.unit.dimension.arity = c.arity) (hunit : q.unit = a.unit) :
    q.HasDimension c a.exponent where
  arity := hunit ▸ harity
  exponent slot := congrArg (fun u : MeasureUnit Int => u.dimension.exponent slot) hunit

theorem exponent_ofMagnitude (c : Catalog α Int) (m : Magnitude α Int) (known : Bool) (slot : Nat) :
    (ofMagnitude c m known).exponent slot = m.dimension.exponent slot :=
  congrArg (Dimension.exponent · slot) (Registry.dimension_unitFor c.toRegistry m.dimension)

variable [Scalar α]

theorem dimension_toCoherent (h : build desc = .ok c) (plain : c.PlainNames) (hq : c.Measures q.unit) :
    (q.toCoherent c).magnitude.dimension = q.unit.dimension := by
  change (q.toCoherent c).unit.dimension = q.unit.dimension
  rw [unit_toCoherent, dimension_coherentUnit h plain hq]

theorem hasDimension_mul (h : build desc = .ok c) (plain : c.PlainNames) (ha : c.Measures a.unit)
    (hb : c.Measures b.unit) :
    (a.mul c b).HasDimension c fun slot => a.exponent slot + b.exponent slot := by
  refine ⟨(measures_mul h ha hb).arity h, ?_⟩
  intro slot
  unfold mul
  dsimp only
  split_ifs with hbp hap
  · rw [exponent_of_isPure hbp, Int.add_zero]
    rfl
  · rw [exponent_of_isPure hap, Int.zero_add]
    rfl
  · have harity : a.unit.dimension.arity = b.unit.dimension.arity := (ha.arity h).trans (hb.arity h).symm
    rw [exponent_ofMagnitude, Magnitude.mul, dimension_toCoherent h plain ha, dimension_toCoherent h plain hb,
      Dimension.exponent_mul harity]
    rfl

theorem hasDimension_div (h : build desc = .ok c) (plain : c.PlainNames) (ha : c.Measures a.unit)
    (hb : c.Measures b.unit) (hq : a.div c b = .ok q) :
    q.HasDimension c fun slot => a.exponent slot - b.exponent slot := by
  refine ⟨(measures_div h ha hb hq).arity h, ?_⟩
  intro slot
  unfold div at hq
  dsimp only at hq
  split_ifs at hq with hzero hsame hbp
  · cases hq
    rw [exponent_of_isPure (q := derived c.number _ _) (number_isPure h), exponent, exponent, hsame,
      Int.sub_self]
  · cases hq
    rw [exponent_of_isPure hbp, Int.sub_zero]
    rfl
  · obtain ⟨quotient, hquotient, hq⟩ := bind_eq_ok.1 hq
    cases hq
    unfold Magnitude.div at hquotient
    split_ifs at hquotient
    cases hquotient
    have harity : a.unit.dimension.arity = b.unit.dimension.arity := (ha.arity h).trans (hb.arity h).symm
    rw [exponent_ofMagnitude, dimension_toCoherent h plain ha, dimension_toCoherent h plain hb,
      Dimension.exponent_div harity]
    rfl

def IsWhole (q : Quantity α Int) (n : Int) : Prop := ∃ x, q.value = some x ∧ Scalar.toInt? x = some n

theorem IsWhole.unique {m n : Int} (hm : q.IsWhole m) (hn : q.IsWhole n) : m = n := by
  obtain ⟨x, hx, hm⟩ := hm
  obtain ⟨y, hy, hn⟩ := hn
  obtain rfl : x = y := Option.some.inj (hx.symm.trans hy)
  exact Option.some.inj (hm.symm.trans hn)

theorem amount_of_isKnown (h : q.isKnown = true) : q.value = some q.amount := by
  obtain ⟨x, hx⟩ := Option.isSome_iff_exists.1 h
  simp [amount, hx]

/-- A power of a plain number stays in its unit; any other power has a known whole exponent, which scales
the dimension. Where the exponent is one, the base is not touched, so that one has to be whole. -/
theorem pow_cases (h : build desc = .ok c) (plain : c.PlainNames) (ha : c.Measures a.unit)
    (one_whole : ∀ x : α, Scalar.eq x 1 = true → Scalar.toInt? x = some 1) (hq : a.pow c b = .ok q) :
    (a.isPure = true ∧ q.unit = a.unit) ∨
      ∃ n, b.IsWhole n ∧ ∀ slot, q.exponent slot = n * a.exponent slot := by
  unfold pow at hq
  dsimp only at hq
  split_ifs at hq with hbp hap hknown hone
  · obtain ⟨_, _, hq⟩ := bind_eq_ok.1 hq
    cases hq
    exact Or.inl ⟨hap, rfl⟩
  · cases hq
    refine Or.inr ⟨1, ⟨b.amount, amount_of_isKnown (by simpa using hknown), one_whole _ hone⟩, ?_⟩
    intro slot
    rw [Int.one_mul]
  · obtain ⟨raised, hraised, hq⟩ := bind_eq_ok.1 hq
    cases hq
    right
    unfold Magnitude.pow at hraised
    rw [dimension_toCoherent h plain ha] at hraised
    split_ifs at hraised with hexp hbase
    · exact absurd hbase hap
    · split at hraised
      · next n hn =>
        cases hraised
        obtain ⟨hwhole, _⟩ := Option.filter_eq_some_iff.1 hn
        refine ⟨n, ⟨b.amount, amount_of_isKnown (by simpa using hknown), hwhole⟩, ?_⟩
        intro slot
        rw [exponent_ofMagnitude, Dimension.exponent_pow]
        rfl
      · cases hraised

end Quantity

/-- Arithmetic is a homomorphism of dimensions, wherever it succeeds and along every shortcut: a product adds
the exponents of its operands and a quotient subtracts them, a power with a known whole exponent multiplies
them, a power of a plain number has none, and everything else keeps those of its first operand. -/
theorem Quantity.dimension_homomorphism {desc : Description Float} {c : Catalog Float Int}
    (h : build desc = .ok c) (plain : c.PlainNames) {a b : Quantity Float Int} (ha : c.Measures a.unit)
    (hb : c.Measures b.unit) :
    ((a.mul c b).HasDimension c fun slot => a.exponent slot + b.exponent slot) ∧
    (∀ q, a.div c b = .ok q → q.HasDimension c fun slot => a.exponent slot - b.exponent slot) ∧
    (∀ q, a.pow c b = .ok q →
      (∀ n, b.IsWhole n → q.HasDimension c fun slot => n * a.exponent slot) ∧
      (a.isPure = true → q.HasDimension c fun _ => 0) ∧ (a.isPure = false → ∃ n, b.IsWhole n)) ∧
    (∀ q, a.add c b = .ok q ∨ a.sub c b = .ok q ∨ a.mod b = .ok q ∨ a.neg = q →
      q.HasDimension c a.exponent) := by
  have harity := ha.arity h
  refine ⟨hasDimension_mul h plain ha hb, fun q => hasDimension_div h plain ha hb, ?_, ?_⟩
  · intro q hq
    have harity' := (measures_pow h ha hq).arity h
    rcases pow_cases h plain ha (fun x => Decimal.toInt?_of_eq_one) hq with
      ⟨hpure, hunit⟩ | ⟨n, hwhole, hexp⟩
    · have hzero : ∀ slot, q.exponent slot = 0 := by
        intro slot
        rw [← exponent_of_isPure hpure slot]
        exact (HasDimension.of_unit_eq harity hunit).exponent slot
      refine ⟨?_, fun _ => ⟨harity', hzero⟩, ?_⟩
      · intro n _
        refine ⟨harity', ?_⟩
        intro slot
        rw [hzero, exponent_of_isPure hpure, Int.mul_zero]
      · intro himpure
        rw [hpure] at himpure
        cases himpure
    · refine ⟨?_, ?_, fun _ => ⟨n, hwhole⟩⟩
      · intro m hm
        rw [hm.unique hwhole]
        exact ⟨harity', hexp⟩
      · intro hpure
        refine ⟨harity', ?_⟩
        intro slot
        rw [hexp, exponent_of_isPure hpure, Int.mul_zero]
  · rintro q (hq | hq | hq | rfl)
    · exact .of_unit_eq harity (unit_add hq)
    · exact .of_unit_eq harity (unit_sub hq)
    · exact .of_unit_eq harity (unit_mod hq)
    · exact .of_unit_eq harity rfl

/-- Distances and times, with a symbol that reads like an acceleration. -/
def rides : Description Float where
  units := [⟨"meter", "m", .base, .none⟩, ⟨"second", "s", .base, .none⟩,
    ⟨"kilometer", "m/s^2", .scaled "meter" 1000 .childToParent, .none⟩]

/-- Kilometers times an acceleration, whose name resolves to kilometers, are a squared speed. -/
theorem rides_homomorphism : ∃ c : Catalog Float Int, build rides = .ok c ∧ c.PlainNames ∧ ∃ a b : Quantity Float Int,
    c.Measures a.unit ∧ c.Measures b.unit ∧ c.lookup b.unit.name = some a.unit ∧
      (a.mul c b).exponent 0 = 2 ∧ (a.mul c b).exponent 1 = -2 := by
  have hevals : (build rides).toOption.map (fun c : Catalog Float Int => (decide c.PlainNames, c.arity,
      c.lookup (c.unitFor ⟨[1, -2]⟩).name)) =
        some (true, 2, some ⟨"kilometer", "m/s^2", ⟨[1, 0]⟩, false⟩) := by
    decide +kernel
  obtain ⟨c, hc, hevals⟩ := Option.map_eq_some_iff.1 hevals
  have h : build rides = .ok c := toOption_eq_some.1 hc
  obtain ⟨hplain, hrest⟩ := Prod.mk.inj hevals
  obtain ⟨harity, hlookup⟩ := Prod.mk.inj hrest
  have plain : c.PlainNames := of_decide_eq_true hplain
  let a : Quantity Float Int := .ofValue ⟨"kilometer", "m/s^2", ⟨[1, 0]⟩, false⟩ 3
  let b : Quantity Float Int := .unknown (c.unitFor ⟨[1, -2]⟩)
  have ha : c.Measures a.unit := .declared (Registry.mem_of_lookup hlookup)
  have hb : c.Measures b.unit := .unitFor harity.symm
  have hb' : b.unit.dimension = ⟨[1, -2]⟩ := Registry.dimension_unitFor c.toRegistry _
  obtain ⟨hmul, _⟩ := Quantity.dimension_homomorphism h plain ha hb
  refine ⟨c, h, plain, a, b, ha, hb, hlookup, ?_, ?_⟩
  · rw [hmul.exponent, Quantity.exponent, Quantity.exponent, hb']
    rfl
  · rw [hmul.exponent, Quantity.exponent, Quantity.exponent, hb']
    rfl

end Metrology

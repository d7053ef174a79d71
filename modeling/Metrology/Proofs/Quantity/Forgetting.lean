import Metrology.Proofs.Quantity.Dimensions
import Metrology.Proofs.Quantity.Symmetry

/-! Calculating without values. Where a rule gives a value, it still does when the value of an operand is
forgotten; what it gives has the category and the unit it had, and is not known. One operand stands out, the
exponent of a unit: it decides about the unit of the result. -/
namespace Metrology

open Fallible

variable {α : Type}

namespace Quantity

/-- A quantity as it is, or with its value forgotten. -/
inductive Blurred (q : Quantity α) : Quantity α → Prop
  | kept : Blurred q q
  | forgotten : Blurred q q.forgotten

variable {a a' b b' q q' : Quantity α} {c : Catalog α}

namespace Blurred

theorem unit (h : q.Blurred q') : q'.unit = q.unit := by
  cases h <;> rfl

theorem isPure (h : q.Blurred q') : q'.isPure = q.isPure := congrArg MeasureUnit.isPure h.unit

theorem isCompatible (ha : a.Blurred a') (hb : b.Blurred b') :
    a'.isCompatible c b' = a.isCompatible c b := by
  rw [Quantity.isCompatible, Quantity.isCompatible, ha.unit, hb.unit]

theorem eq_forgotten (h : q.Blurred q') (unknown : q'.isKnown = false) : q' = q.forgotten := by
  cases h with
  | kept =>
    obtain ⟨unit, value⟩ := q
    cases value with
    | none => rfl
    | some x => cases unknown
  | forgotten => rfl

end Blurred

variable [Scalar α]

theorem Blurred.isKnownZero (h : q.Blurred q') (hq : ¬ q.isKnownZero = true) : ¬ q'.isKnownZero = true := by
  cases h with
  | kept => exact hq
  | forgotten => exact Bool.false_ne_true

/-- One is taken for a value that is not known, and one is not zero. -/
theorem Blurred.amount (one : Scalar.isZero (1 : α) = false) (h : q.Blurred q')
    (hq : ¬ Scalar.isZero q.amount = true) : ¬ Scalar.isZero q'.amount = true := by
  cases h with
  | kept => exact hq
  | forgotten => exact ne_true_of_eq_false one

/-- Whether a conversion exists, and into which unit, has nothing to do with the value. -/
theorem convertTo_forgotten (c : Catalog α) (q : Quantity α) (target : MeasureUnit) :
    q.forgotten.convertTo c target = (q.convertTo c target).map forgotten := by
  unfold convertTo
  rw [show q.forgotten.unit = q.unit from rfl]
  split
  · rfl
  · split
    · rfl
    · split <;> rfl

theorem isKnown_of_convertTo {target : MeasureUnit} (h : q.convertTo c target = some q') :
    q'.isKnown = q.isKnown := by
  unfold convertTo at h
  split at h
  · rw [Option.some.inj h]
  · split at h
    · cases h
      simp [isKnown]
    · split at h <;> cases h
      rfl

theorem toCoherent_forgotten (c : Catalog α) (q : Quantity α) :
    q.forgotten.toCoherent c = (q.toCoherent c).forgotten := by
  unfold toCoherent
  dsimp only
  rw [convertTo_forgotten, show q.forgotten.unit = q.unit from rfl]
  cases q.convertTo c (c.coherentUnit q.unit) <;> rfl

namespace Blurred

theorem convertTo {target : MeasureUnit} (h : q.Blurred q') (hq : q.convertTo c target = some a) :
    ∃ a', q'.convertTo c target = some a' ∧ a.Blurred a' := by
  cases h with
  | kept => exact ⟨a, hq, .kept⟩
  | forgotten => exact ⟨a.forgotten, by rw [convertTo_forgotten, hq]; rfl, .forgotten⟩

theorem toCoherent (h : q.Blurred q') : (q.toCoherent c).Blurred (q'.toCoherent c) := by
  cases h with
  | kept => exact .kept
  | forgotten =>
    rw [toCoherent_forgotten]
    exact .forgotten

theorem dimension (h : q.Blurred q') : q'.magnitude.dimension = q.magnitude.dimension :=
  congrArg MeasureUnit.dimension h.unit

theorem aligned (ha : a.Blurred a') (hb : b.Blurred b') (h : a.aligned c b = .ok q) :
    ∃ q', a'.aligned c b' = .ok q' ∧ q'.isKnown = b'.isKnown := by
  unfold Quantity.aligned at h
  split_ifs at h with hab
  split at h
  · next r hr =>
    obtain ⟨q', hq', _⟩ := hb.convertTo hr
    refine ⟨q', ?_, isKnown_of_convertTo hq'⟩
    simp only [Quantity.aligned, ha.isCompatible hb, hab, ha.unit, hq']
    rfl
  · cases h

end Blurred

section Operations

variable (ha : a.Blurred a') (hb : b.Blurred b') (unknown : (a'.isKnown && b'.isKnown) = false)

include ha hb unknown

/-- Sums and differences: what is aligned has one dimension, whatever the values are. -/
theorem combine_blurred {f : Magnitude α → Magnitude α → Except (AlgebraError α) (Magnitude α)}
    (hf : ∀ x y, x.dimension = y.dimension → ∃ z, f x y = .ok z)
    (h : (do
        let b ← a.aligned c b
        let z ← f a.magnitude b.magnitude
        return derived a.unit z.value (a.isKnown && b.isKnown)) = Except.ok q) :
    (do
        let b ← a'.aligned c b'
        let z ← f a'.magnitude b.magnitude
        return derived a'.unit z.value (a'.isKnown && b.isKnown)) = Except.ok q.forgotten := by
  obtain ⟨r, hr, h⟩ := bind_eq_ok.1 h
  obtain ⟨z, _, h⟩ := bind_eq_ok.1 h
  cases h
  obtain ⟨r', hr', hknown⟩ := ha.aligned hb hr
  obtain ⟨z', hz'⟩ := hf a'.magnitude r'.magnitude (dimension_of_aligned hr').symm
  refine bind_eq_ok.2 ⟨r', hr', bind_eq_ok.2 ⟨z', hz', ?_⟩⟩
  rw [hknown, unknown, ha.unit]
  rfl

theorem add_blurred (h : a.add c b = .ok q) : a'.add c b' = .ok q.forgotten :=
  combine_blurred ha hb unknown (f := Magnitude.add) (fun _ _ hdim => ⟨_, if_pos hdim⟩) h

theorem sub_blurred (h : a.sub c b = .ok q) : a'.sub c b' = .ok q.forgotten :=
  combine_blurred ha hb unknown (f := Magnitude.sub) (fun _ _ hdim => ⟨_, if_pos hdim⟩) h

theorem mul_blurred : a'.mul c b' = (a.mul c b).forgotten := by
  unfold mul
  simp only [unknown, ha.isPure, hb.isPure, ha.unit, hb.unit]
  split_ifs
  · rfl
  · rfl
  · simp only [ofMagnitude, Magnitude.mul, ha.toCoherent.dimension, hb.toCoherent.dimension]
    rfl

theorem div_blurred (one : Scalar.isZero (1 : α) = false) (h : a.div c b = .ok q) :
    a'.div c b' = .ok q.forgotten := by
  unfold div at h ⊢
  dsimp only at h
  simp only [unknown, ha.unit, hb.unit, hb.isPure]
  split_ifs at h with hzero hsame hpure
  · cases h
    rw [if_neg (hb.isKnownZero hzero), if_pos hsame]
    rfl
  · cases h
    rw [if_neg (hb.isKnownZero hzero), if_neg hsame, if_pos hpure]
    rfl
  · obtain ⟨quotient, hquotient, h⟩ := bind_eq_ok.1 h
    cases h
    unfold Magnitude.div at hquotient
    split_ifs at hquotient with hdivisor
    cases hquotient
    have hdivisor' : ¬ Scalar.isZero (b'.toCoherent c).magnitude.value = true :=
      hb.toCoherent.amount one hdivisor
    rw [if_neg (hb.isKnownZero hzero), if_neg hsame, if_neg hpure, Magnitude.div, if_neg hdivisor',
      ha.toCoherent.dimension, hb.toCoherent.dimension]
    rfl

theorem mod_blurred (one : Scalar.isZero (1 : α) = false) (h : a.mod b = .ok q) :
    a'.mod b' = .ok q.forgotten := by
  unfold mod at h ⊢
  split_ifs at h with hpure hzero
  obtain ⟨rest, hrest, h⟩ := bind_eq_ok.1 h
  cases h
  unfold Magnitude.mod at hrest
  split_ifs at hrest with hdim hdivisor
  have hdivisor' : ¬ Scalar.isZero b'.magnitude.value = true := hb.amount one hdivisor
  rw [hb.isPure, if_neg hpure, if_neg (hb.isKnownZero hzero), Magnitude.mod, hb.dimension, if_neg hdim,
    if_neg hdivisor', unknown, ha.unit]
  rfl

/-- The exponent of a unit must not be touched. -/
theorem pow_blurred (hexponent : a.isPure = true ∨ b' = b) (h : a.pow c b = .ok q) :
    a'.pow c b' = .ok q.forgotten := by
  unfold pow at h ⊢
  dsimp only at h
  simp only [unknown, ha.isPure, hb.isPure, ha.unit]
  split_ifs at h with hpure hbase hknown hone
  · obtain ⟨raised, hraised, h⟩ := bind_eq_ok.1 h
    cases h
    have hbase' : a'.magnitude.dimension.isNone = true := ha.isPure.trans hbase
    have hexponent' : ¬ (!b'.magnitude.dimension.isNone) = true := by rwa [hb.dimension]
    rw [if_neg hpure, if_pos hbase, Magnitude.pow, if_neg hexponent', if_pos hbase']
    rfl
  all_goals
    obtain rfl : b' = b := hexponent.resolve_left hbase
    have hexponent' : b'.isKnown = true := by simpa using hknown
    rw [if_neg hpure, if_neg hbase, if_neg hknown]
  · cases h
    rw [if_pos hone, ha.eq_forgotten (by simpa [hexponent'] using unknown)]
  · obtain ⟨raised, hraised, h⟩ := bind_eq_ok.1 h
    cases h
    rw [if_neg hone]
    unfold Magnitude.pow at hraised ⊢
    rw [ha.toCoherent.dimension]
    split_ifs at hraised ⊢
    · cases hraised
      rfl
    · split at hraised
      · cases hraised
        rfl
      · cases hraised

end Operations

end Quantity

namespace Typing

variable [Scalar α] {c : Catalog α} {op : BinaryOp} {a a' b b' : Quantity α} {left right v w : Value α}

omit [Scalar α] in
theorem measured_forgotten {r r' : Except (AlgebraError α) (Quantity α)}
    (hr : ∀ q, r = .ok q → r' = .ok q.forgotten)
    (h : (match r with
      | .ok q => .ok (.measurement q)
      | .error e => .error (TypeError.ofAlgebra op a b e)) = Except.ok v) :
    (match r' with
      | .ok q => .ok (.measurement q)
      | .error e => .error (TypeError.ofAlgebra op a' b' e)) = Except.ok v.forgotten := by
  split at h
  · next q =>
    cases h
    rw [hr q rfl]
    rfl
  · cases h

theorem quantities_blurred (one : Scalar.isZero (1 : α) = false) (ha : a.Blurred a') (hb : b.Blurred b')
    (unknown : (a'.isKnown && b'.isKnown) = false) (hexponent : op = .pow → a.isPure = true ∨ b' = b)
    (h : quantities c op a b = .ok v) : quantities c op a' b' = .ok v.forgotten := by
  cases op with
  | add => exact measured_forgotten (fun q hq => Quantity.add_blurred ha hb unknown hq) h
  | sub => exact measured_forgotten (fun q hq => Quantity.sub_blurred ha hb unknown hq) h
  | mul =>
    cases h
    simp only [quantities, Quantity.mul_blurred ha hb unknown]
    rfl
  | div => exact measured_forgotten (fun q hq => Quantity.div_blurred ha hb unknown one hq) h
  | mod => exact measured_forgotten (fun q hq => Quantity.mod_blurred ha hb unknown one hq) h
  | pow =>
    exact measured_forgotten (fun q hq => Quantity.pow_blurred ha hb unknown (hexponent rfl) hq) h
  | and => cases h
  | or => cases h
  | _ =>
    simp only [quantities, ha.isCompatible hb] at h ⊢
    split_ifs at h ⊢
    cases h
    rfl

/-- What is not made of two measurements has no value that could be forgotten. -/
theorem forgotten_of_binary (mixed : ∀ a b, (left, right) ≠ (.measurement a, .measurement b))
    (h : binary c op left right = .ok v) : v.forgotten = v := by
  cases left with
  | measurement a =>
    cases right with
    | measurement b => exact absurd rfl (mixed a b)
    | text =>
      simp only [binary, repetition] at h
      split_ifs at h
      cases h
      rfl
    | flag => cases h
  | text =>
    cases right with
    | measurement b =>
      simp only [binary, repetition] at h
      split_ifs at h
      cases h
      rfl
    | text =>
      simp only [binary] at h
      split_ifs at h <;> cases h <;> rfl
    | flag => cases h
  | flag =>
    cases right with
    | flag =>
      simp only [binary] at h
      split_ifs at h
      cases h
      rfl
    | measurement b => cases h
    | text => cases h

theorem binary_forgotten_left (one : Scalar.isZero (1 : α) = false) (h : binary c op left right = .ok v) :
    binary c op left.forgotten right = .ok v.forgotten := by
  cases left with
  | measurement a =>
    cases right with
    | measurement b => exact quantities_blurred one .forgotten .kept rfl (fun _ => Or.inr rfl) h
    | text | flag =>
      rw [forgotten_of_binary (by simp) h]
      exact h
  | text | flag =>
    rw [forgotten_of_binary (by simp) h]
    exact h

/-- A power of something that has a unit. -/
def scalesUnit (op : BinaryOp) : Value α → Bool
  | .measurement a => op = .pow && !a.isPure
  | .text | .flag => false

theorem binary_forgotten_right (one : Scalar.isZero (1 : α) = false) (hop : scalesUnit op left = false)
    (h : binary c op left right = .ok v) : binary c op left right.forgotten = .ok v.forgotten := by
  cases left with
  | measurement a =>
    cases right with
    | measurement b =>
      refine quantities_blurred one .kept .forgotten (Bool.and_false _) ?_ h
      rintro rfl
      exact Or.inl (by simpa [scalesUnit] using hop)
    | text | flag =>
      rw [forgotten_of_binary (by simp) h]
      exact h
  | text | flag =>
    rw [forgotten_of_binary (by simp) h]
    cases right <;> exact h

/-- The exponent of a unit has to be known. -/
theorem power_forgotten_right (ha : a.isPure = false) (h : binary c .pow (.measurement a) right = .ok v) :
    binary c .pow (.measurement a) right.forgotten = .error (.exponentUnknown a.unit.name) := by
  cases right with
  | measurement b =>
    have hb : b.isPure = true := by
      by_contra hb
      rw [Bool.not_eq_true] at hb
      simp [binary, quantities, Quantity.pow, hb] at h
    have hpow : a.pow c b.forgotten = .error .exponentUnknown := by
      simp [Quantity.pow, ha, hb, show b.forgotten.isPure = b.isPure from rfl,
        show b.forgotten.isKnown = false from rfl]
    simp only [Value.forgotten, binary, quantities, hpow]
    rfl
  | text => cases h
  | flag => cases h

theorem unary_forgotten {op : UnaryOp} (h : unary op v = .ok w) : unary op v.forgotten = .ok w.forgotten := by
  cases op <;> cases v <;> cases h <;> rfl

theorem cast_forgotten {target : MeasureUnit} {dropped : Option MeasureUnit}
    (h : cast c target v = .ok (w, dropped)) : cast c target v.forgotten = .ok (w.forgotten, dropped) := by
  cases v with
  | flag => cases h
  | text =>
    cases h
    rfl
  | measurement q =>
    simp only [cast, Value.forgotten, Quantity.convertTo_forgotten] at h ⊢
    cases hq : q.convertTo c target with
    | some r =>
      rw [hq] at h
      cases h
      rfl
    | none =>
      rw [hq] at h
      simp only [Option.map_none] at h ⊢
      split_ifs at h ⊢
      cases h
      rfl

theorem coerce_forgotten {shape : Shape} (h : coerce c shape v = .ok w) :
    coerce c shape v.forgotten = .ok w.forgotten := by
  cases shape with
  | unit u =>
    cases v with
    | measurement q =>
      simp only [coerce, Value.forgotten, Quantity.convertTo_forgotten] at h ⊢
      cases hq : q.convertTo c u with
      | some r =>
        rw [hq] at h
        cases h
        rfl
      | none =>
        rw [hq] at h
        cases h
    | text => cases h
    | flag => cases h
  | text | flag | number => cases v <;> cases h; rfl

/-- Forgetting values never makes a rule fail and never changes a shape. Where an operation gives a value, it gives
the same value with nothing known of it when the left operand, the right one or both are forgotten; so do the
operations with one operand, casts, which drop the same unit, and declared shapes. The one exception is a power of
something that has a unit: its base may be forgotten, but without its exponent it is refused. -/
theorem forgetting_keeps_shapes (c : Catalog Float) :
    (∀ op left right v, scalesUnit op left = false → binary c op left right = .ok v →
      binary c op left.forgotten right = .ok v.forgotten ∧ binary c op left right.forgotten = .ok v.forgotten ∧
      binary c op left.forgotten right.forgotten = .ok v.forgotten) ∧
    (∀ a right v, a.isPure = false → binary c .pow (.measurement a) right = .ok v →
      binary c .pow (.measurement a.forgotten) right = .ok v.forgotten ∧
      binary c .pow (.measurement a) right.forgotten = .error (.exponentUnknown a.unit.name)) ∧
    (∀ op (v w : Value Float), unary op v = .ok w → unary op v.forgotten = .ok w.forgotten) ∧
    (∀ target v w dropped, cast c target v = .ok (w, dropped) →
      cast c target v.forgotten = .ok (w.forgotten, dropped)) ∧
    ∀ shape v w, coerce c shape v = .ok w → coerce c shape v.forgotten = .ok w.forgotten := by
  have one : Scalar.isZero (1 : Float) = false := by decide +kernel
  refine ⟨?_, ?_, fun op v w => unary_forgotten, fun target v w dropped => cast_forgotten,
    fun shape v w => coerce_forgotten⟩
  · intro op left right v hop h
    have hright := binary_forgotten_right one hop h
    refine ⟨binary_forgotten_left one h, hright, ?_⟩
    rw [binary_forgotten_left one hright, Value.forgotten_forgotten]
  · intro a right v ha h
    exact ⟨binary_forgotten_left one h, power_forgotten_right ha h⟩

/-- A speed stays a speed when the distance or the time is forgotten, and a squared distance when the distance is,
but not when the exponent is. -/
theorem rides_forgotten : ∃ c, Catalog.build rides = .ok c ∧ ∃ far time two speed area : Value Float,
    binary c .div far time = .ok speed ∧ speed ≠ speed.forgotten ∧
    binary c .div far.forgotten time = .ok speed.forgotten ∧
    binary c .div far time.forgotten = .ok speed.forgotten ∧
    binary c .pow far two = .ok area ∧ binary c .pow far.forgotten two = .ok area.forgotten ∧
    binary c .pow far two.forgotten = .error (.exponentUnknown "kilometer") := by
  let km : MeasureUnit := ⟨"kilometer", "m/s^2", ⟨[1, 0]⟩, false⟩
  let far : Value Float := .measurement (.ofValue km 6)
  let time : Value Float := .measurement (.ofValue ⟨"second", "s", ⟨[0, 1]⟩, true⟩ 2)
  let two : Value Float := .measurement (.ofValue (Catalog.numberUnit 2) 2)
  let speed : Value Float := .measurement (.ofValue ⟨"m/s", "m/s", ⟨[1, -1]⟩, false⟩ 3000)
  let area : Value Float := .measurement (.ofValue ⟨"m^2", "m^2", ⟨[2, 0]⟩, false⟩ 36000000)
  have hevals : (Catalog.build rides).toOption.map (fun c =>
      ((binary c .div far time).toOption, (binary c .pow far two).toOption)) = some (some speed, some area) := by
    decide +kernel
  obtain ⟨c, hc, hevals⟩ := Option.map_eq_some_iff.1 hevals
  obtain ⟨hspeed, harea⟩ := Prod.mk.inj hevals
  rw [toOption_eq_some] at hc hspeed harea
  obtain ⟨operations, powers, _⟩ := forgetting_keeps_shapes c
  obtain ⟨hfar, htime, _⟩ := operations .div far time speed rfl hspeed
  obtain ⟨hbase, hexponent⟩ := powers (.ofValue km 6) two area rfl harea
  have hknown : speed ≠ speed.forgotten := by
    simp [speed, Value.forgotten, Quantity.forgotten, Quantity.ofValue, Quantity.unknown]
  exact ⟨c, hc, far, time, two, speed, area, hspeed, hknown, hfar, htime, harea, hbase, hexponent⟩

end Typing

end Metrology

import Metrology.Decimal.Numeral

/-! Numerals read in two roundings. The leading digits that fit in a word become the nearest float,
which is then scaled by a power of ten. The result can miss the float nearest to the numeral by a
unit in the last place, and the largest numerals that round to a float are out of range. -/
namespace Metrology.Decimal

def wordLimit : Nat := UInt64.size

/-- Appends digits to a number as long as it stays a word. Also counts the digits taken. -/
def absorb (n : Nat) : List Char → Nat × Nat
  | [] => (n, 0)
  | c :: cs =>
    let n' := 10 * n + (c.toNat - '0'.toNat)
    if n' < wordLimit then
      let (s, taken) := absorb n' cs
      (s, taken + 1)
    else (n, 0)

def powerOfTen (k : Nat) : Float := toFloat 1 k

def maxPower : Nat := 308

/-- Scales a float by a power of ten, in steps no greater than the greatest one. A product beyond the
range of floats has no value, a quotient below it is zero. -/
def scale? (x : Float) (e : Int) : Option Float :=
  if e.natAbs ≤ maxPower then
    if 0 ≤ e then
      let y := x * powerOfTen e.natAbs
      if y.isFinite then some y else none
    else some (x / powerOfTen e.natAbs)
  else if x == 0 then some x
  else if 0 ≤ e then none
  else scale? (x / powerOfTen maxPower) (e + maxPower)
termination_by e.natAbs
decreasing_by simp only [maxPower] at *; omega

namespace Numeral

/-- The leading digits, as a word, and the power of ten that scales them. Digits of the whole part
that do not fit count as zeros, those of the fraction are dropped. -/
def leading (n : Numeral) : Nat × Int :=
  let (whole, taken) := absorb 0 n.whole
  let (s, places) := absorb whole (n.fraction.drop 1)
  (s, n.writtenPower + (n.whole.length - taken : Nat) - places)

def scaled? (n : Numeral) : Option Float := scale? (Decimal.toFloat n.leading.1 0) n.leading.2

end Numeral

end Metrology.Decimal

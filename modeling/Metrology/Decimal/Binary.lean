/-! Finite binary64 numbers as exact integers times powers of two. Everything that must be exact
about a float (its digits, its integrality, remainders) is computed here on `Nat` and `Int`. -/
namespace Metrology.Decimal

/-- The number `m · 2 ^ q`, or its negative. -/
structure Binary where
  negative : Bool
  m : Nat
  q : Int
deriving DecidableEq, Repr

namespace Binary

def leastExponent : Int := -1074

/-- The sign bit, which zeros and NaN have too. -/
def signBit (x : Float) : Bool := x.toBits.toNat / Nat.pow 2 63 == 1

/-- The exact value of a float; NaN and the infinities have none. -/
def ofFloat? (x : Float) : Option Binary :=
  let bits := x.toBits.toNat
  let exponent : Nat := bits / Nat.pow 2 52 % Nat.pow 2 11
  let fraction : Nat := bits % Nat.pow 2 52
  if exponent = 2047 then none
  else if exponent = 0 then some ⟨signBit x, fraction, leastExponent⟩
  else some ⟨signBit x, fraction + Nat.pow 2 52, (exponent : Int) - 1075⟩

/-- The float of a number that binary64 can hold, with `m < 2 ^ 53` and `q ≥ -1074`. -/
def toFloat (b : Binary) : Float :=
  let sign : Nat := if b.negative then Nat.pow 2 63 else 0
  let shift := min (52 - b.m.log2) (b.q - leastExponent).toNat
  let m := b.m * Nat.pow 2 shift
  let magnitude :=
    if m < Nat.pow 2 52 then m else (b.q - shift + 1075).toNat * Nat.pow 2 52 + (m - Nat.pow 2 52)
  Float.ofBits (sign + magnitude).toUInt64

def toInt? (b : Binary) : Option Int :=
  let signed (n : Nat) : Int := if b.negative then -(n : Int) else n
  match b.q with
  | .ofNat q => some (signed (b.m * Nat.pow 2 q))
  | .negSucc q =>
    if b.m % Nat.pow 2 (q + 1) = 0 then some (signed (b.m / Nat.pow 2 (q + 1))) else none

/-- What is left of `a` after whole multiples of `b ≠ 0`, with the sign of `a`. -/
def remainder (a b : Binary) : Binary :=
  let q := min a.q b.q
  ⟨a.negative, a.m * Nat.pow 2 (a.q - q).toNat % (b.m * Nat.pow 2 (b.q - q).toNat), q⟩

end Binary

def toInt? (x : Float) : Option Int := (Binary.ofFloat? x).bind Binary.toInt?

/-- The exact remainder of a truncating division. It is NaN for an infinite dividend and for a
zero divisor, and the dividend itself for an infinite divisor. -/
def remainder (x y : Float) : Float :=
  match Binary.ofFloat? x, Binary.ofFloat? y with
  | some a, some b => if b.m = 0 then 0 / 0 else (a.remainder b).toFloat
  | some _, none => if y.isNaN then y else x
  | none, _ => 0 / 0

end Metrology.Decimal

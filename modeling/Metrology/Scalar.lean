import Metrology.Decimal.Binary

/-! The numbers that conversion factors and measured values are taken from. Units, conversions and
quantities are defined over any such numbers: binary64 floats are what a check runs on, rationals
are the exact reading of the same definitions. -/
namespace Metrology

class Scalar (α : Type) extends Zero α, One α, Add α, Sub α, Mul α, Div α, Neg α where
  /-- Numeric equality, which need not be reflexive. -/
  eq : α → α → Bool
  le : α → α → Bool
  isFinite : α → Bool
  abs : α → α
  /-- The relative difference up to which two factors count as the same. -/
  tolerance : α
  /-- The value as an integer, when it is whole. -/
  toInt? : α → Option Int
  /-- A power with any exponent. -/
  power : α → α → α
  /-- The remainder of a truncating division, with the sign of the dividend. -/
  remainder : α → α → α

namespace Scalar

variable {α : Type} [Scalar α]

def isZero (a : α) : Bool := eq a 0

def max (a b : α) : α := if le a b then b else a

/-- Whether two factors agree up to the tolerance, measured against the larger of them. -/
def close (a b : α) : Bool := le (abs (a - b)) (tolerance * max (abs a) (abs b))

def isFactor (a : α) : Bool := isFinite a && !le a 0

/-- Repeated squaring: `r` collects the product and `a` is the current square. -/
def powerLoop (r a : α) (n : Nat) : α :=
  if n / 2 = 0 then (if n % 2 = 1 then r * a else r)
  else powerLoop (if n % 2 = 1 then r * a else r) (a * a) (n / 2)
termination_by n
decreasing_by omega

def intPower (a : α) (n : Int) : α :=
  if n < 0 then 1 / powerLoop 1 a n.natAbs else powerLoop 1 a n.natAbs

end Scalar

instance : Scalar Float where
  zero := 0
  one := 1
  eq a b := a == b
  le a b := a ≤ b
  isFinite := Float.isFinite
  abs := Float.abs
  tolerance := 1e-9
  toInt? := Decimal.toInt?
  power := Float.pow
  remainder := Decimal.remainder

/-- Exact numbers. A power is taken at whole exponents only and is zero elsewhere. -/
instance : Scalar Rat where
  zero := 0
  one := 1
  eq a b := a = b
  le a b := a ≤ b
  isFinite _ := true
  abs a := if a < 0 then -a else a
  tolerance := 1 / 1000000000
  toInt? a := if a.den = 1 then some a.num else none
  power a b := if b.den = 1 then a ^ b.num else 0
  remainder a b :=
    let q := a / b
    a - b * (if q < 0 then q.ceil else q.floor : Int)

end Metrology

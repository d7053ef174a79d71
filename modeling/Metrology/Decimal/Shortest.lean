import Metrology.Decimal.Binary

/-! The fewest decimal digits that read back as a given binary number. The reals that round to
`m · 2 ^ q` form an interval, closed when `m` is even; on each decimal grid, coarsest first, the two
neighbours of the value are tried. -/
namespace Metrology.Decimal

/-- `digits · 10 ^ exponent`. -/
structure Digits where
  digits : Nat
  exponent : Int
deriving DecidableEq, Repr

inductive Tie
  | up
  | toEven
deriving DecidableEq, Repr

def digitCount (n : Nat) : Nat := (Nat.toDigits 10 n).length

namespace Digits

/-- Moves trailing zeros into the exponent. -/
def strip (d : Digits) : Digits :=
  if h : d.digits ≠ 0 ∧ d.digits % 10 = 0 then strip ⟨d.digits / 10, d.exponent + 1⟩ else d
termination_by d.digits
decreasing_by exact Nat.div_lt_self (Nat.pos_of_ne_zero h.1) (by decide)

end Digits

namespace Binary

/-- `4 · 2 ^ q'` units for the value, so that half the gap to a neighbour is whole. -/
private def numerator (b : Binary) (quarter : Nat) : Nat := quarter * Nat.pow 2 (b.q - 2).toNat

private def denominator (b : Binary) : Nat := Nat.pow 2 (2 - b.q).toNat

/-- The position of the decimal point: the value lies in `[10 ^ (k - 1), 10 ^ k)`. -/
def pointPosition (b : Binary) : Int :=
  let num := b.numerator (4 * b.m)
  let den := b.denominator
  if den ≤ num then digitCount (num / den)
  else
    let d := digitCount (den / num)
    if num * Nat.pow 10 (d - 1) = den then 2 - (d : Int) else 1 - (d : Int)

/-- Whether `c · 10 ^ g` lies among the reals that round to the value. -/
def accepts (b : Binary) (g : Int) (c : Nat) : Bool :=
  let low := if b.m = Nat.pow 2 52 ∧ leastExponent < b.q then 4 * b.m - 1 else 4 * b.m - 2
  let scale (quarter : Nat) : Nat := b.numerator quarter * Nat.pow 10 (-g).toNat
  let point := c * (b.denominator * Nat.pow 10 g.toNat)
  if b.m % 2 = 0 then scale low ≤ point && point ≤ scale (4 * b.m + 2)
  else scale low < point && point < scale (4 * b.m + 2)

/-- The better of the value's two neighbours on the grid `10 ^ g`, of those that are accepted. -/
def onGrid (b : Binary) (tie : Tie) (g : Int) : Option Nat :=
  let num := b.numerator (4 * b.m) * Nat.pow 10 (-g).toNat
  let den := b.denominator * Nat.pow 10 g.toNat
  let below := num / den
  match b.accepts g below, b.accepts g (below + 1) with
  | false, false => none
  | true, false => some below
  | false, true => some (below + 1)
  | true, true =>
    if 2 * num < (2 * below + 1) * den then some below
    else if (2 * below + 1) * den < 2 * num then some (below + 1)
    else match tie with
      | .up => some (below + 1)
      | .toEven => some (if below % 2 = 0 then below else below + 1)

def shortest (b : Binary) (tie : Tie) : Digits :=
  if b.m = 0 then ⟨0, 0⟩
  else
    let k := b.pointPosition
    let grid (n : Nat) : Option Digits :=
      let g := k - (n + 1 : Nat)
      (b.onGrid tie g).map fun c => Digits.strip ⟨c, g⟩
    ((List.range 17).findSome? grid).getD ⟨b.m, 0⟩

end Binary

end Metrology.Decimal

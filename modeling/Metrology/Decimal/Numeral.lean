import Metrology.Decimal.Shortest

/-! Unsigned decimal numerals, `digits[.digits][e[±]digits]`, and the float each one denotes. -/
namespace Metrology.Decimal

def digitsValue (cs : List Char) : Nat :=
  cs.foldl (fun n c => 10 * n + (c.toNat - '0'.toNat)) 0

/-- The float nearest to `mantissa · 10 ^ exponent`, ties to even. Beyond the range of binary64 the
answer is known from the position of the first digit alone. -/
def toFloat (mantissa : Nat) (exponent : Int) : Float :=
  if mantissa = 0 then 0
  else
    let point := exponent + digitCount mantissa
    if 310 < point then 1 / 0
    else if point < -330 then 0
    else Float.ofScientific mantissa (exponent < 0) exponent.natAbs

/-- The digits after a point, when the text has a point and digits behind it. -/
def fractionText : List Char → List Char
  | '.' :: cs => match cs.takeWhile Char.isDigit with
    | [] => []
    | ds => '.' :: ds
  | _ => []

def exponentPart : List Char → List Char
  | c :: cs =>
    if c = 'e' ∨ c = 'E' then
      match cs with
      | s :: cs' =>
        if s = '+' ∨ s = '-' then
          match cs'.takeWhile Char.isDigit with
          | [] => []
          | ds => c :: s :: ds
        else match (s :: cs').takeWhile Char.isDigit with
          | [] => []
          | ds => c :: ds
      | [] => []
    else []
  | [] => []

structure Numeral where
  whole : List Char
  /-- With its point; empty when there is none. -/
  fraction : List Char
  /-- With its mark; empty when there is none. -/
  power : List Char
deriving DecidableEq, Repr

namespace Numeral

/-- The longest numeral at the front of a text; its whole part is empty when there is none. -/
def read (cs : List Char) : Numeral :=
  let whole := cs.takeWhile Char.isDigit
  let rest := cs.drop whole.length
  let fraction := fractionText rest
  ⟨whole, fraction, exponentPart (rest.drop fraction.length)⟩

def text (n : Numeral) : List Char := n.whole ++ n.fraction ++ n.power

def length (n : Numeral) : Nat := n.text.length

def isWhole (n : Numeral) : Bool := n.fraction.isEmpty && n.power.isEmpty

/-- All digits before the power of ten, as one number. -/
def mantissa (n : Numeral) : Nat := digitsValue (n.whole ++ n.fraction.drop 1)

def writtenPower (n : Numeral) : Int :=
  match n.power.drop 1 with
  | '-' :: ds => -(digitsValue ds : Int)
  | '+' :: ds => digitsValue ds
  | ds => digitsValue ds

/-- The power of ten that scales the mantissa. -/
def exponent (n : Numeral) : Int := n.writtenPower - (n.fraction.length - 1 : Nat)

def toFloat (n : Numeral) : Float := Decimal.toFloat n.mantissa n.exponent

end Numeral

end Metrology.Decimal

import Metrology.Decimal.Shortest

/-! How a float is written: which digits, and where the decimal point or an exponent goes. -/
namespace Metrology.Decimal

structure Layout where
  /-- Taken of two equally close digit strings. -/
  tie : Tie
  /-- Whole numbers end in `.0`. -/
  wholePoint : Bool
  /-- Exponents above zero have a sign. -/
  signedExponent : Bool
  /-- The positions of the decimal point that are written without an exponent. -/
  positional : Int → Bool

/-- Floats in messages and listings: never an exponent, and no point in whole numbers. -/
def Layout.plain : Layout := ⟨.up, false, false, fun _ => true⟩

private def zeros (n : Nat) : String := "".pushn '0' n

def positionalText (wholePoint : Bool) (d : Digits) : String :=
  let text := toString d.digits
  let tail := if wholePoint then ".0" else ""
  match d.exponent with
  | .ofNat e => text ++ zeros e ++ tail
  | .negSucc e =>
    let places := e + 1
    if places < text.length then
      let whole := text.length - places
      String.ofList (text.toList.take whole) ++ "." ++ String.ofList (text.toList.drop whole)
    else "0." ++ zeros (places - text.length) ++ text

def exponentText (signed : Bool) (d : Digits) : String :=
  let text := (toString d.digits).toList
  let power := d.exponent + (text.length - 1 : Nat)
  let sign := if signed && 0 < power then "+" else ""
  let fraction := text.drop 1
  String.ofList (text.take 1) ++ (if fraction.isEmpty then "" else "." ++ String.ofList fraction)
    ++ "e" ++ sign ++ toString power

def Layout.finite (l : Layout) (b : Binary) : String :=
  let d := b.shortest l.tie
  let point := d.exponent + (toString d.digits).length
  let magnitude :=
    if b.m = 0 || l.positional point then positionalText l.wholePoint d
    else exponentText l.signedExponent d
  if b.negative then "-" ++ magnitude else magnitude

def plain (x : Float) : String :=
  match Binary.ofFloat? x with
  | some b => Layout.plain.finite b
  | none => if x.isNaN then "NaN" else if Binary.signBit x then "-inf" else "inf"

end Metrology.Decimal

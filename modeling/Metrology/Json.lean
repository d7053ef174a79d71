import Metrology.Decimal.Layout
import Metrology.Decimal.Scaled

/-! JSON values. Numbers keep their written form, and objects keep every field in the order
written, so that a reader can tell `1` from `1.0` and see a repeated field. What is written by the
rules and yet has no value, as a number beyond all floats or half a surrogate pair, is kept too: it
does no harm where nobody reads it. -/
namespace Metrology

open Decimal (Numeral)

inductive Json
  | null
  | bool (value : Bool)
  | number (negative : Bool) (numeral : Numeral)
  | string (text : String)
  | array (items : List Json)
  | object (fields : List (String × Json))
  /-- A string with half a surrogate pair in it, or an object with such a key. -/
  | unreadable
deriving Repr, Inhabited

namespace Json

/-- How floats are written: whole numbers keep a point, very small and very large numbers take an
exponent with its sign. -/
def floatLayout : Decimal.Layout := ⟨.toEven, true, true, fun point => -5 < point && point ≤ 16⟩

/-- A float as a number; what is not finite has no number and is null. -/
def ofFloat (x : Float) : Json :=
  match Decimal.Binary.ofFloat? x with
  | some b => number b.negative (Numeral.read (floatLayout.finite { b with negative := false }).toList)
  | none => null

def ofNat (n : Nat) : Json := number false ⟨(toString n).toList, [], []⟩

/-- A whole number from zero up to a limit, written without point and power. -/
def toNat? (limit : Nat) : Json → Option Nat
  | number false n =>
    if n.isWhole ∧ n.mantissa < limit then some n.mantissa else none
  | _ => none

def toFloat? : Json → Option Float
  | number negative n => n.scaled?.map fun x => if negative then -x else x
  | _ => none

/-- Whether a number has a value: as a word, or else as a float. -/
def hasValue (n : Numeral) : Bool :=
  (n.isWhole && n.mantissa < Decimal.wordLimit) || n.scaled?.isSome

mutual

/-- Whether everything inside can be read, and at most `depth` containers are inside one another. -/
def isSound (depth : Nat) : Json → Bool
  | null | bool _ | string _ => true
  | number _ n => hasValue n
  | array items => 0 < depth && itemsSound (depth - 1) items
  | object fields => 0 < depth && fieldsSound (depth - 1) fields
  | unreadable => false

def itemsSound (depth : Nat) : List Json → Bool
  | [] => true
  | v :: vs => v.isSound depth && itemsSound depth vs

def fieldsSound (depth : Nat) : List (String × Json) → Bool
  | [] => true
  | (_, v) :: fs => v.isSound depth && fieldsSound depth fs

end

def toString? : Json → Option String
  | string text => some text
  | _ => none

def toBool? : Json → Option Bool
  | bool value => some value
  | _ => none

def toList? : Json → Option (List Json)
  | array items => some items
  | _ => none

end Json

end Metrology

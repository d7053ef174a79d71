import Metrology.Json
import Metrology.Json.Text

/-! Writing JSON over several lines, each level indented by two more spaces. -/
namespace Metrology.Json

def newline (level : Nat) : String := "\n".pushn ' ' (2 * level)

def numberText (negative : Bool) (n : Decimal.Numeral) : String :=
  (if negative then "-" else "") ++ String.ofList n.text

mutual

/-- The text of a value whose first line is already indented to `level`. -/
def pretty (level : Nat) : Json → String
  | .null | .unreadable => "null"
  | .bool value => if value then "true" else "false"
  | .number negative n => numberText negative n
  | .string text => quote text
  | .array [] => "[]"
  | .array (v :: vs) =>
    "[" ++ newline (level + 1) ++ pretty (level + 1) v ++ prettyItems (level + 1) vs
      ++ newline level ++ "]"
  | .object [] => "\x7b\x7d"
  | .object ((key, v) :: fields) =>
    "\x7b" ++ newline (level + 1) ++ quote key ++ ": " ++ pretty (level + 1) v
      ++ prettyFields (level + 1) fields ++ newline level ++ "\x7d"

def prettyItems (level : Nat) : List Json → String
  | [] => ""
  | v :: vs => "," ++ newline level ++ pretty level v ++ prettyItems level vs

def prettyFields (level : Nat) : List (String × Json) → String
  | [] => ""
  | (key, v) :: fields =>
    "," ++ newline level ++ quote key ++ ": " ++ pretty level v ++ prettyFields level fields

end

def render (v : Json) : String := pretty 0 v

end Metrology.Json

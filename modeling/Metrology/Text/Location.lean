import Metrology.Text.Blank

/-! Places in a text, counted in lines and characters from one. -/
namespace Metrology.Text

structure Location where
  line : Nat
  column : Nat
deriving DecidableEq, Repr

namespace Location

def start : Location := ⟨1, 1⟩

def advance (p : Location) (c : Char) : Location :=
  if c = '\n' then ⟨p.line + 1, 1⟩ else ⟨p.line, p.column + 1⟩

def render (p : Location) : String := toString p.line ++ ":" ++ toString p.column

end Location

/-- The characters that end within a number of bytes. -/
def within : Nat → List Char → List Char
  | _, [] => []
  | bytes, c :: cs => if c.utf8Size ≤ bytes then c :: within (bytes - c.utf8Size) cs else []

/-- The place of a byte offset. An offset inside a character means the character, one behind the
text its end. -/
def locate (text : List Char) (offset : Nat) : Location :=
  (within offset text).foldl Location.advance .start

end Metrology.Text

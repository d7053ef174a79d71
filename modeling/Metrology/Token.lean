import Metrology.Decimal.Layout
import Metrology.Decimal.Numeral
import Metrology.Span
import Metrology.Text.Blank

/-! The tokens of a units file, and what the text of one token denotes. -/
namespace Metrology

namespace Token

inductive Keyword
  | base
  | unit
  | convert
  | unitClass
deriving DecidableEq, Repr, Inhabited

def Keyword.text : Keyword → String
  | base => "base"
  | unit => "unit"
  | convert => "convert"
  | unitClass => "class"

inductive Kind
  | keyword (word : Keyword)
  | identifier (name : String)
  /-- Stored without its brackets. -/
  | symbol (text : String)
  | number (value : Float)
  | arrow
  | backArrow
  | equals
  | colon
  | semicolon
  | comma
  | star
  | slash
  | caret
  | minus
  | eof
deriving DecidableEq, Repr, Inhabited

namespace Kind

def describe : Kind → String
  | keyword word => "'" ++ word.text ++ "'"
  | identifier name => s!"identifier '{name}'"
  | symbol text => s!"symbol [{text}]"
  | number value => "number " ++ Decimal.plain value
  | arrow => "'->'"
  | backArrow => "'<-'"
  | equals => "'='"
  | colon => "':'"
  | semicolon => "';'"
  | comma => "','"
  | star => "'*'"
  | slash => "'/'"
  | caret => "'^'"
  | minus => "'-'"
  | eof => "end of file"

/-- Whether two kinds differ at most in what they carry. -/
def sameShape : Kind → Kind → Bool
  | identifier _, identifier _ => true
  | symbol _, symbol _ => true
  | number _, number _ => true
  | a, b => a = b

end Kind

end Token

structure Token where
  kind : Token.Kind
  span : Span
deriving DecidableEq, Repr, Inhabited

namespace Token

inductive Fault
  | unexpectedInput (text : String)
  | expected (wanted found : Kind)
  | expectedDeclaration (found : Kind)
  | expectedDirection (found : Kind)
  | exponentNotWhole (value : Float)
deriving DecidableEq, Repr

def Fault.message : Fault → String
  | unexpectedInput text => s!"unexpected input '{text}'"
  | expected wanted found => "expected " ++ wanted.describe ++ ", found " ++ found.describe
  | expectedDeclaration found =>
    "expected 'base', 'unit', 'convert' or 'class', found " ++ found.describe
  | expectedDirection found => "expected '->' or '<-', found " ++ found.describe
  | exponentNotWhole value => "exponent " ++ Decimal.plain value ++ " must be an integer"

structure SyntaxError where
  fault : Fault
  span : Span
deriving DecidableEq, Repr

def isWordStart (c : Char) : Bool := c.isAlpha || c = '_'

def isWordChar (c : Char) : Bool := c.isAlphanum || c = '_'

def isSymbolChar (c : Char) : Bool := c ≠ ']' && !Text.isBlank c

/-- The longest text at the front that denotes a token; empty when none starts there. -/
def lexeme : List Char → List Char
  | [] => []
  | c :: cs =>
    if isWordStart c then c :: cs.takeWhile isWordChar
    else if c.isDigit then (Decimal.Numeral.read (c :: cs)).text
    else if c = '[' then
      match cs.takeWhile isSymbolChar, cs.dropWhile isSymbolChar with
      | _ :: _, ']' :: _ => '[' :: cs.takeWhile isSymbolChar ++ [']']
      | _, _ => []
    else match c, cs with
      | '-', '>' :: _ => ['-', '>']
      | '<', '-' :: _ => ['<', '-']
      | '<', _ => []
      | _, _ => if c ∈ ['=', ':', ';', ',', '*', '/', '^', '-'] then [c] else []

def wordKind (word : String) : Kind :=
  if word = "base" then .keyword .base
  else if word = "unit" then .keyword .unit
  else if word = "convert" then .keyword .convert
  else if word = "class" then .keyword .unitClass
  else .identifier word

def denote (text : List Char) : Kind :=
  match text with
  | ['-', '>'] => .arrow
  | ['<', '-'] => .backArrow
  | ['='] => .equals
  | [':'] => .colon
  | [';'] => .semicolon
  | [','] => .comma
  | ['*'] => .star
  | ['/'] => .slash
  | ['^'] => .caret
  | ['-'] => .minus
  | '[' :: cs => .symbol (String.ofList cs.dropLast)
  | c :: _ =>
    if c.isDigit then .number (Decimal.Numeral.read text).toFloat
    else wordKind (String.ofList text)
  | [] => .eof

/-- The text that is refused where no token starts: one character, and behind an opening bracket
also what could have stood between the brackets. -/
def refused : List Char → List Char
  | '[' :: cs => '[' :: cs.takeWhile isSymbolChar
  | c :: _ => [c]
  | [] => []

end Token

end Metrology

import Metrology.Description
import Metrology.Token.Cursor

/-! Reading a units file. Its grammar

    file = decl*
    decl = 'base' ident symbol ';'
         | 'unit' ident symbol '=' term (('*' | '/') term)* ';'
         | 'unit' ident symbol dir ident ':' number ';'
         | 'convert' ident dir ident ':' number ';'
         | 'class' ident ':' ident (',' ident)* ';'
    dir  = '->' | '<-'
    term = ident ['^' ['-'] number]

is regular, so a file is read by a machine that looks at each token once. -/
namespace Metrology.Description

open Token (Kind Keyword SyntaxError Fault)

inductive Body
  | unit (name symbol : String) (definition : Definition Float)
  | conversion (child parent : String) (factor : Float) (direction : Direction)
  | unitClass (name : String) (members : List String)
deriving DecidableEq, Repr

/-- What a scale `dir ident ':' number` belongs to. -/
inductive Scale
  | unit (name symbol : String)
  | conversion (child : String)
deriving DecidableEq, Repr

def Scale.body (s : Scale) (parent : String) (factor : Float) (direction : Direction) : Body :=
  match s with
  | unit name symbol => .unit name symbol (.scaled parent factor direction)
  | conversion child => .conversion child parent factor direction

/-- A compound unit under construction: its terms so far, and the sign that the operator before
the next term gives to its exponent. -/
structure Product where
  name : String
  symbol : String
  terms : List Term
  sign : Int32
deriving DecidableEq, Repr

namespace Product

def push (p : Product) (unit : String) (exponent : Int32) : Product :=
  { p with terms := p.terms ++ [⟨unit, p.sign * exponent⟩] }

def body (p : Product) : Body := .unit p.name p.symbol (.compound p.terms)

end Product

/-- What the machine waits for. `start` is the span of the keyword that opened the declaration. -/
inductive Stage
  /-- A keyword, or the end. -/
  | top
  /-- The identifier behind a keyword. -/
  | name (start : Span) (word : Keyword)
  /-- The symbol of a base unit or of another unit. -/
  | symbol (start : Span) (isBase : Bool) (name : String)
  /-- An equals sign or a direction. -/
  | definition (start : Span) (name symbol : String)
  /-- The direction of an explicit conversion. -/
  | direction (start : Span) (child : String)
  /-- The identifier behind a direction. -/
  | parent (start : Span) (scale : Scale) (direction : Direction)
  /-- The colon before a factor. -/
  | colon (start : Span) (scale : Scale) (direction : Direction) (parent : String)
  /-- The factor. -/
  | factor (start : Span) (scale : Scale) (direction : Direction) (parent : String)
  /-- The identifier of a term. -/
  | term (start : Span) (product : Product)
  /-- A caret, or what may follow a term. -/
  | power (start : Span) (product : Product) (unit : String)
  /-- A minus sign or the exponent. -/
  | signedExponent (start : Span) (product : Product) (unit : String)
  /-- The exponent behind a minus sign. -/
  | exponent (start : Span) (product : Product) (unit : String)
  /-- What follows a term whose exponent has been read and not yet been examined. -/
  | exponentEnd (start : Span) (product : Product) (unit : String) (negative : Bool)
      (value : Float) (place : Span)
  /-- The colon of a class. -/
  | classColon (start : Span) (name : String)
  /-- A member of a class. -/
  | member (start : Span) (name : String) (members : List String)
  /-- A comma or the semicolon. -/
  | memberEnd (start : Span) (name : String) (members : List String)
  /-- The semicolon that closes a declaration. -/
  | close (start : Span) (body : Body)
deriving DecidableEq, Repr

def add (d : Description Float) (body : Body) (span : Span) : Description Float :=
  match body with
  | .unit name symbol definition => { d with units := d.units ++ [⟨name, symbol, definition, span⟩] }
  | .conversion child parent factor direction =>
    { d with conversions := d.conversions ++ [⟨child, parent, factor, direction, span⟩] }
  | .unitClass name members => { d with classes := d.classes ++ [⟨name, members, span⟩] }

def maxExponent : Int := 2147483647

/-- An exponent is a whole number that is not too large. -/
def exponentOf? (value : Float) : Option Int32 :=
  ((Decimal.toInt? value).filter (· ≤ maxExponent)).map Int32.ofInt

structure Reader where
  stage : Stage
  description : Description Float
deriving DecidableEq, Repr

namespace Reader

def start : Reader := ⟨.top, {}⟩

def goto (r : Reader) (stage : Stage) : Except SyntaxError Reader := .ok { r with stage }

def finish (r : Reader) (start : Span) (body : Body) (semicolon : Span) : Except SyntaxError Reader :=
  .ok ⟨.top, r.description.add body (start.merge semicolon)⟩

def refuse (wanted : Kind) (t : Token) : Except SyntaxError Reader :=
  .error ⟨.expected wanted t.kind, t.span⟩

/-- What may follow a term: an operator, or the semicolon. -/
def afterTerm (r : Reader) (start : Span) (p : Product) (t : Token) : Except SyntaxError Reader :=
  match t.kind with
  | .star => r.goto (.term start { p with sign := 1 })
  | .slash => r.goto (.term start { p with sign := -1 })
  | .semicolon => r.finish start p.body t.span
  | _ => refuse .semicolon t

def step (r : Reader) (t : Token) : Except SyntaxError Reader :=
  match r.stage with
  | .top => match t.kind with
    | .keyword word => r.goto (.name t.span word)
    | .eof => .ok r
    | found => .error ⟨.expectedDeclaration found, t.span⟩
  | .name start word => match t.kind with
    | .identifier name => match word with
      | .base => r.goto (.symbol start true name)
      | .unit => r.goto (.symbol start false name)
      | .convert => r.goto (.direction start name)
      | .unitClass => r.goto (.classColon start name)
    | _ => refuse (.identifier "") t
  | .symbol start isBase name => match t.kind with
    | .symbol symbol =>
      r.goto (if isBase then .close start (.unit name symbol .base) else .definition start name symbol)
    | _ => refuse (.symbol "") t
  | .definition start name symbol => match t.kind with
    | .equals => r.goto (.term start ⟨name, symbol, [], 1⟩)
    | .arrow => r.goto (.parent start (.unit name symbol) .childToParent)
    | .backArrow => r.goto (.parent start (.unit name symbol) .parentToChild)
    | found => .error ⟨.expectedDirection found, t.span⟩
  | .direction start child => match t.kind with
    | .arrow => r.goto (.parent start (.conversion child) .childToParent)
    | .backArrow => r.goto (.parent start (.conversion child) .parentToChild)
    | found => .error ⟨.expectedDirection found, t.span⟩
  | .parent start scale direction => match t.kind with
    | .identifier parent => r.goto (.colon start scale direction parent)
    | _ => refuse (.identifier "") t
  | .colon start scale direction parent => match t.kind with
    | .colon => r.goto (.factor start scale direction parent)
    | _ => refuse .colon t
  | .factor start scale direction parent => match t.kind with
    | .number value => r.goto (.close start (scale.body parent value direction))
    | _ => refuse (.number 0) t
  | .term start product => match t.kind with
    | .identifier unit => r.goto (.power start product unit)
    | _ => refuse (.identifier "") t
  | .power start product unit => match t.kind with
    | .caret => r.goto (.signedExponent start product unit)
    | _ => r.afterTerm start (product.push unit 1) t
  | .signedExponent start product unit => match t.kind with
    | .minus => r.goto (.exponent start product unit)
    | .number value => r.goto (.exponentEnd start product unit false value t.span)
    | _ => refuse (.number 0) t
  | .exponent start product unit => match t.kind with
    | .number value => r.goto (.exponentEnd start product unit true value t.span)
    | _ => refuse (.number 0) t
  | .exponentEnd start product unit negative value place => match exponentOf? value with
    | some n => r.afterTerm start (product.push unit (if negative then -n else n)) t
    | none => .error ⟨.exponentNotWhole value, place⟩
  | .classColon start name => match t.kind with
    | .colon => r.goto (.member start name [])
    | _ => refuse .colon t
  | .member start name members => match t.kind with
    | .identifier member => r.goto (.memberEnd start name (members ++ [member]))
    | _ => refuse (.identifier "") t
  | .memberEnd start name members => match t.kind with
    | .comma => r.goto (.member start name members)
    | .semicolon => r.finish start (.unitClass name members) t.span
    | _ => refuse .semicolon t
  | .close start body => match t.kind with
    | .semicolon => r.finish start body t.span
    | _ => refuse .semicolon t

/-- Reads a stream of tokens up to its first fault. -/
def feed (r : Reader) (items : List (Except SyntaxError Token)) : Except SyntaxError Reader :=
  items.foldlM (fun r item => item >>= r.step) r

end Reader

def parse (text : String) : Except SyntaxError (Description Float) := do
  let r ← Reader.start.feed (Token.Cursor.ofString text).stream
  return r.description

end Metrology.Description

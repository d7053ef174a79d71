import Metrology.Span

/-! The tree of a program: global statements and functions. Every node has an identifier, under
which its value is reported, and a span of the source text. -/
namespace Metrology

abbrev NodeId := Nat

structure Node where
  id : NodeId
  span : Span
deriving DecidableEq, Repr, Inhabited

inductive TypeRef
  | text
  | flag
  /-- Any measurement; it keeps the unit of whatever it receives. -/
  | number
  /-- A unit by its name or symbol. -/
  | unit (name : String)
deriving DecidableEq, Repr

def TypeRef.render : TypeRef → String
  | text => "string"
  | flag => "boolean"
  | number => "number"
  | unit name => name

inductive UnaryOp
  | neg
  | not
deriving DecidableEq, Repr

def UnaryOp.symbol : UnaryOp → String
  | neg => "-"
  | not => "!"

inductive BinaryOp
  | add | sub | mul | div | mod | pow
  | eq | ne | lt | le | gt | ge
  | and | or
deriving DecidableEq, Repr

def BinaryOp.symbol : BinaryOp → String
  | add => "+"
  | sub => "-"
  | mul => "*"
  | div => "/"
  | mod => "%"
  | pow => "^"
  | eq => "=="
  | ne => "!="
  | lt => "<"
  | le => "<="
  | gt => ">"
  | ge => ">="
  | and => "&&"
  | or => "||"

inductive Expr
  /-- A number literal, with a unit or without. -/
  | number (node : Node) (value : Float) (unit : Option String)
  | text (node : Node) (value : String)
  | flag (node : Node) (value : Bool)
  | var (node : Node) (name : String)
  | unary (node : Node) (op : UnaryOp) (operand : Expr)
  | binary (node : Node) (op : BinaryOp) (left right : Expr)
  | cast (node : Node) (unit : String) (operand : Expr)
  | call (node : Node) (callee : String) (args : List Expr)
deriving Repr, Inhabited

def Expr.node : Expr → Node
  | number node _ _ | text node _ | flag node _ | var node _ | unary node _ _ | binary node _ _ _
  | cast node _ _ | call node _ _ => node

mutual

inductive Stmt
  | declare (node : Node) (type : TypeRef) (name : String) (init : Option Expr)
  | assign (node : Node) (target : String) (value : Expr)
  /-- An if with any number of further conditions. -/
  | branch (node : Node) (branches : List Branch) (otherwise : Option Block)
  | whileLoop (node : Node) (condition : Expr) (body : Block)
  | forLoop (node : Node) (init : Option Stmt) (condition : Option Expr) (update : Option Stmt)
      (body : Block)
  | ret (node : Node) (value : Option Expr)
  | print (node : Node) (value : Expr)
  | expr (node : Node) (value : Expr)
deriving Repr

inductive Block
  | mk (stmts : List Stmt) (span : Span)
deriving Repr

inductive Branch
  | mk (condition : Expr) (body : Block)
deriving Repr

end

namespace Block

def stmts : Block → List Stmt
  | mk stmts _ => stmts

def span : Block → Span
  | mk _ span => span

end Block

namespace Branch

def condition : Branch → Expr
  | mk condition _ => condition

def body : Branch → Block
  | mk _ body => body

end Branch

def Stmt.node : Stmt → Node
  | declare node _ _ _ | assign node _ _ | branch node _ _ | whileLoop node _ _
  | forLoop node _ _ _ _ | ret node _ | print node _ | expr node _ => node

structure Param where
  name : String
  type : TypeRef
  span : Span
deriving DecidableEq, Repr

structure FunctionDecl where
  node : Node
  name : String
  params : List Param
  /-- What the function returns, if anything. -/
  returns : Option TypeRef
  body : Block
  isEntry : Bool

namespace FunctionDecl

def id (f : FunctionDecl) : NodeId := f.node.id

end FunctionDecl

inductive Item
  | global (stmt : Stmt)
  | function (decl : FunctionDecl)

structure Program where
  items : List Item

namespace Program

def globals (p : Program) : List Stmt :=
  p.items.filterMap fun
    | .global stmt => some stmt
    | .function _ => none

def functions (p : Program) : List FunctionDecl :=
  p.items.filterMap fun
    | .function decl => some decl
    | .global _ => none

end Program

end Metrology

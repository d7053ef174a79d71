import Metrology.Program

/-! Assembling program trees by hand. Nodes are numbered in the order they are made, children before
their parents, and node `n` has the one-byte span `n..n+1`. -/
namespace Metrology.Program

abbrev Builder := StateM Nat

namespace Builder

def fresh : Builder Node := fun n => (⟨n, ⟨n, n + 1⟩⟩, n + 1)

def number (value : Float) (unit : Option String) : Builder Expr := return .number (← fresh) value unit

def text (value : String) : Builder Expr := return .text (← fresh) value

def flag (value : Bool) : Builder Expr := return .flag (← fresh) value

def var (name : String) : Builder Expr := return .var (← fresh) name

def unary (op : UnaryOp) (operand : Expr) : Builder Expr := return .unary (← fresh) op operand

def binary (op : BinaryOp) (left right : Expr) : Builder Expr :=
  return .binary (← fresh) op left right

def cast (unit : String) (operand : Expr) : Builder Expr := return .cast (← fresh) unit operand

def call (callee : String) (args : List Expr) : Builder Expr := return .call (← fresh) callee args

/-- A block takes no number; it spans its statements. -/
def block (stmts : List Stmt) : Block :=
  match stmts.head?, stmts.getLast? with
  | some first, some last => .mk stmts (first.node.span.merge last.node.span)
  | _, _ => .mk stmts Span.none

def declare (type : TypeRef) (name : String) (init : Option Expr) : Builder Stmt :=
  return .declare (← fresh) type name init

def assign (target : String) (value : Expr) : Builder Stmt := return .assign (← fresh) target value

def branch (branches : List Branch) (otherwise : Option Block) : Builder Stmt :=
  return .branch (← fresh) branches otherwise

def whileLoop (condition : Expr) (body : Block) : Builder Stmt := return .whileLoop (← fresh) condition body

def forLoop (init : Option Stmt) (condition : Option Expr) (update : Option Stmt) (body : Block) :
    Builder Stmt :=
  return .forLoop (← fresh) init condition update body

def ret (value : Option Expr) : Builder Stmt := return .ret (← fresh) value

def print (value : Expr) : Builder Stmt := return .print (← fresh) value

def expr (value : Expr) : Builder Stmt := return .expr (← fresh) value

/-- A function with its body already made; each parameter takes a number for its span. -/
def function (name : String) (params : List (String × TypeRef)) (returns : Option TypeRef)
    (body : List Stmt) (isEntry : Bool) : Builder FunctionDecl := do
  let params ← params.mapM fun (name, type) => do return Param.mk name type (← fresh).span
  return ⟨← fresh, name, params, returns, block body, isEntry⟩

end Builder

def ofParts (globals : List Stmt) (functions : List FunctionDecl) : Program :=
  ⟨globals.map .global ++ functions.map .function⟩

end Metrology.Program

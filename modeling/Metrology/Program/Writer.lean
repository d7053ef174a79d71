import Metrology.Json.Writer
import Metrology.Program

/-! Programs as JSON. Every field is written, in a fixed order; the tag of a choice comes first. -/
namespace Metrology.Program

open Json (ofNat)

def spanJson (s : Span) : Json := .object [("start", ofNat s.start), ("end", ofNat s.stop)]

def optionJson {α : Type} (write : α → Json) : Option α → Json
  | none => .null
  | some a => write a

def typeRefJson : TypeRef → Json
  | .text => .string "string"
  | .flag => .string "boolean"
  | .number => .string "number"
  | .unit name => .object [("unit", .string name)]

def unaryOpJson : UnaryOp → Json
  | .neg => .string "neg"
  | .not => .string "not"

def binaryOpJson : BinaryOp → Json
  | .add => .string "add"
  | .sub => .string "sub"
  | .mul => .string "mul"
  | .div => .string "div"
  | .mod => .string "mod"
  | .pow => .string "pow"
  | .eq => .string "eq"
  | .ne => .string "ne"
  | .lt => .string "lt"
  | .le => .string "le"
  | .gt => .string "gt"
  | .ge => .string "ge"
  | .and => .string "and"
  | .or => .string "or"

def nodeJson (node : Node) (tag : String) (fields : List (String × Json)) : Json :=
  .object [("id", ofNat node.id), ("span", spanJson node.span),
    ("kind", .object (("type", .string tag) :: fields))]

mutual

def exprJson : Expr → Json
  | .number node value unit =>
    nodeJson node "number" [("value", Json.ofFloat value), ("unit", optionJson .string unit)]
  | .text node value => nodeJson node "text" [("value", .string value)]
  | .flag node value => nodeJson node "flag" [("value", .bool value)]
  | .var node name => nodeJson node "var" [("name", .string name)]
  | .unary node op operand =>
    nodeJson node "unary" [("op", unaryOpJson op), ("operand", exprJson operand)]
  | .binary node op left right =>
    nodeJson node "binary" [("op", binaryOpJson op), ("left", exprJson left), ("right", exprJson right)]
  | .cast node unit operand =>
    nodeJson node "cast" [("unit", .string unit), ("expr", exprJson operand)]
  | .call node callee args =>
    nodeJson node "call" [("callee", .string callee), ("args", .array (exprsJson args))]

def exprsJson : List Expr → List Json
  | [] => []
  | e :: es => exprJson e :: exprsJson es

end

mutual

def stmtJson : Stmt → Json
  | .declare node type name init =>
    nodeJson node "var_decl"
      [("ty", typeRefJson type), ("name", .string name), ("init", optionJson exprJson init)]
  | .assign node target value =>
    nodeJson node "assign" [("target", .string target), ("value", exprJson value)]
  | .branch node branches otherwise =>
    nodeJson node "if"
      [("branches", .array (branchesJson branches)), ("otherwise", optionBlockJson otherwise)]
  | .whileLoop node condition body =>
    nodeJson node "while" [("condition", exprJson condition), ("body", blockJson body)]
  | .forLoop node init condition update body =>
    nodeJson node "for"
      [("init", optionStmtJson init), ("condition", optionJson exprJson condition),
        ("update", optionStmtJson update), ("body", blockJson body)]
  | .ret node value => nodeJson node "return" [("value", optionJson exprJson value)]
  | .print node value => nodeJson node "print" [("value", exprJson value)]
  | .expr node value => nodeJson node "expr" [("expr", exprJson value)]

def optionStmtJson : Option Stmt → Json
  | none => .null
  | some s => stmtJson s

def optionBlockJson : Option Block → Json
  | none => .null
  | some b => blockJson b

def blockJson : Block → Json
  | .mk stmts span => .object [("stmts", .array (stmtsJson stmts)), ("span", spanJson span)]

def stmtsJson : List Stmt → List Json
  | [] => []
  | s :: rest => stmtJson s :: stmtsJson rest

def branchesJson : List Branch → List Json
  | [] => []
  | .mk condition body :: rest =>
    .object [("condition", exprJson condition), ("body", blockJson body)] :: branchesJson rest

end

def paramJson (p : Param) : Json :=
  .object [("name", .string p.name), ("ty", typeRefJson p.type), ("span", spanJson p.span)]

def functionJson (f : FunctionDecl) : Json :=
  .object [("id", ofNat f.node.id), ("name", .string f.name),
    ("params", .array (f.params.map paramJson)), ("ret", optionJson typeRefJson f.returns),
    ("body", blockJson f.body), ("is_entry", .bool f.isEntry), ("span", spanJson f.node.span)]

def itemJson : Item → Json
  | .global stmt => .object [("global", stmtJson stmt)]
  | .function decl => .object [("function", functionJson decl)]

def toJson (p : Program) : Json := .object [("items", .array (p.items.map itemJson))]

def write (p : Program) : String := p.toJson.render

end Metrology.Program

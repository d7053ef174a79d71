import Metrology.Json.Reader
import Metrology.Program

/-! Programs from JSON. A record is an object of its fields, of which unknown ones are passed over
and known ones may not repeat, or an array of its fields in order. A choice is told by the field
`type` of its record, or by the first element of its array. A choice is looked through as a whole
before it is read: all of it has to be readable, also the fields that are passed over, and only so
many containers may be inside one another. In return, the choices inside it may be told in more
ways. -/
namespace Metrology.Program

/-- The containers of a program that may be inside one another, where they are read. -/
def maxDepth : Nat := 127

def valuesOf (name : String) (fields : List (String × Json)) : List Json :=
  fields.filterMap fun (key, v) => if key = name then some v else none

/-- A field that is missing, given once, or in error because it repeats. -/
def fieldOf? (fields : List (String × Json)) (name : String) : Option (Option Json) :=
  match valuesOf name fields with
  | [] => some none
  | [v] => some (some v)
  | _ => none

def record? (names : List String) : Json → Option (List (Option Json))
  | .object fields => names.mapM (fieldOf? fields)
  | .array items =>
    if items.length ≤ names.length then
      some (items.map some ++ List.replicate (names.length - items.length) none)
    else none
  | _ => none

inductive Place
  | outside
  | inside
deriving DecidableEq, Repr

/-- The tag of a choice: one of its names or, inside another choice, the position of one. -/
def tag? (names : List String) : Place → Json → Option String
  | _, .string tag => some tag
  | .inside, v => do names[← v.toNat? Decimal.wordLimit]?
  | .outside, _ => none

/-- The tag of a choice and the record that goes with it, in room for `depth` containers inside one
another. Inside another choice, that one has been looked through. -/
def tagged? (names : List String) (place : Place) (depth : Nat) (v : Json) : Option (String × Json) :=
  if place = .inside ∨ v.isSound depth then
    match v with
    | .object fields => do
      let tag ← tag? names place (← (← fieldOf? fields "type"))
      return (tag, .object (fields.filter (·.1 ≠ "type")))
    | .array (tag :: items) => do return (← tag? names place tag, .array items)
    | _ => none
  else none

/-- A word of a fixed vocabulary, alone or as the only field of an object. The field says nothing
more: it is null or, inside a choice, also an empty object. -/
def word? : Place → Json → Option String
  | _, .string word => some word
  | _, .object [(word, .null)] => some word
  | .inside, .object [(word, .object [])] => some word
  | _, _ => none

def nodeId? (v : Json) : Option NodeId := v.toNat? UInt32.size

def span? (v : Json) : Option Span := do
  match ← record? ["start", "end"] v with
  | [some start, some stop] => return ⟨← start.toNat? Decimal.wordLimit, ← stop.toNat? Decimal.wordLimit⟩
  | _ => none

def orElse? {α : Type} (read : Json → Option α) (value : α) : Option Json → Option α
  | none => some value
  | some v => read v

/-- A field that may be missing or null. -/
def optional? {α : Type} (read : Json → Option α) : Option Json → Option (Option α)
  | none | some .null => some none
  | some v => (read v).map some

def node? (id : Json) (span : Option Json) : Option Node :=
  return ⟨← nodeId? id, ← orElse? span? Span.none span⟩

def typeRef? (place : Place) : Json → Option TypeRef
  | .object [("unit", .string name)] => some (.unit name)
  | v => do
    match ← word? place v with
    | "string" => some .text
    | "boolean" => some .flag
    | "number" => some .number
    | _ => none

def unaryOp? (v : Json) : Option UnaryOp := do
  match ← word? .inside v with
  | "neg" => some .neg
  | "not" => some .not
  | _ => none

def binaryOp? (v : Json) : Option BinaryOp := do
  match ← word? .inside v with
  | "add" => some .add
  | "sub" => some .sub
  | "mul" => some .mul
  | "div" => some .div
  | "mod" => some .mod
  | "pow" => some .pow
  | "eq" => some .eq
  | "ne" => some .ne
  | "lt" => some .lt
  | "le" => some .le
  | "gt" => some .gt
  | "ge" => some .ge
  | "and" => some .and
  | "or" => some .or
  | _ => none

def exprTags : List String :=
  ["number", "text", "flag", "var", "unary", "binary", "cast", "call"]

def stmtTags : List String :=
  ["var_decl", "assign", "if", "while", "for", "return", "print", "expr"]

def expr? : Nat → Json → Option Expr
  | 0, _ => none
  | depth + 1, v => do
    let [some id, span, some kind] ← record? ["id", "span", "kind"] v | none
    let node ← node? id span
    let (tag, body) ← tagged? exprTags .inside depth kind
    match tag with
    | "number" =>
      let [some value, unit] ← record? ["value", "unit"] body | none
      return .number node (← value.toFloat?) (← optional? Json.toString? unit)
    | "text" =>
      let [some value] ← record? ["value"] body | none
      return .text node (← value.toString?)
    | "flag" =>
      let [some value] ← record? ["value"] body | none
      return .flag node (← value.toBool?)
    | "var" =>
      let [some name] ← record? ["name"] body | none
      return .var node (← name.toString?)
    | "unary" =>
      let [some op, some operand] ← record? ["op", "operand"] body | none
      return .unary node (← unaryOp? op) (← expr? depth operand)
    | "binary" =>
      let [some op, some left, some right] ← record? ["op", "left", "right"] body | none
      return .binary node (← binaryOp? op) (← expr? depth left) (← expr? depth right)
    | "cast" =>
      let [some unit, some operand] ← record? ["unit", "expr"] body | none
      return .cast node (← unit.toString?) (← expr? depth operand)
    | "call" =>
      let [some callee, args] ← record? ["callee", "args"] body | none
      return .call node (← callee.toString?)
        (← orElse? (fun v => do (← v.toList?).mapM (expr? depth)) [] args)
    | _ => none

mutual

def stmt? (place : Place) : Nat → Json → Option Stmt
  | 0, _ => none
  | depth + 1, v => do
    let [some id, span, some kind] ← record? ["id", "span", "kind"] v | none
    let node ← node? id span
    let (tag, body) ← tagged? stmtTags place depth kind
    match tag with
    | "var_decl" =>
      let [some type, some name, init] ← record? ["ty", "name", "init"] body | none
      return .declare node (← typeRef? .inside type) (← name.toString?) (← optional? (expr? depth) init)
    | "assign" =>
      let [some target, some value] ← record? ["target", "value"] body | none
      return .assign node (← target.toString?) (← expr? depth value)
    | "if" =>
      let [some branches, otherwise] ← record? ["branches", "otherwise"] body | none
      return .branch node (← (← branches.toList?).mapM (branch? depth))
        (← optional? (block? .inside depth) otherwise)
    | "while" =>
      let [some condition, some body] ← record? ["condition", "body"] body | none
      return .whileLoop node (← expr? depth condition) (← block? .inside depth body)
    | "for" =>
      let [init, condition, update, some body] ←
        record? ["init", "condition", "update", "body"] body | none
      return .forLoop node (← optional? (stmt? .inside depth) init) (← optional? (expr? depth) condition)
        (← optional? (stmt? .inside depth) update) (← block? .inside depth body)
    | "return" =>
      let [value] ← record? ["value"] body | none
      return .ret node (← optional? (expr? depth) value)
    | "print" =>
      let [some value] ← record? ["value"] body | none
      return .print node (← expr? depth value)
    | "expr" =>
      let [some value] ← record? ["expr"] body | none
      return .expr node (← expr? depth value)
    | _ => none

def block? (place : Place) : Nat → Json → Option Block
  | 0, _ | 1, _ => none
  | depth + 2, v => do
    let [stmts, span] ← record? ["stmts", "span"] v | none
    return .mk (← orElse? (fun v => do (← v.toList?).mapM (stmt? place depth)) [] stmts)
      (← orElse? span? Span.none span)

def branch? : Nat → Json → Option Branch
  | 0, _ => none
  | depth + 1, v => do
    let [some condition, some body] ← record? ["condition", "body"] v | none
    return .mk (← expr? depth condition) (← block? .inside depth body)

end

def param? (v : Json) : Option Param := do
  let [some name, some type, span] ← record? ["name", "ty", "span"] v | none
  return ⟨← name.toString?, ← typeRef? .outside type, ← orElse? span? Span.none span⟩

/-- Four containers are around the body of a function. -/
def function? (v : Json) : Option FunctionDecl := do
  let [some id, some name, params, returns, some body, isEntry, span] ←
    record? ["id", "name", "params", "ret", "body", "is_entry", "span"] v | none
  return {
    node := ← node? id span
    name := ← name.toString?
    params := ← orElse? (fun v => do (← v.toList?).mapM param?) [] params
    returns := ← optional? (typeRef? .outside) returns
    body := ← block? .outside (maxDepth - 4) body
    isEntry := ← orElse? Json.toBool? false isEntry }

/-- An item is an object with one field, which tells its sort. It is the third container around what
it holds. -/
def item? : Json → Option Item
  | .object [("global", v)] => (stmt? .outside (maxDepth - 3) v).map .global
  | .object [("function", v)] => (function? v).map .function
  | _ => none

def ofJson? (v : Json) : Option Program := do
  let [some items] ← record? ["items"] v | none
  return ⟨← (← items.toList?).mapM item?⟩

def read? (text : String) : Option Program := do ofJson? (← Json.parse? text)

end Metrology.Program

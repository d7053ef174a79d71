import Mathlib.Data.List.Nodup
import Mathlib.Data.List.Pairwise
import Mathlib.Logic.Relation
import Metrology.Program

/-! The parts of a program: the nodes of its tree with their identifiers, and the functions that its bodies
call. -/
namespace Metrology

/-- A node of the tree, with the function it calls, if it is a call. -/
structure Part where
  id : NodeId
  callee : Option String
deriving DecidableEq, Repr

mutual

def Expr.parts : Expr → List Part
  | .number node _ _ | .text node _ | .flag node _ | .var node _ => [⟨node.id, none⟩]
  | .unary node _ operand | .cast node _ operand => ⟨node.id, none⟩ :: operand.parts
  | .binary node _ left right => ⟨node.id, none⟩ :: (left.parts ++ right.parts)
  | .call node callee args => ⟨node.id, some callee⟩ :: Expr.partsOfList args

def Expr.partsOfList : List Expr → List Part
  | [] => []
  | e :: es => e.parts ++ Expr.partsOfList es

end

mutual

def Expr.variables : Expr → List String
  | .number _ _ _ | .text _ _ | .flag _ _ => []
  | .var _ name => [name]
  | .unary _ _ operand | .cast _ _ operand => operand.variables
  | .binary _ _ left right => left.variables ++ right.variables
  | .call _ _ args => Expr.variablesOfList args

def Expr.variablesOfList : List Expr → List String
  | [] => []
  | e :: es => e.variables ++ Expr.variablesOfList es

end

def Expr.partsOfOption (e : Option Expr) : List Part := e.elim [] Expr.parts

def Stmt.isSimple : Stmt → Bool
  | declare _ _ _ _ | assign _ _ _ | ret _ _ | print _ _ | expr _ _ => true
  | branch _ _ _ | whileLoop _ _ _ | forLoop _ _ _ _ _ => false

/-- What statements are made of: nodes that hold others together, conditions, and simple statements. -/
inductive Piece
  | control (node : Node)
  | test (e : Expr)
  | simple (st : Stmt)

mutual

def Stmt.pieces : Stmt → List Piece
  | .branch node arms otherwise =>
    .control node :: (Branch.piecesOfList arms ++ Block.piecesOfOption otherwise)
  | .whileLoop node test body => .control node :: .test test :: body.pieces
  | .forLoop node init test update body =>
    .control node :: (Stmt.piecesOfOption init ++ (test.toList.map .test ++
      (Stmt.piecesOfOption update ++ body.pieces)))
  | st => [.simple st]

def Stmt.piecesOfOption : Option Stmt → List Piece
  | none => []
  | some s => s.pieces

def Stmt.piecesOfList : List Stmt → List Piece
  | [] => []
  | s :: rest => s.pieces ++ Stmt.piecesOfList rest

def Block.pieces : Block → List Piece
  | .mk body _ => Stmt.piecesOfList body

def Block.piecesOfOption : Option Block → List Piece
  | none => []
  | some b => b.pieces

def Branch.piecesOfList : List Branch → List Piece
  | [] => []
  | .mk test body :: rest => .test test :: (body.pieces ++ Branch.piecesOfList rest)

end

theorem Block.pieces_eq (b : Block) : b.pieces = Stmt.piecesOfList b.stmts := by
  cases b
  rw [Block.pieces, Block.stmts]

def Piece.parts : Piece → List Part
  | control node => [⟨node.id, none⟩]
  | test e => e.parts
  | simple (.declare node _ _ e) | simple (.ret node e) => ⟨node.id, none⟩ :: Expr.partsOfOption e
  | simple (.assign node _ e) | simple (.print node e) | simple (.expr node e) => ⟨node.id, none⟩ :: e.parts
  | simple _ => []

def Stmt.parts (st : Stmt) : List Part := st.pieces.flatMap Piece.parts

def Stmt.partsOfList (sts : List Stmt) : List Part := (Stmt.piecesOfList sts).flatMap Piece.parts

def Block.parts (b : Block) : List Part := b.pieces.flatMap Piece.parts

theorem Block.parts_eq (b : Block) : b.parts = Stmt.partsOfList b.stmts := by
  rw [Block.parts, b.pieces_eq, Stmt.partsOfList]

theorem find?_key_of_mem {α κ : Type} [DecidableEq κ] (key : α → κ) {xs : List α} {x : α} (hx : x ∈ xs)
    (hkeys : (xs.map key).Nodup) : xs.find? (key · = key x) = some x := by
  cases hfound : xs.find? (key · = key x) with
  | none => exact absurd (List.find?_eq_none.1 hfound x hx) (by simp)
  | some y =>
    have hkey : key y = key x := by simpa using List.find?_some hfound
    rw [List.inj_on_of_nodup_map hkeys (List.mem_of_find?_eq_some hfound) hx hkey]

namespace Program

def partsOfItem : Item → List Part
  | .global stmt => stmt.parts
  | .function f => ⟨f.id, none⟩ :: f.body.parts

def ids (p : Program) : List NodeId := p.items.flatMap fun item => (partsOfItem item).map (·.id)

def Calls (p : Program) (caller callee : String) : Prop :=
  ∃ f ∈ p.functions, f.name = caller ∧ some callee ∈ f.body.parts.map (·.callee)

def Acyclic (p : Program) : Prop := ∀ name, ¬ Relation.TransGen p.Calls name name

/-- The functions on the way to a call all lead to the one that is called. -/
def Leads (p : Program) (active : List NodeId) (name : String) : Prop :=
  ∀ f ∈ p.functions, f.id ∈ active → Relation.TransGen p.Calls f.name name

/-- A function that an entry point calls, itself or through others. -/
def Inner (p : Program) (name : String) : Prop :=
  ∃ f ∈ p.functions, f.isEntry = true ∧ Relation.TransGen p.Calls f.name name

/-- The identifiers of what runs without a call: the global statements and the body of the entry point. -/
def outerIds (p : Program) : List NodeId :=
  (Stmt.partsOfList p.globals ++ (p.functions.filter (·.isEntry)).flatMap (·.body.parts)).map (·.id)

variable {p : Program}

/-- Calls that go down in some order do not come back. -/
theorem acyclic_of_rank (rank : String → Nat)
    (h : ∀ f ∈ p.functions, ∀ part ∈ f.body.parts, ∀ callee ∈ part.callee, rank callee < rank f.name) :
    p.Acyclic := by
  have descends {a b : String} (hab : Relation.TransGen p.Calls a b) : rank b < rank a := by
    have step {a b : String} (hab : p.Calls a b) : rank b < rank a := by
      obtain ⟨f, hf, rfl, hb⟩ := hab
      obtain ⟨part, hpart, hcallee⟩ := List.mem_map.1 hb
      exact h f hf part hpart b hcallee
    induction hab with
    | single hab => exact step hab
    | tail _ hbc ih => exact Nat.lt_trans (step hbc) ih
  intro name hcycle
  exact Nat.lt_irrefl _ (descends hcycle)

theorem mem_items_of_function {f : FunctionDecl} (hf : f ∈ p.functions) : .function f ∈ p.items := by
  obtain ⟨item, hitem, hf⟩ := List.mem_filterMap.1 hf
  cases item with
  | global stmt => cases hf
  | function g =>
    cases hf
    exact hitem

theorem mem_items_of_global {stmt : Stmt} (hs : stmt ∈ p.globals) : .global stmt ∈ p.items := by
  obtain ⟨item, hitem, hs⟩ := List.mem_filterMap.1 hs
  cases item with
  | function g => cases hs
  | global stmt' =>
    cases hs
    exact hitem

theorem item_of_id (hids : p.ids.Nodup) {x y : Item} (hx : x ∈ p.items) (hy : y ∈ p.items) {id : NodeId}
    (hidx : id ∈ (partsOfItem x).map (·.id)) (hidy : id ∈ (partsOfItem y).map (·.id)) : x = y := by
  obtain ⟨_, hdisjoint⟩ := List.nodup_flatMap.1 hids
  have : Std.Symm (Function.onFun List.Disjoint fun item : Item => (partsOfItem item).map (·.id)) :=
    ⟨fun _ _ h _ hx hy => h hy hx⟩
  by_contra hne
  exact hdisjoint.forall hx hy hne hidx hidy

theorem function_of_id (hids : p.ids.Nodup) {f g : FunctionDecl} (hf : f ∈ p.functions)
    (hg : g ∈ p.functions) (hid : f.id = g.id) : f = g := by
  have hmem (f : FunctionDecl) : f.id ∈ (partsOfItem (.function f)).map (·.id) := by simp [partsOfItem]
  have h := item_of_id hids (mem_items_of_function hf) (mem_items_of_function hg) (hmem f) (hid ▸ hmem g)
  cases h
  rfl

theorem Leads.cons (hids : p.ids.Nodup) {f : FunctionDecl} (hf : f ∈ p.functions) {active : List NodeId}
    (h : p.Leads active f.name) {callee : String} (hcalls : p.Calls f.name callee) :
    p.Leads (f.id :: active) callee := by
  intro g hg hmem
  rcases List.mem_cons.1 hmem with hid | hmem
  · rw [function_of_id hids hg hf hid]
    exact .single hcalls
  · exact (h g hg hmem).tail hcalls

theorem Inner.call {name callee : String} (h : p.Inner name) (hcalls : p.Calls name callee) :
    p.Inner callee := by
  obtain ⟨e, he, hentry, hreach⟩ := h
  exact ⟨e, he, hentry, hreach.tail hcalls⟩

theorem mem_partsOfList {part : Part} {sts : List Stmt} (h : part ∈ Stmt.partsOfList sts) :
    ∃ st ∈ sts, part ∈ st.parts := by
  induction sts with
  | nil => cases h
  | cons st rest ih =>
    rw [Stmt.partsOfList, Stmt.piecesOfList, List.flatMap_append] at h
    rcases List.mem_append.1 h with h | h
    · exact ⟨st, List.mem_cons_self, h⟩
    · obtain ⟨st', hst', hpart⟩ := ih h
      exact ⟨st', List.mem_cons_of_mem st hst', hpart⟩

theorem mem_outerIds_of_global {part : Part} (h : part ∈ Stmt.partsOfList p.globals) :
    part.id ∈ p.outerIds :=
  List.mem_map_of_mem (List.mem_append_left _ h)

theorem mem_outerIds_of_entry {f : FunctionDecl} (hf : f ∈ p.functions) (hentry : f.isEntry = true)
    {part : Part} (h : part ∈ f.body.parts) : part.id ∈ p.outerIds :=
  List.mem_map_of_mem (List.mem_append_right _
    (List.mem_flatMap.2 ⟨f, List.mem_filter.2 ⟨hf, hentry⟩, h⟩))

theorem not_mem_outerIds (hids : p.ids.Nodup) {f : FunctionDecl} (hf : f ∈ p.functions)
    (hentry : f.isEntry = false) {part : Part} (hpart : part ∈ f.body.parts) : part.id ∉ p.outerIds := by
  have hmem {g : FunctionDecl} {q : Part} (hq : q ∈ g.body.parts) :
      q.id ∈ (partsOfItem (.function g)).map (·.id) :=
    List.mem_map_of_mem (List.mem_cons_of_mem _ hq)
  intro houter
  obtain ⟨q, hq, hid⟩ := List.mem_map.1 houter
  rcases List.mem_append.1 hq with hq | hq
  · obtain ⟨st, hst, hq⟩ := mem_partsOfList hq
    have hsame := item_of_id hids (mem_items_of_function hf) (mem_items_of_global hst) (hmem hpart)
      (hid ▸ List.mem_map_of_mem hq)
    cases hsame
  · obtain ⟨g, hg, hq⟩ := List.mem_flatMap.1 hq
    obtain ⟨hg, hgentry⟩ := List.mem_filter.1 hg
    have hsame := item_of_id hids (mem_items_of_function hf) (mem_items_of_function hg) (hmem hpart)
      (hid ▸ hmem hq)
    cases hsame
    rw [hentry] at hgentry
    cases hgentry

end Program

end Metrology

import Mathlib.Data.List.Nodup
import Metrology.Program.Reader
import Metrology.Program.Writer
import Metrology.Proofs.Json.Values

/-! Programs come back from their text. Writing and reading go through the same records and choices;
what is read of a written part is that part, provided there is room for its containers, and numbers are
within the ranges of their fields. -/
namespace Metrology

/-! ### What a tree holds besides words -/

inductive Leaf
  | id (id : NodeId)
  | span (span : Span)
  | literal (value : Float)

def Node.leaves (n : Node) : List Leaf := [.id n.id, .span n.span]

mutual

def Expr.leaves : Expr → List Leaf
  | .number node value _ => .literal value :: node.leaves
  | .text node _ | .flag node _ | .var node _ => node.leaves
  | .unary node _ operand | .cast node _ operand => node.leaves ++ operand.leaves
  | .binary node _ left right => node.leaves ++ (left.leaves ++ right.leaves)
  | .call node _ args => node.leaves ++ Expr.leavesOfList args

def Expr.leavesOfList : List Expr → List Leaf
  | [] => []
  | e :: es => e.leaves ++ Expr.leavesOfList es

end

def Expr.leavesOfOption (e : Option Expr) : List Leaf := e.elim [] Expr.leaves

mutual

def Stmt.leaves : Stmt → List Leaf
  | .declare node _ _ init => node.leaves ++ Expr.leavesOfOption init
  | .assign node _ value | .print node value | .expr node value => node.leaves ++ value.leaves
  | .branch node arms otherwise =>
    node.leaves ++ (Branch.leavesOfList arms ++ Block.leavesOfOption otherwise)
  | .whileLoop node test body => node.leaves ++ (test.leaves ++ body.leaves)
  | .forLoop node init test update body =>
    node.leaves ++ (Stmt.leavesOfOption init ++ (Expr.leavesOfOption test ++
      (Stmt.leavesOfOption update ++ body.leaves)))
  | .ret node value => node.leaves ++ Expr.leavesOfOption value

def Stmt.leavesOfOption : Option Stmt → List Leaf
  | none => []
  | some s => s.leaves

def Stmt.leavesOfList : List Stmt → List Leaf
  | [] => []
  | s :: rest => s.leaves ++ Stmt.leavesOfList rest

def Block.leaves : Block → List Leaf
  | .mk body span => .span span :: Stmt.leavesOfList body

def Block.leavesOfOption : Option Block → List Leaf
  | none => []
  | some b => b.leaves

def Branch.leavesOfList : List Branch → List Leaf
  | [] => []
  | .mk test body :: rest => (test.leaves ++ body.leaves) ++ Branch.leavesOfList rest

end

def Item.leaves : Item → List Leaf
  | .global stmt => stmt.leaves
  | .function f => f.node.leaves ++ (f.params.map (fun p => .span p.span) ++ f.body.leaves)

namespace Program

def leaves (p : Program) : List Leaf := p.items.flatMap Item.leaves

def nodeIds (p : Program) : List NodeId :=
  p.leaves.filterMap fun
    | .id id => some id
    | _ => none

def spans (p : Program) : List Span :=
  p.leaves.filterMap fun
    | .span span => some span
    | _ => none

def literals (p : Program) : List Float :=
  p.leaves.filterMap fun
    | .literal value => some value
    | _ => none

end Program

/-- An identifier fits in 32 bits and the ends of a span in 64, and a number reads back. -/
def Leaf.Fits : Leaf → Prop
  | id n => n < UInt32.size
  | span s => s.start < Decimal.wordLimit ∧ s.stop < Decimal.wordLimit
  | literal x => Json.ReadsBack x

namespace Program

open Json (ofNat depth itemsDepth fieldsDepth Legible ItemsLegible FieldsLegible ReadsBack)

/-! ### Records and choices -/

theorem valuesOf_of_not_mem {fields : List (String × Json)} {name : String}
    (h : name ∉ fields.map Prod.fst) : valuesOf name fields = [] := by
  rw [valuesOf, List.filterMap_eq_nil_iff]
  rintro ⟨key, v⟩ hkey
  have hne : key ≠ name := fun he => h (he ▸ List.mem_map_of_mem hkey)
  simp [hne]

theorem fieldOf?_of_nodup {fields : List (String × Json)} (hnodup : (fields.map Prod.fst).Nodup)
    {f : String × Json} (hf : f ∈ fields) : fieldOf? fields f.1 = some (some f.2) := by
  have hvalues : valuesOf f.1 fields = [f.2] := by
    induction fields with
    | nil => cases hf
    | cons g fields ih =>
      rw [List.map_cons, List.nodup_cons] at hnodup
      rcases List.mem_cons.1 hf with rfl | hf
      · have hnone := valuesOf_of_not_mem hnodup.1
        rw [valuesOf] at hnone ⊢
        simp [hnone]
      · have hne : g.1 ≠ f.1 := fun he => hnodup.1 (he ▸ List.mem_map_of_mem hf)
        have hrest := ih hnodup.2 hf
        rw [valuesOf] at hrest ⊢
        simp [hne, hrest]
  simp [fieldOf?, hvalues]

theorem record?_object {names : List String} {fields : List (String × Json)}
    (hnames : fields.map Prod.fst = names) (hnodup : names.Nodup) :
    record? names (.object fields) = some (fields.map fun f => some f.2) := by
  subst hnames
  have hmapM (part : List (String × Json)) (hpart : ∀ f ∈ part, f ∈ fields) :
      (part.map Prod.fst).mapM (fieldOf? fields) = some (part.map fun f => some f.2) := by
    induction part with
    | nil => rfl
    | cons f part ih =>
      rw [List.forall_mem_cons] at hpart
      simp [fieldOf?_of_nodup hnodup hpart.1, ih hpart.2]
  exact hmapM fields fun _ hf => hf

/-- A choice is told by its tag; the tag is not a field of the record that goes with it. -/
theorem tagged?_object {names : List String} {place : Place} {room : Nat} {tag : String}
    {fields : List (String × Json)} (hfields : ∀ f ∈ fields, f.1 ≠ "type")
    (h : place = .inside ∨ (Json.object (("type", .string tag) :: fields)).isSound room = true) :
    tagged? names place room (.object (("type", .string tag) :: fields)) = some (tag, .object fields) := by
  have hnone : fields.filterMap (fun f => if f.1 = "type" then some f.2 else none) = [] := by
    rw [List.filterMap_eq_nil_iff]
    intro f hf
    simp [hfields f hf]
  have hself : fields.filter (fun f => !decide (f.1 = "type")) = fields := by
    rw [List.filter_eq_self]
    intro f hf
    simp [hfields f hf]
  simp [tagged?, h, fieldOf?, valuesOf, hnone, tag?, hself]

/-! ### Parts without parts -/

theorem legible_spanJson {s : Span} (hs : (Leaf.span s).Fits) : (spanJson s).Legible :=
  ⟨Json.legible_ofNat hs.1, Json.legible_ofNat hs.2, trivial⟩

@[simp] theorem depth_ofNat (n : Nat) : (ofNat n).depth = 0 := rfl

@[simp] theorem depth_spanJson (s : Span) : (spanJson s).depth = 1 := rfl

theorem span?_spanJson {s : Span} (hs : (Leaf.span s).Fits) : span? (spanJson s) = some s := by
  simp [span?, spanJson, record?_object, Json.toNat?_ofNat hs.1, Json.toNat?_ofNat hs.2]

theorem fits_node {node : Node} (h : ∀ l ∈ node.leaves, l.Fits) :
    (Leaf.id node.id).Fits ∧ (Leaf.span node.span).Fits := by
  simpa [Node.leaves] using h

theorem node?_written {node : Node} (h : ∀ l ∈ node.leaves, l.Fits) :
    node? (ofNat node.id) (some (spanJson node.span)) = some node := by
  have hid : nodeId? (ofNat node.id) = some node.id := Json.toNat?_ofNat (fits_node h).1
  simp [node?, orElse?, hid, span?_spanJson (fits_node h).2]

theorem legible_typeRefJson (t : TypeRef) : (typeRefJson t).Legible := by
  cases t <;> simp [typeRefJson, Legible, FieldsLegible]

theorem typeRef?_typeRefJson (place : Place) (t : TypeRef) : typeRef? place (typeRefJson t) = some t := by
  cases t <;> rfl

theorem unaryOp?_unaryOpJson (op : UnaryOp) : unaryOp? (unaryOpJson op) = some op := by
  cases op <;> rfl

theorem binaryOp?_binaryOpJson (op : BinaryOp) : binaryOp? (binaryOpJson op) = some op := by
  cases op <;> rfl

/-! ### Reading a written part -/

/-- A part is read from its value in any room that its containers fit in. -/
structure Restores {α : Type} (read : Nat → Json → Option α) (v : Json) (a : α) : Prop where
  legible : v.Legible
  reads : ∀ room : Nat, v.depth ≤ room → read room v = some a

structure RestoresAll {α : Type} (read : Nat → Json → Option α) (vs : List Json) (as : List α) : Prop where
  legible : ItemsLegible vs
  reads : ∀ room : Nat, itemsDepth vs ≤ room → vs.mapM (read room) = some as

section

variable {α : Type} {read : Nat → Json → Option α}

theorem RestoresAll.nil : RestoresAll read [] [] := ⟨trivial, fun _ _ => rfl⟩

theorem RestoresAll.cons {v : Json} {vs : List Json} {a : α} {as : List α} (hv : Restores read v a)
    (hvs : RestoresAll read vs as) : RestoresAll read (v :: vs) (a :: as) := by
  refine ⟨⟨hv.legible, hvs.legible⟩, fun room hroom => ?_⟩
  rw [itemsDepth] at hroom
  simp [hv.reads _ (Nat.le_trans (Nat.le_max_left ..) hroom),
    hvs.reads _ (Nat.le_trans (Nat.le_max_right ..) hroom)]

theorem restores_option (write : α → Json) {o : Option α} (hnull : ∀ a, write a ≠ .null)
    (h : ∀ a ∈ o, Restores read (write a) a) :
    Restores (fun room v => optional? (read room) (some v)) (optionJson write o) o := by
  cases o with
  | none => exact ⟨trivial, fun _ _ => rfl⟩
  | some a =>
    have ha := h a rfl
    refine ⟨ha.legible, fun room hroom => ?_⟩
    rw [optionJson] at hroom ⊢
    rw [optional?]
    · simp [ha.reads _ hroom]
    · simpa using hnull a

end

theorem legible_id {n : NodeId} (h : (Leaf.id n).Fits) : (ofNat n).Legible :=
  have hword : UInt32.size < Decimal.wordLimit := by decide
  Json.legible_ofNat (Nat.lt_trans h hword)

theorem legible_nodeJson {node : Node} (hnode : ∀ l ∈ node.leaves, l.Fits) {tag : String}
    {fields : List (String × Json)} (hfields : FieldsLegible fields) :
    (nodeJson node tag fields).Legible := by
  obtain ⟨hid, hspan⟩ := fits_node hnode
  exact ⟨legible_id hid, legible_spanJson hspan, ⟨trivial, hfields⟩, trivial⟩

theorem depth_nodeJson (node : Node) (tag : String) (fields : List (String × Json)) :
    (nodeJson node tag fields).depth = fieldsDepth fields + 2 := by
  simp [nodeJson, depth, fieldsDepth]

theorem record?_nodeJson (node : Node) (tag : String) (fields : List (String × Json)) :
    record? ["id", "span", "kind"] (nodeJson node tag fields) =
      some [some (ofNat node.id), some (spanJson node.span),
        some (.object (("type", .string tag) :: fields))] :=
  record?_object rfl (by decide)

-- Reading goes from one field to the next; this takes the first of them without a look at the rest.
theorem bind_of_eq_some {α β : Type} {x : Option α} {a : α} (h : x = some a) (f : α → Option β) :
    (x >>= f) = f a := by
  rw [h]
  rfl

/-! ### Expressions -/

theorem restores_expr {node : Node} (hnode : ∀ l ∈ node.leaves, l.Fits) {tag : String}
    {fields : List (String × Json)} (hfields : FieldsLegible fields) {e : Expr}
    (htype : ∀ f ∈ fields, f.1 ≠ "type")
    (hread : ∀ room, fieldsDepth fields ≤ room →
      tagged? exprTags .inside room (.object (("type", .string tag) :: fields)) = some (tag, .object fields) →
      expr? (room + 1) (nodeJson node tag fields) = some e) :
    Restores expr? (nodeJson node tag fields) e := by
  refine ⟨legible_nodeJson hnode hfields, fun {room} hroom => ?_⟩
  rw [depth_nodeJson] at hroom
  cases room with
  | zero => omega
  | succ room => exact hread room (by omega) (tagged?_object htype (.inl rfl))

mutual

theorem restores_exprJson (e : Expr) (h : ∀ l ∈ e.leaves, l.Fits) : Restores expr? (exprJson e) e := by
  match e with
  | .number node value unit =>
    rw [Expr.leaves, List.forall_mem_cons] at h
    obtain ⟨hlegible, hvalue⟩ := Json.ReadsBack.spec h.1
    have hunit : Restores (fun _ v => optional? Json.toString? (some v)) (optionJson .string unit) unit :=
      restores_option _ (by simp) fun name _ => ⟨trivial, fun _ _ => rfl⟩
    rw [exprJson]
    apply restores_expr h.2
    · exact ⟨hlegible, hunit.legible, trivial⟩
    · simp
    intro room _ hkind
    have := hunit.reads _ (Nat.le_refl _)
    rw [expr?, bind_of_eq_some (record?_nodeJson ..)]
    refine (bind_of_eq_some (node?_written h.2) _).trans ((bind_of_eq_some hkind _).trans ?_)
    simp [record?_object, hvalue, this]
  | .text node value =>
    rw [exprJson]
    apply restores_expr h
    · exact ⟨trivial, trivial⟩
    · simp
    intro room _ hkind
    rw [expr?, bind_of_eq_some (record?_nodeJson ..)]
    refine (bind_of_eq_some (node?_written h) _).trans ((bind_of_eq_some hkind _).trans ?_)
    simp [record?_object, Json.toString?]
  | .flag node value =>
    rw [exprJson]
    apply restores_expr h
    · exact ⟨trivial, trivial⟩
    · simp
    intro room _ hkind
    rw [expr?, bind_of_eq_some (record?_nodeJson ..)]
    refine (bind_of_eq_some (node?_written h) _).trans ((bind_of_eq_some hkind _).trans ?_)
    simp [record?_object, Json.toBool?]
  | .var node name =>
    rw [exprJson]
    apply restores_expr h
    · exact ⟨trivial, trivial⟩
    · simp
    intro room _ hkind
    rw [expr?, bind_of_eq_some (record?_nodeJson ..)]
    refine (bind_of_eq_some (node?_written h) _).trans ((bind_of_eq_some hkind _).trans ?_)
    simp [record?_object, Json.toString?]
  | .unary node op operand =>
    rw [Expr.leaves, List.forall_mem_append] at h
    have hoperand := restores_exprJson operand h.2
    rw [exprJson]
    apply restores_expr h.1
    · exact ⟨by cases op <;> trivial, hoperand.legible, trivial⟩
    · simp
    intro room hroom hkind
    simp only [fieldsDepth] at hroom
    rw [expr?, bind_of_eq_some (record?_nodeJson ..)]
    refine (bind_of_eq_some (node?_written h.1) _).trans ((bind_of_eq_some hkind _).trans ?_)
    simp [record?_object, unaryOp?_unaryOpJson,
      hoperand.reads room (by omega)]
  | .binary node op left right =>
    rw [Expr.leaves, List.forall_mem_append, List.forall_mem_append] at h
    have hleft := restores_exprJson left h.2.1
    have hright := restores_exprJson right h.2.2
    rw [exprJson]
    apply restores_expr h.1
    · exact ⟨by cases op <;> trivial, hleft.legible, hright.legible, trivial⟩
    · simp
    intro room hroom hkind
    simp only [fieldsDepth] at hroom
    rw [expr?, bind_of_eq_some (record?_nodeJson ..)]
    refine (bind_of_eq_some (node?_written h.1) _).trans ((bind_of_eq_some hkind _).trans ?_)
    simp [record?_object, binaryOp?_binaryOpJson,
      hleft.reads room (by omega), hright.reads room (by omega)]
  | .cast node unit operand =>
    rw [Expr.leaves, List.forall_mem_append] at h
    have hoperand := restores_exprJson operand h.2
    rw [exprJson]
    apply restores_expr h.1
    · exact ⟨trivial, hoperand.legible, trivial⟩
    · simp
    intro room hroom hkind
    simp only [fieldsDepth] at hroom
    rw [expr?, bind_of_eq_some (record?_nodeJson ..)]
    refine (bind_of_eq_some (node?_written h.1) _).trans ((bind_of_eq_some hkind _).trans ?_)
    simp [record?_object, Json.toString?,
      hoperand.reads room (by omega)]
  | .call node callee args =>
    rw [Expr.leaves, List.forall_mem_append] at h
    have hargs := restores_exprsJson args h.2
    rw [exprJson]
    apply restores_expr h.1
    · exact ⟨trivial, hargs.legible, trivial⟩
    · simp
    intro room hroom hkind
    simp only [fieldsDepth, depth] at hroom
    rw [expr?, bind_of_eq_some (record?_nodeJson ..)]
    refine (bind_of_eq_some (node?_written h.1) _).trans ((bind_of_eq_some hkind _).trans ?_)
    simp [record?_object, Json.toString?, orElse?,
      Json.toList?, hargs.reads room (by omega)]

theorem restores_exprsJson (es : List Expr) (h : ∀ l ∈ Expr.leavesOfList es, l.Fits) :
    RestoresAll expr? (exprsJson es) es := by
  match es with
  | [] => exact .nil
  | e :: es =>
    rw [Expr.leavesOfList, List.forall_mem_append] at h
    exact .cons (restores_exprJson e h.1) (restores_exprsJson es h.2)

end

theorem restores_optionExpr (e : Option Expr) (h : ∀ l ∈ Expr.leavesOfOption e, l.Fits) :
    Restores (fun room v => optional? (expr? room) (some v)) (optionJson exprJson e) e := by
  apply restores_option exprJson
  · intro e
    cases e <;> simp [exprJson, nodeJson]
  · rintro e rfl
    exact restores_exprJson e h

/-! ### Statements -/

theorem restores_stmt {place : Place} {node : Node} (hnode : ∀ l ∈ node.leaves, l.Fits) {tag : String}
    {fields : List (String × Json)} (hfields : FieldsLegible fields) {s : Stmt}
    (htype : ∀ f ∈ fields, f.1 ≠ "type")
    (hread : ∀ room, fieldsDepth fields < room →
      tagged? stmtTags place room (.object (("type", .string tag) :: fields)) = some (tag, .object fields) →
      stmt? place (room + 1) (nodeJson node tag fields) = some s) :
    Restores (stmt? place) (nodeJson node tag fields) s := by
  refine ⟨legible_nodeJson hnode hfields, fun {room} hroom => ?_⟩
  rw [depth_nodeJson] at hroom
  cases room with
  | zero => omega
  | succ room =>
    apply hread room (by omega) (tagged?_object htype (.inr _))
    apply Json.isSound_of_legible
    · exact ⟨trivial, hfields⟩
    · simp only [depth, fieldsDepth]
      omega

theorem stmtJson_ne_null (s : Stmt) : stmtJson s ≠ .null := by
  cases s <;> simp [stmtJson, nodeJson]

mutual

theorem restores_stmtJson (place : Place) (s : Stmt) (h : ∀ l ∈ s.leaves, l.Fits) :
    Restores (stmt? place) (stmtJson s) s := by
  match s with
  | .declare node type name init =>
    rw [Stmt.leaves, List.forall_mem_append] at h
    have hinit := restores_optionExpr init h.2
    rw [stmtJson]
    apply restores_stmt h.1
    · exact ⟨legible_typeRefJson type, trivial, hinit.legible, trivial⟩
    · simp
    intro room hroom hkind
    simp only [fieldsDepth] at hroom
    have hread := hinit.reads room (by omega)
    rw [stmt?, bind_of_eq_some (record?_nodeJson ..)]
    refine (bind_of_eq_some (node?_written h.1) _).trans ((bind_of_eq_some hkind _).trans ?_)
    simp [record?_object, typeRef?_typeRefJson, Json.toString?, hread]
  | .assign node target value =>
    rw [Stmt.leaves, List.forall_mem_append] at h
    have hvalue := restores_exprJson value h.2
    rw [stmtJson]
    apply restores_stmt h.1
    · exact ⟨trivial, hvalue.legible, trivial⟩
    · simp
    intro room hroom hkind
    simp only [fieldsDepth] at hroom
    rw [stmt?, bind_of_eq_some (record?_nodeJson ..)]
    refine (bind_of_eq_some (node?_written h.1) _).trans ((bind_of_eq_some hkind _).trans ?_)
    simp [record?_object, Json.toString?,
      hvalue.reads room (by omega)]
  | .branch node arms otherwise =>
    rw [Stmt.leaves, List.forall_mem_append, List.forall_mem_append] at h
    have harms := restores_branchesJson arms h.2.1
    have hotherwise := restores_optionBlockJson otherwise h.2.2
    rw [stmtJson]
    apply restores_stmt h.1
    · exact ⟨harms.legible, hotherwise.legible, trivial⟩
    · simp
    intro room hroom hkind
    simp only [fieldsDepth, depth] at hroom
    have hread := hotherwise.reads room (by omega)
    rw [stmt?, bind_of_eq_some (record?_nodeJson ..)]
    refine (bind_of_eq_some (node?_written h.1) _).trans ((bind_of_eq_some hkind _).trans ?_)
    simp [record?_object, Json.toList?,
      harms.reads room (by omega), hread]
  | .whileLoop node test body =>
    rw [Stmt.leaves, List.forall_mem_append, List.forall_mem_append] at h
    have htest := restores_exprJson test h.2.1
    have hbody := restores_blockJson .inside body h.2.2
    rw [stmtJson]
    apply restores_stmt h.1
    · exact ⟨htest.legible, hbody.legible, trivial⟩
    · simp
    intro room hroom hkind
    simp only [fieldsDepth] at hroom
    rw [stmt?, bind_of_eq_some (record?_nodeJson ..)]
    refine (bind_of_eq_some (node?_written h.1) _).trans ((bind_of_eq_some hkind _).trans ?_)
    simp [record?_object, htest.reads room (by omega), hbody.reads room (by omega)]
  | .forLoop node init test update body =>
    simp only [Stmt.leaves, List.forall_mem_append] at h
    obtain ⟨hnode, hinit, htest, hupdate, hbody⟩ := h
    have hinit := restores_optionStmtJson init hinit
    have htest := restores_optionExpr test htest
    have hupdate := restores_optionStmtJson update hupdate
    have hbody := restores_blockJson .inside body hbody
    rw [stmtJson]
    apply restores_stmt hnode
    · exact ⟨hinit.legible, htest.legible, hupdate.legible, hbody.legible, trivial⟩
    · simp
    intro room hroom hkind
    simp only [fieldsDepth] at hroom
    have hreadInit := hinit.reads room (by omega)
    have hreadTest := htest.reads room (by omega)
    have hreadUpdate := hupdate.reads room (by omega)
    rw [stmt?, bind_of_eq_some (record?_nodeJson ..)]
    refine (bind_of_eq_some (node?_written hnode) _).trans ((bind_of_eq_some hkind _).trans ?_)
    simp [record?_object, hreadInit,
      hreadTest, hreadUpdate, hbody.reads room (by omega)]
  | .ret node value =>
    rw [Stmt.leaves, List.forall_mem_append] at h
    have hvalue := restores_optionExpr value h.2
    rw [stmtJson]
    apply restores_stmt h.1
    · exact ⟨hvalue.legible, trivial⟩
    · simp
    intro room hroom hkind
    simp only [fieldsDepth] at hroom
    have hread := hvalue.reads room (by omega)
    rw [stmt?, bind_of_eq_some (record?_nodeJson ..)]
    refine (bind_of_eq_some (node?_written h.1) _).trans ((bind_of_eq_some hkind _).trans ?_)
    simp [record?_object, hread]
  | .print node value =>
    rw [Stmt.leaves, List.forall_mem_append] at h
    have hvalue := restores_exprJson value h.2
    rw [stmtJson]
    apply restores_stmt h.1
    · exact ⟨hvalue.legible, trivial⟩
    · simp
    intro room hroom hkind
    simp only [fieldsDepth] at hroom
    rw [stmt?, bind_of_eq_some (record?_nodeJson ..)]
    refine (bind_of_eq_some (node?_written h.1) _).trans ((bind_of_eq_some hkind _).trans ?_)
    simp [record?_object, hvalue.reads room (by omega)]
  | .expr node value =>
    rw [Stmt.leaves, List.forall_mem_append] at h
    have hvalue := restores_exprJson value h.2
    rw [stmtJson]
    apply restores_stmt h.1
    · exact ⟨hvalue.legible, trivial⟩
    · simp
    intro room hroom hkind
    simp only [fieldsDepth] at hroom
    rw [stmt?, bind_of_eq_some (record?_nodeJson ..)]
    refine (bind_of_eq_some (node?_written h.1) _).trans ((bind_of_eq_some hkind _).trans ?_)
    simp [record?_object, hvalue.reads room (by omega)]

theorem restores_optionStmtJson (s : Option Stmt) (h : ∀ l ∈ Stmt.leavesOfOption s, l.Fits) :
    Restores (fun room v => optional? (stmt? .inside room) (some v)) (optionStmtJson s) s := by
  match s with
  | none => exact ⟨trivial, fun _ _ => rfl⟩
  | some s =>
    rw [optionStmtJson]
    apply restores_option stmtJson stmtJson_ne_null (o := some s)
    intro a ha
    obtain rfl := Option.some.inj ha
    exact restores_stmtJson .inside s h

theorem restores_optionBlockJson (b : Option Block) (h : ∀ l ∈ Block.leavesOfOption b, l.Fits) :
    Restores (fun room v => optional? (block? .inside room) (some v)) (optionBlockJson b) b := by
  match b with
  | none => exact ⟨trivial, fun _ _ => rfl⟩
  | some b =>
    rw [optionBlockJson]
    apply restores_option blockJson (o := some b)
    · intro b
      cases b
      simp [blockJson]
    intro a ha
    obtain rfl := Option.some.inj ha
    exact restores_blockJson .inside b h

theorem restores_blockJson (place : Place) (b : Block) (h : ∀ l ∈ b.leaves, l.Fits) :
    Restores (block? place) (blockJson b) b := by
  match b with
  | .mk body span =>
    rw [Block.leaves, List.forall_mem_cons] at h
    have hbody := restores_stmtsJson place body h.2
    rw [blockJson]
    refine ⟨⟨hbody.legible, legible_spanJson h.1, trivial⟩, fun {room} hroom => ?_⟩
    simp only [depth, fieldsDepth] at hroom
    obtain ⟨room, rfl⟩ : ∃ r, room = r + 2 := ⟨room - 2, by omega⟩
    simp [block?, record?_object, orElse?, Json.toList?, span?_spanJson h.1,
      hbody.reads room (by omega)]

theorem restores_stmtsJson (place : Place) (body : List Stmt) (h : ∀ l ∈ Stmt.leavesOfList body, l.Fits) :
    RestoresAll (stmt? place) (stmtsJson body) body := by
  match body with
  | [] => exact .nil
  | s :: rest =>
    rw [Stmt.leavesOfList, List.forall_mem_append] at h
    exact .cons (restores_stmtJson place s h.1) (restores_stmtsJson place rest h.2)

theorem restores_branchesJson (arms : List Branch) (h : ∀ l ∈ Branch.leavesOfList arms, l.Fits) :
    RestoresAll branch? (branchesJson arms) arms := by
  match arms with
  | [] => exact .nil
  | .mk test body :: rest =>
    rw [Branch.leavesOfList, List.forall_mem_append, List.forall_mem_append] at h
    have htest := restores_exprJson test h.1.1
    have hbody := restores_blockJson .inside body h.1.2
    apply RestoresAll.cons _ (restores_branchesJson rest h.2)
    refine ⟨⟨htest.legible, hbody.legible, trivial⟩, fun {room} hroom => ?_⟩
    simp only [depth, fieldsDepth] at hroom
    obtain ⟨room, rfl⟩ : ∃ r, room = r + 1 := ⟨room - 1, by omega⟩
    simp [branch?, record?_object, htest.reads room (by omega),
      hbody.reads room (by omega)]

end

/-! ### Functions and items -/

theorem legible_paramsJson {ps : List Param} (h : ∀ p ∈ ps, (Leaf.span p.span).Fits) :
    ItemsLegible (ps.map paramJson) := by
  induction ps with
  | nil => trivial
  | cons p ps ih =>
    rw [List.forall_mem_cons] at h
    exact ⟨⟨trivial, legible_typeRefJson p.type, legible_spanJson h.1, trivial⟩, ih h.2⟩

theorem params?_paramsJson {ps : List Param} (h : ∀ p ∈ ps, (Leaf.span p.span).Fits) :
    (ps.map paramJson).mapM param? = some ps := by
  induction ps with
  | nil => rfl
  | cons p ps ih =>
    rw [List.forall_mem_cons] at h
    have hparam : param? (paramJson p) = some p := by
      simp [param?, paramJson, record?_object, Json.toString?, typeRef?_typeRefJson, orElse?,
        span?_spanJson h.1]
    simp [hparam, ih h.2]

theorem restores_returns (returns : Option TypeRef) :
    Restores (fun _ v => optional? (typeRef? .outside) (some v)) (optionJson typeRefJson returns) returns := by
  apply restores_option typeRefJson
  · intro t
    cases t <;> simp [typeRefJson]
  · intro t _
    exact ⟨legible_typeRefJson t, fun _ _ => typeRef?_typeRefJson .outside t⟩

theorem function?_functionJson (f : FunctionDecl) (h : ∀ l ∈ (Item.function f).leaves, l.Fits) :
    (functionJson f).Legible ∧
      ((functionJson f).depth ≤ maxDepth - 3 → function? (functionJson f) = some f) := by
  simp only [Item.leaves, List.forall_mem_append, List.forall_mem_map] at h
  obtain ⟨hnode, hparams, hbody⟩ := h
  have hreturns := restores_returns f.returns
  have hbody := restores_blockJson .outside f.body hbody
  obtain ⟨hid, hspan⟩ := fits_node hnode
  refine ⟨⟨legible_id hid, trivial, legible_paramsJson hparams, hreturns.legible, hbody.legible, trivial,
    legible_spanJson hspan, trivial⟩, fun hdepth => ?_⟩
  simp only [functionJson, depth, fieldsDepth] at hdepth
  have hread := hreturns.reads _ (Nat.le_refl _)
  simp [function?, functionJson, record?_object, node?_written hnode, Json.toString?, orElse?, Json.toList?,
    params?_paramsJson hparams, hread, Json.toBool?, hbody.reads (maxDepth - 4) (by omega)]

theorem item?_itemJson (item : Item) (h : ∀ l ∈ item.leaves, l.Fits) :
    (itemJson item).Legible ∧ ((itemJson item).depth ≤ maxDepth - 2 → item? (itemJson item) = some item) := by
  cases item with
  | global stmt =>
    have hstmt := restores_stmtJson .outside stmt h
    refine ⟨⟨hstmt.legible, trivial⟩, fun hdepth => ?_⟩
    simp only [itemJson, depth, fieldsDepth] at hdepth
    simp [itemJson, item?, hstmt.reads (maxDepth - 3) (by omega)]
  | function f =>
    obtain ⟨hlegible, hread⟩ := function?_functionJson f h
    refine ⟨⟨hlegible, trivial⟩, fun hdepth => ?_⟩
    simp only [itemJson, depth, fieldsDepth] at hdepth
    simp [itemJson, item?, hread (by omega)]

theorem items?_itemsJson (items : List Item) (h : ∀ item ∈ items, ∀ l ∈ item.leaves, l.Fits) :
    ItemsLegible (items.map itemJson) ∧
      (itemsDepth (items.map itemJson) ≤ maxDepth - 2 → (items.map itemJson).mapM item? = some items) := by
  induction items with
  | nil => exact ⟨trivial, fun _ => rfl⟩
  | cons item items ih =>
    rw [List.forall_mem_cons] at h
    obtain ⟨hlegible, hread⟩ := item?_itemJson item h.1
    obtain ⟨hrest, hreads⟩ := ih h.2
    refine ⟨⟨hlegible, hrest⟩, fun hdepth => ?_⟩
    rw [List.map_cons, itemsDepth] at hdepth
    rw [List.map_cons, List.mapM_cons, hread (by omega), hreads (by omega)]
    rfl

/-! ### Programs -/

theorem legible_toJson {p : Program} (h : ∀ l ∈ p.leaves, l.Fits) : p.toJson.Legible :=
  ⟨(items?_itemsJson p.items fun item hitem l hl => h l (List.mem_flatMap.2 ⟨item, hitem, hl⟩)).1, trivial⟩

theorem ofJson?_toJson {p : Program} (h : ∀ l ∈ p.leaves, l.Fits) (hdepth : p.toJson.depth ≤ maxDepth) :
    ofJson? p.toJson = some p := by
  obtain ⟨-, hread⟩ :=
    items?_itemsJson p.items fun item hitem l hl => h l (List.mem_flatMap.2 ⟨item, hitem, hl⟩)
  simp only [toJson, depth, fieldsDepth] at hdepth
  simp [ofJson?, toJson, record?_object, Json.toList?, hread (by omega)]

theorem fits_leaves {p : Program} (hids : ∀ id ∈ p.nodeIds, id < UInt32.size)
    (hspans : ∀ s ∈ p.spans, s.start < Decimal.wordLimit ∧ s.stop < Decimal.wordLimit)
    (hliterals : ∀ x ∈ p.literals, ReadsBack x) : ∀ l ∈ p.leaves, l.Fits := by
  intro l hl
  cases l with
  | id id => exact hids id (List.mem_filterMap.2 ⟨_, hl, rfl⟩)
  | span s => exact hspans s (List.mem_filterMap.2 ⟨_, hl, rfl⟩)
  | literal x => exact hliterals x (List.mem_filterMap.2 ⟨_, hl, rfl⟩)

/-- A program is read back from its text, if its identifiers and spans are words of their sizes, its number
literals are finite, the text of each finite literal denotes that number, and its containers are not
nested beyond what a reader goes into. -/
theorem read_write (p : Program) (hids : ∀ id ∈ p.nodeIds, id < UInt32.size)
    (hspans : ∀ s ∈ p.spans, s.start < Decimal.wordLimit ∧ s.stop < Decimal.wordLimit)
    (hfinite : ∀ x ∈ p.literals, x.isFinite = true)
    (htexts : ∀ x ∈ p.literals, x.isFinite = true → ReadsBack x)
    (hdepth : p.toJson.depth ≤ maxDepth) : read? p.write = some p := by
  have hfits := fits_leaves hids hspans fun x hx => htexts x hx (hfinite x hx)
  rw [read?, write, Json.parse?_render (legible_toJson hfits)]
  exact ofJson?_toJson hfits hdepth

/-- A program with a statement and an expression of each kind, negative zero and the least and greatest
floats among its literals, and words that have to be escaped. -/
def logbook : Program where
  items :=
    let node (id : NodeId) : Node := ⟨id, ⟨id, id + 7⟩⟩
    let number (id : NodeId) (x : Float) (unit : Option String) : Expr := .number (node id) x unit
    [.global (.declare (node 1) (.unit "knöt") "v\"max\"" (some (number 2 (-0.0) (some "knöt")))),
     .global (.declare ⟨4294967295, ⟨18446744073709551615, 0⟩⟩ .text "log\n\t\\" none),
     .function {
       node := node 3
       name := "drift"
       params := [⟨"t", .number, ⟨4, 9⟩⟩, ⟨"quiet", .flag, Span.none⟩]
       returns := some (.unit "mile")
       isEntry := false
       body := .mk
         [.branch (node 5)
           [.mk (.binary (node 6) .lt (.var (node 7) "t") (number 8 5e-324 none))
             (.mk [.ret (node 9) (some (.cast (node 10) "mile" (number 11 1.7976931348623157e308 none)))]
               ⟨12, 13⟩)]
           (some (.mk [.ret (node 14) none] Span.none)),
          .whileLoop (node 15) (.unary (node 16) .not (.flag (node 17) true))
           (.mk [.print (node 18) (.text (node 19) "\u0001 £")] ⟨20, 21⟩),
          .forLoop (node 22) (some (.assign (node 23) "i" (number 24 0.1 none))) none
           (some (.expr (node 25) (.call (node 26) "drift" [.var (node 27) "i", .flag (node 28) false])))
           (.mk [] ⟨29, 30⟩)] ⟨31, 32⟩ }]

theorem read_logbook :
    (∀ x ∈ logbook.literals, x.isFinite = true ∧ ReadsBack x) ∧ logbook.toJson.depth ≤ maxDepth ∧
      read? logbook.write = some logbook := by
  have hliterals : ∀ x ∈ logbook.literals, x.isFinite = true ∧ ReadsBack x := by
    unfold ReadsBack
    decide +kernel
  have hdepth : logbook.toJson.depth ≤ maxDepth := by decide +kernel
  refine ⟨hliterals, hdepth, ?_⟩
  apply read_write
  · decide +kernel
  · decide +kernel
  · exact fun x hx => (hliterals x hx).1
  · exact fun x hx _ => (hliterals x hx).2
  · exact hdepth

end Program

end Metrology

import Mathlib.Tactic.Set
import Metrology.Proofs.Analysis.Visits

/-! What can be right inside a visit, and the state that it finds. A part of a body finds the state that the visit
around it has found, or the one that the part before it leaves, perhaps behind a new scope; the statements of a
body, the body of a function that is called and that of the entry point find states of their own. -/
namespace Metrology.Analysis

namespace Task

/-- Whether something is a part of a body, with nothing worked out before. -/
def isPlain : Task → Bool
  | expr _ | exprs _ | condition _ | stmt _ | stmts _ | block _ _ | openBlock _ _ | branches _ _ => true
  | call _ _ _ _ | body _ _ | function _ | functions _ | program _ => false

/-- Whether something is walked over in scopes of its own body. -/
def isInner : Task → Bool
  | .body _ _ | .function _ | .functions _ => false
  | _ => true

/-- The size of the tree that is still to be visited. Of a call, the arguments have been visited already. -/
noncomputable def size : Task → Nat
  | .expr e => sizeOf e
  | .exprs es => sizeOf es
  | .call _ _ _ _ => 0
  | .condition e => sizeOf e + 1
  | .stmt st => sizeOf st
  | .stmts sts => sizeOf sts
  | .block _ b | .openBlock _ b => sizeOf b
  | .branches _ arms => sizeOf arms
  | .body f _ => sizeOf f.body
  | .function f => sizeOf f
  | .functions fs => sizeOf fs
  | .program p => sizeOf p.globals + sizeOf p.functions + 1

def declarations : Task → List FunctionDecl
  | .function f => [f]
  | .functions fs => fs
  | .program p => p.functions
  | _ => []

theorem isOuter_of_isPlain {task : Task} (h : task.isPlain = true) : task.isOuter = false := by
  cases task <;> first | rfl | cases h

theorem declarations_of_isPlain {task : Task} (h : task.isPlain = true) : task.declarations = [] := by
  cases task <;> first | rfl | cases h

end Task

namespace Visit

/-- A property of states that is handed on from each visit inside another one to the next. -/
structure Relays (env : Setting) (v : Visit) (Q : State → Prop) : Prop where
  after : ∀ {task s}, v.part task s ∈ v.parts env → task.isPlain = true → Q s → Q ((v.part task s).after env)
  function : ∀ {f fs}, v.task = .functions (f :: fs) → Q v.before → Q ((Walk.function env f).run v.before).2
  block : ∀ {s : State}, Q s → Q { s with scopes := s.scopes.push .block }
  start : ∀ {s} control, Q s → Q ((Walk.startBody control).run s).2

/-- What a visit right inside another one can be, where `Q` holds of the states that are handed on. -/
inductive Inside (env : Setting) (v : Visit) (Q : State → Prop) : Visit → Prop
  /-- A smaller part of a body. -/
  | around {task : Task} {before : State} (smaller : task.size < v.task.size) (plain : task.isPlain = true)
      (inner : v.task.isInner = true) (found : Q before) : Inside env v Q (v.part task before)
  /-- A call, behind its arguments. -/
  | call (node : Node) (callee : String) (args : List Expr) (smaller : 0 < v.task.size)
      (inner : v.task.isInner = true) (found : Q ((Walk.exprs (env.around v.active) args).run v.before).2) :
      Inside env v Q (v.part (.call node callee args ((Walk.exprs (env.around v.active) args).run v.before).1)
        ((Walk.exprs (env.around v.active) args).run v.before).2)
  /-- The statements of a body. -/
  | opened {f : FunctionDecl} {bindings : Bindings Float} (task : v.task = .body f bindings) :
      Inside env v Q (v.part (.stmts f.body.stmts) (v.before.opened env.catalog f bindings))
  /-- The body of a function that is called. -/
  | called {node : Node} {callee : String} {args : List Expr} {values : List (Option (Value Float))} {w : Visit}
      (task : v.task = .call node callee args values)
      (entered : w ∈ called env v.active callee args values v.before) : Inside env v Q w
  /-- A declaration, or the rest of them. -/
  | declared {task : Task} {before : State} (smaller : task.size < v.task.size)
      (declares : task.isOuter = true ∧ task.isInner = false) (outer : v.task.isOuter = true)
      (declarations : task.declarations ⊆ v.task.declarations) (found : Q before) :
      Inside env v Q (v.part task before)
  /-- The body of the entry point. -/
  | entry {f : FunctionDecl} (task : v.task = .function f) (owned : env.signatures.owns f = true) :
      Inside env v Q ⟨[f.id], .body f (f.params.map fun p => (p.name, Walk.placeholderFor env.catalog p.type)),
        { ((Walk.header env f).run v.before).2 with
          active := f.id :: ((Walk.header env f).run v.before).2.active }⟩

variable {env : Setting} {v w : Visit} {active : List NodeId} {s : State} {Q : State → Prop}

theorem callParts_inside {node : Node} {callee : String} {args : List Expr} (hR : v.Relays env Q)
    (hQ : Q v.before) (smaller : sizeOf args < v.task.size) (inner : v.task.isInner = true)
    (hargs : v.part (.exprs args) v.before ∈ v.parts env) (hw : w ∈ v.callParts env node callee args) :
    v.Inside env Q w := by
  have hfound := hR.after hargs rfl hQ
  simp only [callParts, List.mem_cons, List.not_mem_nil, or_false] at hw
  rcases hw with rfl | rfl
  · exact .around smaller rfl inner hQ
  · exact .call node callee args (Nat.zero_lt_of_lt smaller) inner hfound

theorem exprParts_inside {e : Expr} (hR : Relays env ⟨active, .expr e, s⟩ Q) (hQ : Q s)
    (hw : w ∈ exprParts env ⟨active, .expr e, s⟩ e) : Inside env ⟨active, .expr e, s⟩ Q w := by
  cases e with
  | number | text | flag | var => cases hw
  | unary node op operand | cast node unit operand =>
    obtain rfl := List.mem_singleton.1 hw
    exact .around (by simp +arith [Task.size]) rfl rfl hQ
  | binary node op left right =>
    have hleft := hR.after List.mem_cons_self rfl hQ
    simp only [exprParts, List.mem_cons, List.not_mem_nil, or_false] at hw
    rcases hw with rfl | rfl
    · exact .around (by simp +arith [Task.size]) rfl rfl hQ
    · exact .around (by simp +arith [Task.size]) rfl rfl hleft
  | call node callee args =>
    exact callParts_inside hR hQ (by simp +arith [Task.size]) rfl List.mem_cons_self hw

theorem forParts_inside {node : Node} {init : Option Stmt} {test : Option Expr} {update : Option Stmt}
    {body : Block} (hR : Relays env ⟨active, .stmt (.forLoop node init test update body), s⟩ Q) (hQ : Q s)
    (hw : w ∈ forParts env ⟨active, .stmt (.forLoop node init test update body), s⟩ (.forLoop node update)
      init test update body) :
    Inside env ⟨active, .stmt (.forLoop node init test update body), s⟩ Q w := by
  set ctx := env.around active
  set outer : State := { s with scopes := s.scopes.push .block }
  set started := ((Walk.optionStmt ctx init).run outer).2
  set inner : State := { started with scopes := started.scopes.push .block }
  set tested := ((Walk.optionCondition ctx test).run inner).2
  have houter : Q outer := hR.block hQ
  have hstarted : Q started := by
    cases init with
    | none => exact houter
    | some st => exact hR.after List.mem_cons_self rfl houter
  have hinner : Q inner := hR.block hstarted
  have htested : Q tested := by
    cases test with
    | none => exact hinner
    | some e =>
      exact hR.after (List.mem_append_left _ (List.mem_append_left _
        (List.mem_append_right _ List.mem_cons_self))) rfl hinner
  have hupdated : Q ((Walk.optionStmt ctx update).run tested).2 := by
    cases update with
    | none => exact htested
    | some st => exact hR.after (List.mem_append_left _ (List.mem_append_right _ List.mem_cons_self)) rfl htested
  simp only [forParts, List.mem_append, List.mem_map, Option.mem_toList, List.mem_singleton] at hw
  rcases hw with ((⟨st, rfl, rfl⟩ | ⟨e, rfl, rfl⟩) | ⟨st, rfl, rfl⟩) | rfl
  · exact .around (by simp +arith [Task.size]) rfl rfl houter
  · exact .around (by simp +arith [Task.size]) rfl rfl hinner
  · exact .around (by simp +arith [Task.size]) rfl rfl htested
  · exact .around (by simp +arith [Task.size]) rfl rfl hupdated

theorem stmtParts_inside {st : Stmt} (hR : Relays env ⟨active, .stmt st, s⟩ Q) (hQ : Q s)
    (hw : w ∈ stmtParts env ⟨active, .stmt st, s⟩ st) : Inside env ⟨active, .stmt st, s⟩ Q w := by
  cases st with
  | declare node type name init =>
    cases init with
    | none => cases hw
    | some e =>
      obtain rfl := List.mem_singleton.1 hw
      exact .around (by simp +arith [Task.size]) rfl rfl hQ
  | ret node value =>
    cases value with
    | none => cases hw
    | some e =>
      obtain rfl := List.mem_singleton.1 hw
      exact .around (by simp +arith [Task.size]) rfl rfl hQ
  | assign node target value | print node value =>
    obtain rfl := List.mem_singleton.1 hw
    exact .around (by simp +arith [Task.size]) rfl rfl hQ
  | branch node arms otherwise =>
    have harms := hR.after List.mem_cons_self rfl hQ
    simp only [stmtParts, List.mem_cons, List.mem_map, Option.mem_toList] at hw
    rcases hw with rfl | ⟨b, rfl, rfl⟩
    · exact .around (by simp +arith [Task.size]) rfl rfl hQ
    · exact .around (by simp +arith [Task.size]) rfl rfl harms
  | whileLoop node test body =>
    have htest := hR.after List.mem_cons_self rfl hQ
    have hbody : 0 < sizeOf body := by cases body; simp +arith
    simp only [stmtParts, List.mem_cons, List.not_mem_nil, or_false] at hw
    rcases hw with rfl | rfl
    · refine .around ?_ rfl rfl hQ
      change sizeOf test + 1 < 1 + sizeOf node + sizeOf test + sizeOf body
      omega
    · exact .around (by simp +arith [Task.size]) rfl rfl htest
  | forLoop node init test update body => exact forParts_inside hR hQ hw
  | expr node e =>
    cases e with
    | call callNode callee args =>
      exact callParts_inside hR hQ (by simp +arith [Task.size]) rfl List.mem_cons_self hw
    | _ =>
      obtain rfl := List.mem_singleton.1 hw
      exact .around (by simp +arith [Task.size]) rfl rfl hQ

theorem inside_of_mem_parts (hR : v.Relays env Q) (hQ : Q v.before) (hw : w ∈ v.parts env) :
    v.Inside env Q w := by
  obtain ⟨active, task, s⟩ := v
  cases task with
  | expr e => exact exprParts_inside hR hQ hw
  | exprs es =>
    cases es with
    | nil => cases hw
    | cons e es =>
      have hfirst := hR.after List.mem_cons_self rfl hQ
      simp only [parts, List.mem_cons, List.not_mem_nil, or_false] at hw
      rcases hw with rfl | rfl
      · exact .around (by simp +arith [Task.size]) rfl rfl hQ
      · exact .around (by simp +arith [Task.size]) rfl rfl hfirst
  | call node callee args values => exact .called rfl hw
  | condition e =>
    obtain rfl := List.mem_singleton.1 hw
    exact .around (by simp [Task.size]) rfl rfl hQ
  | stmt st => exact stmtParts_inside hR hQ hw
  | stmts sts =>
    cases sts with
    | nil => cases hw
    | cons st sts =>
      have hfirst := hR.after List.mem_cons_self rfl hQ
      simp only [parts, List.mem_cons, List.not_mem_nil, or_false] at hw
      rcases hw with rfl | rfl
      · exact .around (by simp +arith [Task.size]) rfl rfl hQ
      · exact .around (by simp +arith [Task.size]) rfl rfl hfirst
  | block control b =>
    obtain rfl := List.mem_singleton.1 hw
    refine .around ?_ rfl rfl (hR.start control (hR.block hQ))
    cases b
    simp +arith [Task.size, Block.stmts]
  | openBlock control b =>
    obtain rfl := List.mem_singleton.1 hw
    refine .around ?_ rfl rfl (hR.start control hQ)
    cases b
    simp +arith [Task.size, Block.stmts]
  | branches control arms =>
    cases arms with
    | nil => cases hw
    | cons arm rest =>
      obtain ⟨test, body⟩ := arm
      have htest := hR.after List.mem_cons_self rfl hQ
      have hbody := hR.after (List.mem_cons_of_mem _ List.mem_cons_self) rfl htest
      simp only [parts, List.mem_cons, List.not_mem_nil, or_false] at hw
      rcases hw with rfl | rfl | rfl
      · exact .around (by simp +arith [Task.size]) rfl rfl hQ
      · exact .around (by simp +arith [Task.size]) rfl rfl htest
      · exact .around (by simp +arith [Task.size]) rfl rfl hbody
  | body f bindings =>
    obtain rfl := List.mem_singleton.1 hw
    exact .opened rfl
  | function f =>
    unfold parts at hw
    dsimp only at hw
    split at hw
    · next howned =>
      obtain rfl := List.mem_singleton.1 hw
      exact .entry rfl howned.1
    · cases hw
  | functions fs =>
    cases fs with
    | nil => cases hw
    | cons f fs =>
      simp only [parts, List.mem_cons, List.not_mem_nil, or_false] at hw
      rcases hw with rfl | rfl
      · exact .declared (by simp +arith [Task.size]) ⟨rfl, rfl⟩ rfl (by simp [Task.declarations]) hQ
      · exact .declared (by simp +arith [Task.size]) ⟨rfl, rfl⟩ rfl (by simp [Task.declarations]) (hR.function rfl hQ)
  | program p =>
    have hglobals := hR.after List.mem_cons_self rfl hQ
    simp only [parts, List.mem_cons, List.not_mem_nil, or_false] at hw
    rcases hw with rfl | rfl
    · exact .around (by simp +arith [Task.size]) rfl rfl hQ
    · exact .declared (by simp +arith [Task.size]) ⟨rfl, rfl⟩ rfl (by simp [Task.declarations]) hglobals

end Visit

end Metrology.Analysis

import Metrology.Analysis
import Metrology.Proofs.Program

/-! Walks over statements are put together from walks over their pieces. What holds of the pieces, in a form
that goes on as walks are put together, holds of whole statements, of one walk as well as of two over the same
statements in different surroundings. This is the one induction over the tree of statements: a property that is
about statements is given here as what it needs of each piece. -/
namespace Metrology.Analysis

open Walk

/-- Properties of two walks over the same pieces that go on as walks are put together: one of the walks that
declare and assign in the scope they find, the other of those that only do so in scopes of their own. Some
bodies are known to begin with nothing to go on, among them those of branches and of loops without a head. -/
structure Composed (ctx ctx' : Context) (Blank : Control → Prop)
    (Open Closed : List Piece → Walk Bool → Walk Bool → Prop) : Prop where
  branch : ∀ node, Blank (.branch node)
  whileLoop : ∀ node, Blank (.whileLoop node)
  weaken : ∀ {ps x x'}, Closed ps x x' → Open ps x x'
  nothing : Closed [] (pure true) (pure true)
  both : ∀ {ps qs x x' y y'}, Open ps x x' → Open qs y y' → Open (ps ++ qs) (both x y) (both x' y')
  bothClosed : ∀ {ps qs x x' y y'}, Closed ps x x' → Closed qs y y' →
    Closed (ps ++ qs) (Walk.both x y) (Walk.both x' y')
  simple : ∀ st, st.isSimple = true → Open [.simple st] (stmt ctx st) (stmt ctx' st)
  test : ∀ e, Closed [.test e] (condition ctx e) (condition ctx' e)
  visiting : ∀ node {ps x x'}, Closed ps x x' →
    Closed (.control node :: ps) (visiting ctx node x) (visiting ctx' node x')
  body : ∀ {control}, Blank control → ∀ {ps x x'}, Open ps x x' →
    Closed ps (nested .block do startBody control; x) (nested .block do startBody control; x')
  loop : ∀ node {init test update tests ps x x'},
    Open (Stmt.piecesOfOption init) (optionStmt ctx init) (optionStmt ctx' init) →
    Closed tests (optionCondition ctx test) (optionCondition ctx' test) →
    Open (Stmt.piecesOfOption update) (optionStmt ctx update) (optionStmt ctx' update) →
    Open ps x x' →
    Closed (Stmt.piecesOfOption init ++ (tests ++ (Stmt.piecesOfOption update ++ ps)))
      (nested .block <| Walk.both (optionStmt ctx init) <|
        nested .block <| Walk.both (optionCondition ctx test) <|
          Walk.both (optionStmt ctx update) do startBody (.forLoop node update); x)
      (nested .block <| Walk.both (optionStmt ctx' init) <|
        nested .block <| Walk.both (optionCondition ctx' test) <|
          Walk.both (optionStmt ctx' update) do startBody (.forLoop node update); x')

namespace Composed

variable {ctx ctx' : Context} {Blank : Control → Prop}
  {Open Closed : List Piece → Walk Bool → Walk Bool → Prop}

theorem optionTest (h : Composed ctx ctx' Blank Open Closed) (test : Option Expr) :
    Closed (test.toList.map .test) (optionCondition ctx test) (optionCondition ctx' test) := by
  cases test with
  | none => exact h.nothing
  | some test => exact h.test test

mutual

theorem stmt_cases (h : Composed ctx ctx' Blank Open Closed) (st : Stmt) :
    st.isSimple = true ∧ Open st.pieces (stmt ctx st) (stmt ctx' st) ∨
      st.isSimple = false ∧ Closed st.pieces (stmt ctx st) (stmt ctx' st) := by
  match st with
  | .branch node arms otherwise =>
    rw [stmt, stmt, Stmt.pieces]
    exact Or.inr ⟨rfl, h.visiting node (h.bothClosed (h.branches (h.branch node) arms)
      (h.optionBlock (h.branch node) otherwise))⟩
  | .whileLoop node test body =>
    rw [stmt, stmt, Stmt.pieces]
    exact Or.inr ⟨rfl, h.visiting node (h.bothClosed (h.test test)
      (h.block (h.whileLoop node) body))⟩
  | .forLoop node init test update (.mk body _) =>
    rw [stmt, stmt, Stmt.pieces, Block.pieces, openBlock, openBlock]
    exact Or.inr ⟨rfl, h.visiting node (h.loop node (h.optionStmt init) (h.optionTest test)
      (h.optionStmt update) (h.stmts body))⟩
  | .declare node type name init => exact Or.inl ⟨rfl, h.simple _ rfl⟩
  | .assign node target value => exact Or.inl ⟨rfl, h.simple _ rfl⟩
  | .ret node value => exact Or.inl ⟨rfl, h.simple _ rfl⟩
  | .print node value => exact Or.inl ⟨rfl, h.simple _ rfl⟩
  | .expr node value => exact Or.inl ⟨rfl, h.simple _ rfl⟩

theorem optionStmt (h : Composed ctx ctx' Blank Open Closed) (st : Option Stmt) :
    Open (Stmt.piecesOfOption st) (Walk.optionStmt ctx st) (Walk.optionStmt ctx' st) := by
  match st with
  | none =>
    rw [Walk.optionStmt, Walk.optionStmt]
    exact h.weaken h.nothing
  | some st =>
    rw [Walk.optionStmt, Walk.optionStmt]
    exact (h.stmt_cases st).elim (·.2) fun hst => h.weaken hst.2

theorem stmts (h : Composed ctx ctx' Blank Open Closed) (sts : List Stmt) :
    Open (Stmt.piecesOfList sts) (Walk.stmts ctx sts) (Walk.stmts ctx' sts) := by
  match sts with
  | [] =>
    rw [Walk.stmts, Walk.stmts]
    exact h.weaken h.nothing
  | st :: rest =>
    rw [Walk.stmts, Walk.stmts]
    exact h.both ((h.stmt_cases st).elim (·.2) fun hst => h.weaken hst.2) (h.stmts rest)

theorem block (h : Composed ctx ctx' Blank Open Closed) {control : Control}
    (hcontrol : Blank control) (b : Block) :
    Closed b.pieces (Walk.block ctx control b) (Walk.block ctx' control b) := by
  match b with
  | .mk body _ =>
    rw [Walk.block, Walk.block]
    exact h.body hcontrol (h.stmts body)

theorem optionBlock (h : Composed ctx ctx' Blank Open Closed) {control : Control}
    (hcontrol : Blank control) (b : Option Block) :
    Closed (Block.piecesOfOption b) (Walk.optionBlock ctx control b) (Walk.optionBlock ctx' control b) := by
  match b with
  | none =>
    rw [Walk.optionBlock, Walk.optionBlock]
    exact h.nothing
  | some b =>
    rw [Walk.optionBlock, Walk.optionBlock]
    exact h.block hcontrol b

theorem branches (h : Composed ctx ctx' Blank Open Closed) {control : Control}
    (hcontrol : Blank control) (arms : List Branch) :
    Closed (Branch.piecesOfList arms) (Walk.branches ctx control arms) (Walk.branches ctx' control arms) := by
  match arms with
  | [] =>
    rw [Walk.branches, Walk.branches]
    exact h.nothing
  | .mk test body :: rest =>
    rw [Walk.branches, Walk.branches]
    exact h.bothClosed (h.test test) (h.bothClosed (h.block hcontrol body) (h.branches hcontrol rest))

end

variable (h : Composed ctx ctx' Blank Open Closed)

include h

theorem stmt (st : Stmt) : Open st.pieces (Walk.stmt ctx st) (Walk.stmt ctx' st) :=
  (h.stmt_cases st).elim (·.2) fun hst => h.weaken hst.2

/-- A statement with others inside it leaves what it declares and assigns inside, too. -/
theorem control {st : Stmt} (hst : st.isSimple = false) :
    Closed st.pieces (Walk.stmt ctx st) (Walk.stmt ctx' st) := by
  rcases h.stmt_cases st with ⟨hsimple, _⟩ | ⟨_, hclosed⟩
  · rw [hst] at hsimple
    cases hsimple
  · exact hclosed

end Composed

/-- A property of two walks over the same pieces that does not care where scopes are opened and bodies begin. -/
structure Compositional (ctx ctx' : Context) (J : List Piece → Walk Bool → Walk Bool → Prop) : Prop where
  nothing : J [] (pure true) (pure true)
  both : ∀ {ps qs x x' y y'}, J ps x x' → J qs y y' → J (ps ++ qs) (both x y) (both x' y')
  simple : ∀ st, st.isSimple = true → J [.simple st] (stmt ctx st) (stmt ctx' st)
  test : ∀ e, J [.test e] (condition ctx e) (condition ctx' e)
  visiting : ∀ node {ps x x'}, J ps x x' → J (.control node :: ps) (visiting ctx node x) (visiting ctx' node x')
  nested : ∀ {ps x x'}, J ps x x' → J ps (nested .block x) (nested .block x')
  start : ∀ control {ps x x'}, J ps x x' → J ps (do startBody control; x) (do startBody control; x')

theorem Compositional.composed {ctx ctx' : Context} {J : List Piece → Walk Bool → Walk Bool → Prop}
    (h : Compositional ctx ctx' J) : Composed ctx ctx' (fun _ => True) J J where
  branch _ := trivial
  whileLoop _ := trivial
  weaken := id
  nothing := h.nothing
  both := h.both
  bothClosed := h.both
  simple := h.simple
  test := h.test
  visiting := h.visiting
  body {control} _ _ _ _ hx := h.nested (h.start control hx)
  loop node _ _ update _ _ _ _ hinit htest hupdate hx :=
    h.nested (h.both hinit (h.nested (h.both htest (h.both hupdate (h.start (.forLoop node update) hx)))))

end Metrology.Analysis

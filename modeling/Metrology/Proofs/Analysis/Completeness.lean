import Metrology.Proofs.Analysis.BodyStart
import Metrology.Proofs.Analysis.Verdict
import Metrology.Proofs.Program

/-! Nothing that runs is left out. In a valid program every expression has a value, wherever it stands: in a
global statement, in the entry point, or in a function that is called from there. A body is not walked again
when its result is known or when it is being walked; then what it holds has been visited or is about to be. -/
namespace Metrology

/-! ### What has a value -/

/-- The nodes of a piece that have a value where nothing is wrong: all expressions but a call that stands alone,
and what gives a variable a value. -/
def Piece.valued : Piece → List NodeId
  | control _ => []
  | test e => e.parts.map (·.id)
  | simple (.declare node _ _ e) => node.id :: (Expr.partsOfOption e).map (·.id)
  | simple (.assign node _ e) => node.id :: e.parts.map (·.id)
  | simple (.ret _ e) => (Expr.partsOfOption e).map (·.id)
  | simple (.print _ e) => e.parts.map (·.id)
  | simple (.expr _ (.call _ _ args)) => (Expr.partsOfList args).map (·.id)
  | simple (.expr _ e) => e.parts.map (·.id)
  | simple _ => []

def Stmt.valuedOfList (sts : List Stmt) : List NodeId := (Stmt.piecesOfList sts).flatMap Piece.valued

def Block.valued (b : Block) : List NodeId := b.pieces.flatMap Piece.valued

theorem Block.valued_eq (b : Block) : b.valued = Stmt.valuedOfList b.stmts := by
  rw [Block.valued, b.pieces_eq, Stmt.valuedOfList]

def Part.callees (parts : List Part) : List String := parts.filterMap (·.callee)

namespace Part

variable {id : NodeId} {callee : String} {parts parts' : List Part}

@[simp] theorem callees_nil : callees [] = [] := rfl

@[simp] theorem callees_plain : callees (⟨id, none⟩ :: parts) = callees parts := rfl

@[simp] theorem callees_call : callees (⟨id, some callee⟩ :: parts) = callee :: callees parts := rfl

@[simp] theorem callees_append : callees (parts ++ parts') = callees parts ++ callees parts' :=
  List.filterMap_append

end Part

/-- The functions that run: the entry point, those that global statements call, and those that these call. -/
inductive Program.Runs (p : Program) : String → Prop
  | entry {f : FunctionDecl} (declared : f ∈ p.functions) (isEntry : f.isEntry = true) : Runs p f.name
  | global {callee : String} (called : callee ∈ Part.callees (Stmt.partsOfList p.globals)) : Runs p callee
  | call {f : FunctionDecl} {callee : String} (declared : f ∈ p.functions) (runs : Runs p f.name)
      (called : callee ∈ Part.callees f.body.parts) : Runs p callee

namespace Analysis

/-! ### Progress -/

def State.Clean (s : State) : Prop := ∀ e ∈ s.log, e.isFailure = false

/-- The functions whose bodies have been walked, for some arguments or other. -/
def State.walked (s : State) : List NodeId := s.instances.map (·.1.1)

/-- Nodes have their values, and called functions have been walked or are being walked. -/
def Followed (t : Signatures) (active ids : List NodeId) (callees : List String) (s : State) : Prop :=
  (∀ id ∈ ids, ∃ v, .recorded id v ∈ s.log) ∧
    ∀ callee ∈ callees, ∀ signature, t.lookup callee = some signature →
      signature.decl.id ∈ active ∨ signature.decl.id ∈ s.walked

namespace Followed

variable {t : Signatures} {active ids ids' : List NodeId} {callees callees' : List String} {s s' : State}

theorem mono (h : Followed t active ids callees s) (hlog : s.log <:+ s'.log) (hwalked : s.walked ⊆ s'.walked) :
    Followed t active ids callees s' := by
  constructor
  · intro id hid
    obtain ⟨v, hv⟩ := h.1 id hid
    exact ⟨v, hlog.subset hv⟩
  · intro callee hcallee signature hlookup
    exact (h.2 callee hcallee signature hlookup).imp_right fun hw => hwalked hw

theorem widen {active' : List NodeId} (h : Followed t active ids callees s) (hsub : active ⊆ active') :
    Followed t active' ids callees s :=
  ⟨h.1, fun callee hcallee signature hlookup => (h.2 callee hcallee signature hlookup).imp_left (hsub ·)⟩

theorem append (h : Followed t active ids callees s) (h' : Followed t active ids' callees' s) :
    Followed t active (ids ++ ids') (callees ++ callees') s :=
  ⟨List.forall_mem_append.2 ⟨h.1, h'.1⟩, List.forall_mem_append.2 ⟨h.2, h'.2⟩⟩

end Followed

/-- All that stands in the functions walked so far has been followed. -/
def Setting.Complete (env : Setting) (active : List NodeId) (s : State) : Prop :=
  ∀ f, env.function? f.id = some f → f.id ∈ s.walked →
    Followed env.signatures active f.body.valued (Part.callees f.body.parts) s

/-- How a walk goes on while some functions are being walked. -/
structure Setting.Progresses (env : Setting) (active : List NodeId) (s t : State) : Prop where
  log : s.log <:+ t.log
  walked : s.walked ⊆ t.walked
  complete : t.Clean → env.Complete active s → env.Complete active t

theorem State.Clean.of_progress {env : Setting} {active : List NodeId} {s t : State} (clean : t.Clean)
    (h : env.Progresses active s t) : s.Clean := fun e he => clean e (h.log.subset he)

theorem Followed.progress {env : Setting} {active ids : List NodeId} {callees : List String} {s t : State}
    (h : Followed env.signatures active ids callees s) (hst : env.Progresses active s t) :
    Followed env.signatures active ids callees t := h.mono hst.log hst.walked

namespace Setting.Progresses

variable {env : Setting} {active : List NodeId} {s t u : State}

theorem of_log (hlog : s.log <:+ t.log) (hinstances : t.instances = s.instances) :
    env.Progresses active s t := by
  have hwalked : t.walked = s.walked := congrArg (List.map _) hinstances
  refine ⟨hlog, hwalked ▸ List.Subset.refl _, fun _ complete f hf hmem => ?_⟩
  rw [hwalked] at hmem
  exact (complete f hf hmem).mono hlog (hwalked ▸ List.Subset.refl _)

theorem note (s : State) (e : Event) : env.Progresses active s ((Walk.note e).run s).2 :=
  of_log (List.suffix_cons e s.log) rfl

theorem trans (hst : env.Progresses active s t) (htu : env.Progresses active t u) :
    env.Progresses active s u where
  log := hst.log.trans htu.log
  walked := List.Subset.trans hst.walked htu.walked
  complete clean complete := htu.complete clean (hst.complete (clean.of_progress htu) complete)

end Setting.Progresses

theorem tracked_progresses (env : Setting) (active : List NodeId) : Tracked (env.Progresses active) where
  refl _ := .of_log (List.suffix_refl _) rfl
  trans := .trans
  note s e _ := .note s e

/-- Surroundings in which the functions that are called have been walked or are being walked. -/
structure Context.Follows (env : Setting) (ctx : Context) : Prop
    extends ctx.Indifferent (env.Progresses ctx.active) where
  signatures : ctx.signatures = env.signatures
  enters : ∀ callee signature, env.signatures.lookup callee = some signature → ∀ bindings s,
    signature.decl.id ∈ ctx.active ∨
      signature.decl.id ∈ ((ctx.enter signature.decl.id bindings).run s).2.walked

/-- A walk that goes on and, if it ends well, has followed some nodes and calls. -/
def Follows (env : Setting) (active : List NodeId) {β : Type} (good : β → Prop) (ids : List NodeId)
    (callees : List String) (x : Walk β) : Prop :=
  ∀ s, env.Progresses active s (x.run s).2 ∧
    ((x.run s).2.Clean → good (x.run s).1 → Followed env.signatures active ids callees (x.run s).2)

namespace Follows

variable {env : Setting} {active : List NodeId} {β γ : Type} {good : β → Prop} {good' : γ → Prop}
  {ids ids' : List NodeId} {callees callees' : List String}

theorem idle {x : Walk β} (h : ∀ s, env.Progresses active s (x.run s).2) :
    Follows env active good [] [] x := fun s => ⟨h s, fun _ _ => ⟨nofun, nofun⟩⟩

theorem pure (b : β) : Follows env active good [] [] (Pure.pure b : Walk β) :=
  idle (tracked_progresses env active).refl

theorem bind {x : Walk β} {f : β → Walk γ} (hx : Follows env active (fun _ => True) ids callees x)
    (hf : ∀ b, Follows env active good' ids' callees' (f b)) :
    Follows env active good' (ids ++ ids') (callees ++ callees') (x >>= f) := by
  intro s
  obtain ⟨hfirst, hfollowed⟩ := hx s
  obtain ⟨hrest, hfollowed'⟩ := hf (x.run s).1 (x.run s).2
  rw [Walk.run_bind]
  refine ⟨hfirst.trans hrest, fun clean hgood => ?_⟩
  exact ((hfollowed (clean.of_progress hrest) trivial).progress hrest).append (hfollowed' clean hgood)

theorem weaken {x : Walk β} (hx : Follows env active good ids callees x) (hids : ids' ⊆ ids)
    (hcallees : callees' ⊆ callees) : Follows env active good ids' callees' x := by
  intro s
  refine ⟨(hx s).1, fun clean hgood => ?_⟩
  have hfollowed := (hx s).2 clean hgood
  exact ⟨fun id hid => hfollowed.1 id (hids hid), fun callee h => hfollowed.2 callee (hcallees h)⟩

theorem imp {x : Walk β} (hx : Follows env active (fun _ => True) ids callees x) :
    Follows env active good ids callees x := fun s => ⟨(hx s).1, fun clean _ => (hx s).2 clean trivial⟩

theorem map {x : Walk β} (hx : Follows env active (fun _ => True) ids callees x) (f : β → γ) :
    Follows env active good' ids callees (do return f (← x)) :=
  fun s => ⟨(hx s).1, fun clean _ => (hx s).2 clean trivial⟩

end Follows

namespace Walk

variable {env : Setting} {active : List NodeId}

section Steps

theorem note_follows {good : PUnit → Prop} (e : Event) : Follows env active good [] [] (note e) :=
  .idle fun s => .note s e

theorem settle_follows (node : Node) (o : Outcome) :
    Follows env active (fun _ => True) [node.id] [] (settle node o) := by
  intro s
  refine ⟨settle_tracked (tracked_progresses env active) node o s, fun clean _ => ⟨?_, nofun⟩⟩
  cases o with
  | value v => exact List.forall_mem_singleton.2 ⟨v, List.mem_cons_of_mem _ List.mem_cons_self⟩
  | refused p => exact absurd (clean (.exprVisit node none) List.mem_cons_self) (by simp [Event.isFailure])
  | failed => exact absurd (clean (.exprVisit node none) List.mem_cons_self) (by simp [Event.isFailure])

theorem nested_follows {β : Type} {good : β → Prop} {ids : List NodeId} {callees : List String}
    (kind : Scope.Kind) {x : Walk β} (hx : Follows env active good ids callees x) :
    Follows env active good ids callees (nested kind x) := by
  intro s
  obtain ⟨hprogress, hfollowed⟩ := hx { s with scopes := s.scopes.push kind }
  exact ⟨⟨hprogress.log, hprogress.walked, hprogress.complete⟩, hfollowed⟩

end Steps

variable {ctx : Context}

theorem visiting_follows {ids : List NodeId} {callees : List String} (node : Node) {x : Walk Bool}
    (hx : Follows env active (· = true) ids callees x) :
    Follows env active (fun _ => True) ids callees (visiting ctx node x) := by
  intro s
  obtain ⟨hprogress, hfollowed⟩ := hx s
  have hnote : env.Progresses active (x.run s).2 ((visiting ctx node x).run s).2 := .note _ _
  refine ⟨hprogress.trans hnote, fun clean _ => ?_⟩
  have hok : (x.run s).1 = true := by
    simpa [Event.isFailure] using
      clean (.stmtVisit node ctx.active s.scopes (x.run s).1) List.mem_cons_self
  exact (hfollowed (clean.of_progress hnote) hok).progress hnote

variable (hc : ctx.Follows env)

include hc

theorem applyCall_follows (node : Node) (callee : String) (args : List Expr)
    (values : List (Option (Value Float))) :
    Follows env ctx.active (fun _ => True) [] [callee] (applyCall ctx node callee args values) := by
  intro s
  refine ⟨hc.call node callee args values s, fun clean _ => ⟨nofun, ?_⟩⟩
  rw [List.forall_mem_singleton]
  intro signature hlookup
  have hfails : (Event.callVisit node callee none .invalid).isFailure = true := rfl
  rcases applyCall_cases ctx node callee args values s with
    hrun | ⟨p, span, hrun⟩ | ⟨signature', bindings, hlookup', hrun⟩
  all_goals rw [hrun] at clean ⊢
  · exact absurd (clean _ List.mem_cons_self) (by simp [hfails])
  · exact absurd (clean _ List.mem_cons_self) (by simp [hfails])
  · rw [hc.signatures, hlookup] at hlookup'
    cases hlookup'
    exact hc.enters callee signature hlookup bindings s

omit hc in
theorem recorded_of_sets {node : Node} {name : String} {s : State} {r : Bool × State}
    (h : Sets node name s r) (hok : r.1 = true) : ∃ v, .recorded node.id v ∈ r.2.log := by
  rcases h with ⟨_, v, rest, hlog, _⟩ | ⟨hfailed, _⟩
  · exact ⟨v, hlog ▸ List.mem_cons_self⟩
  · rw [hok] at hfailed
    cases hfailed

theorem declare_follows (node : Node) (type : TypeRef) (name : String)
    (init : Option (Option (Value Float))) :
    Follows env ctx.active (· = true) [node.id] [] (declare ctx.catalog node type name init) := by
  intro s
  refine ⟨declare_indifferent hc.toIndifferent _ node type name init s, fun _ hok => ⟨?_, nofun⟩⟩
  exact List.forall_mem_singleton.2 (recorded_of_sets (declare_sets _ node type name init s) hok)

theorem assign_follows (node : Node) (target : String) (value : Option (Value Float)) :
    Follows env ctx.active (· = true) [node.id] [] (assign ctx.catalog node target value) := by
  intro s
  refine ⟨assign_indifferent hc.toIndifferent _ node target value s, fun _ hok => ⟨?_, nofun⟩⟩
  exact List.forall_mem_singleton.2 (recorded_of_sets (assign_sets _ node target value s) hok)

theorem startBody_follows {good : PUnit → Prop} (control : Control) :
    Follows env ctx.active good [] [] (startBody control) := .idle (hc.start control)

omit hc

mutual

theorem expr_follows (hc : ctx.Follows env) (e : Expr) :
    Follows env ctx.active (fun _ => True) (e.parts.map (·.id)) (Part.callees e.parts) (expr ctx e) := by
  match e with
  | .number node value unit =>
    rw [expr]
    exact settle_follows node _
  | .text node _ =>
    rw [expr]
    exact settle_follows node _
  | .flag node _ =>
    rw [expr]
    exact settle_follows node _
  | .var node name =>
    rw [expr]
    exact fun s => settle_follows node (.var s.scopes name) s
  | .unary node op operand =>
    rw [expr]
    have h := (expr_follows hc operand).bind fun v => settle_follows node (.unary op v)
    exact h.weaken (by simp [Expr.parts]) (by simp [Expr.parts])
  | .binary node op left right =>
    rw [expr]
    have h := (expr_follows hc left).bind fun l => (expr_follows hc right).bind fun r =>
      settle_follows node (.binary ctx.catalog op l r)
    exact h.weaken (by simp [Expr.parts]) (by simp [Expr.parts])
  | .cast node unit operand =>
    have h : Follows env ctx.active (fun _ => True) (operand.parts.map (·.id) ++ [node.id])
        (Part.callees operand.parts ++ []) (expr ctx (.cast node unit operand)) := by
      rw [expr]
      refine (expr_follows hc operand).bind fun v => ?_
      generalize Outcome.cast ctx.catalog unit v = r
      obtain ⟨outcome, warning⟩ := r
      cases warning with
      | none => exact settle_follows node outcome
      | some p => exact (note_follows _).bind fun _ => settle_follows node outcome
    exact h.weaken (by simp [Expr.parts]) (by simp [Expr.parts])
  | .call node callee args =>
    rw [expr]
    have h := (exprs_follows hc args).bind fun values =>
      (applyCall_follows hc node callee args values).bind fun r => settle_follows node (.call callee r)
    exact h.weaken (by simp [Expr.parts]) (by simp [Expr.parts])

theorem exprs_follows (hc : ctx.Follows env) (es : List Expr) :
    Follows env ctx.active (fun _ => True) ((Expr.partsOfList es).map (·.id))
      (Part.callees (Expr.partsOfList es)) (exprs ctx es) := by
  match es with
  | [] =>
    rw [exprs]
    exact .pure _
  | e :: es =>
    rw [exprs, Expr.partsOfList, List.map_append, Part.callees_append]
    exact (expr_follows hc e).bind fun v => (exprs_follows hc es).map _

end

theorem condition_follows (hc : ctx.Follows env) (e : Expr) :
    Follows env ctx.active (fun _ => True) (e.parts.map (·.id)) (Part.callees e.parts) (condition ctx e) := by
  refine ((expr_follows hc e).bind fun v => .idle fun s => ?_).weaken (by simp) (by simp)
  cases v with
  | none => exact .note s _
  | some v =>
    cases v with
    | flag => exact .note s _
    | _ => exact .trans (.note s _) (.note _ _)

theorem simple_follows (hc : ctx.Follows env) {st : Stmt} (hst : st.isSimple = true) :
    Follows env ctx.active (fun _ => True) (Piece.simple st).valued (Part.callees (Piece.simple st).parts)
      (stmt ctx st) := by
  cases st with
  | branch | whileLoop | forLoop => cases hst
  | declare node type name init =>
    cases init with
    | none =>
      rw [stmt]
      exact visiting_follows node (declare_follows hc node type name none)
    | some init =>
      rw [stmt]
      have h := (expr_follows hc init).bind fun v => declare_follows hc node type name (some v)
      refine (visiting_follows node h).weaken ?_ ?_
      all_goals simp [Piece.valued, Piece.parts, Expr.partsOfOption]
  | assign node target value =>
    rw [stmt]
    have h := (expr_follows hc value).bind fun v => assign_follows hc node target v
    exact (visiting_follows node h).weaken (by simp [Piece.valued]) (by simp [Piece.parts])
  | ret node value =>
    cases value with
    | none =>
      rw [stmt]
      exact visiting_follows node (.idle (hc.giveBack node none))
    | some value =>
      rw [stmt]
      refine (visiting_follows node ((expr_follows hc value).bind fun v => .idle fun s => ?_)).weaken
        (by simp [Piece.valued, Expr.partsOfOption]) (by simp [Piece.parts, Expr.partsOfOption])
      cases v with
      | none => exact hc.refl s
      | some v => exact hc.giveBack node (some v) s
  | print node value =>
    rw [stmt]
    exact visiting_follows node ((expr_follows hc value).map _)
  | expr node value =>
    have hvalue := expr_follows hc value
    cases value with
    | call callNode callee args =>
      rw [stmt]
      refine (visiting_follows node ((exprs_follows hc args).bind fun values =>
        (applyCall_follows hc callNode callee args values).map _)).weaken ?_ ?_
      all_goals simp [Piece.valued, Piece.parts, Expr.parts]
    | _ =>
      simp only [stmt]
      exact visiting_follows node (hvalue.map _)

theorem follows_compositional (hc : ctx.Follows env) : Compositional ctx ctx fun ps x _ =>
    Follows env ctx.active (fun _ => True) (ps.flatMap Piece.valued)
      (Part.callees (ps.flatMap Piece.parts)) x where
  nothing := .pure true
  both hx hy := by
    rw [List.flatMap_append, List.flatMap_append, Part.callees_append]
    exact hx.bind fun _ => hy.map _
  simple st hst := by
    rw [List.flatMap_singleton, List.flatMap_singleton]
    exact simple_follows hc hst
  test e := by
    rw [List.flatMap_singleton, List.flatMap_singleton]
    exact condition_follows hc e
  visiting node _ _ _ hx := visiting_follows node hx.imp
  nested hx := nested_follows .block hx
  start control _ _ _ hx := (startBody_follows hc control).bind fun _ => hx

theorem stmts_follows (hc : ctx.Follows env) (sts : List Stmt) :
    Follows env ctx.active (fun _ => True) (Stmt.valuedOfList sts) (Part.callees (Stmt.partsOfList sts))
      (stmts ctx sts) := (follows_compositional hc).composed.stmts sts

theorem calling_follows {β : Type} {ids : List NodeId} {callees : List String} (id : NodeId) {x : Walk β}
    (hx : Follows env active (fun _ => True) ids callees x) :
    Follows env active (fun _ => True) ids callees (calling id x) := by
  intro s
  obtain ⟨hprogress, hfollowed⟩ := hx { s with active := id :: s.active }
  exact ⟨⟨hprogress.log, hprogress.walked, hprogress.complete⟩, hfollowed⟩

theorem body_follows (hc : ctx.Follows env) (f : FunctionDecl) (bindings : Bindings Float) :
    Follows env ctx.active (fun _ => True) f.body.valued (Part.callees f.body.parts) (body ctx f bindings) := by
  intro s
  obtain ⟨hprogress, hfollowed⟩ := stmts_follows hc f.body.stmts (s.opened ctx.catalog f bindings)
  rw [Block.valued_eq, Block.parts_eq]
  exact ⟨⟨hprogress.log, hprogress.walked, hprogress.complete⟩, hfollowed⟩

end Walk

/-! ### Functions -/

theorem State.mem_walked {s : State} {key : InstanceKey} {r : Option (Value Float)}
    (h : s.instances.lookup key = some r) : key.1 ∈ s.walked := by
  exact List.mem_map.2 ⟨(key, r), Fallible.mem_of_lookup_eq_some h, rfl⟩

namespace Setting

variable {env : Setting} {active : List NodeId} {s : State}

theorem Complete.mono {active' : List NodeId} (h : env.Complete active s) (hsub : active ⊆ active') :
    env.Complete active' s := fun f hf hwalked => (h f hf hwalked).widen hsub

/-- A function that has been walked need not be waited for. -/
theorem Complete.leave {id : NodeId} (h : env.Complete (id :: active) s)
    (hbody : ∀ f, env.function? id = some f →
      Followed env.signatures (id :: active) f.body.valued (Part.callees f.body.parts) s)
    (shapes : List String) (r : Option (Value Float)) :
    env.Complete active { s with instances := ((id, shapes), r) :: s.instances } := by
  intro f hf hwalked
  have hopen : Followed env.signatures (id :: active) f.body.valued (Part.callees f.body.parts) s := by
    rcases List.mem_cons.1 hwalked with rfl | hwalked
    · exact hbody f hf
    · exact h f hf hwalked
  refine ⟨hopen.1, fun callee hmem signature hl => ?_⟩
  rcases hopen.2 callee hmem signature hl with hactive | hwalked
  · rcases List.mem_cons.1 hactive with hid | hactive
    · exact Or.inr (hid ▸ List.mem_cons_self)
    · exact Or.inl hactive
  · exact Or.inr (List.mem_cons_of_mem id hwalked)

def Leads (env : Setting) : Prop :=
  ∀ name signature, env.signatures.lookup name = some signature →
    ∃ f, env.function? signature.decl.id = some f

end Setting

namespace Walk

variable {env : Setting} {active : List NodeId}

theorem enter_walked {id : NodeId} {f : FunctionDecl} (hf : env.function? id = some f)
    (active : List NodeId) (bindings : Bindings Float) (s : State) :
    id ∈ active ∨ id ∈ ((enter env active id bindings).run s).2.walked := by
  by_cases hactive : id ∈ active
  · exact Or.inl hactive
  · right
    rw [enter_of_inactive hf hactive, run_remembered]
    split
    · next hknown =>
      split at hknown
      · exact State.mem_walked hknown
      · cases hknown
    · exact List.mem_cons_self

theorem indifferent_progresses {enter : NodeId → Bindings Float → Walk (Option (Value Float))}
    (henter : ∀ id bindings s, env.Progresses active s ((enter id bindings).run s).2) :
    (env.context active enter).Indifferent (env.Progresses active) where
  toTracked := tracked_progresses env active
  call _ _ args values s := applyCall_tracked (tracked_progresses env active) henter
    (fun _ t => .note t _) (fun _ _ t => .note t _) args values s
  scopes _ _ := .of_log (List.suffix_refl _) rfl
  start _ s := .note s _
  visit _ _ _ s := .note s _
  giveBack node value s := by
    rcases giveBack_cases (env.context active enter) node value s with
      ⟨p, _, hrun⟩ | hrun | ⟨name, v, _, hrun⟩
    all_goals rw [hrun]
    · exact .note s _
    · exact .of_log (List.suffix_refl _) rfl
    · exact .of_log (List.suffix_refl _) rfl

theorem context_follows (hleads : env.Leads)
    (henter : ∀ id bindings s, env.Progresses active s ((enter env active id bindings).run s).2) :
    (env.around active).Follows env where
  toIndifferent := indifferent_progresses henter
  signatures := rfl
  enters callee signature hlookup bindings s := by
    obtain ⟨f, hf⟩ := hleads callee signature hlookup
    exact enter_walked hf active bindings s

theorem enter_progresses (hleads : env.Leads) (active : List NodeId) (id : NodeId)
    (bindings : Bindings Float) (s : State) :
    env.Progresses active s ((enter env active id bindings).run s).2 := by
  fun_induction enter env active id bindings generalizing s with
  | case1 active id bindings hf => exact (tracked_progresses env active).refl s
  | case2 active id bindings f hf hactive => exact (tracked_progresses env active).refl s
  | case3 active id bindings f hf inactive ctx ih =>
    have hc : ctx.Follows env := context_follows hleads ih
    obtain ⟨hprogress, hfollowed⟩ := body_follows hc f bindings { s with active := id :: s.active }
    rw [run_remembered]
    split
    · exact (tracked_progresses env active).refl s
    · refine ⟨hprogress.log, List.subset_cons_of_subset id hprogress.walked, fun clean complete => ?_⟩
      have hinside := hprogress.complete clean (complete.mono (List.subset_cons_self id active))
      refine hinside.leave (fun g hg => ?_) _ _
      obtain rfl : f = g := Option.some.inj (hf.symm.trans hg)
      exact hfollowed clean trivial

theorem around_follows (hleads : env.Leads) (active : List NodeId) : (env.around active).Follows env :=
  context_follows hleads (enter_progresses hleads active)

theorem owns_of_clean {f : FunctionDecl} {s : State} (clean : ((function env f).run s).2.Clean) :
    env.signatures.owns f = true := by
  by_contra howned
  unfold function at clean
  rw [if_neg howned] at clean
  exact absurd (clean (.functionVisit f.node false) List.mem_cons_self) (by simp [Event.isFailure])

theorem function_follows (hleads : env.Leads) {e f : FunctionDecl} (hentry : f.isEntry = true → f = e) :
    Follows env [e.id] (fun _ => True) (([f].filter (·.isEntry)).flatMap (·.body.valued))
      (Part.callees (([f].filter (·.isEntry)).flatMap (·.body.parts))) (function env f) := by
  have hR := tracked_progresses env [e.id]
  have visited (ok : Bool) : Follows env [e.id] (fun _ => True) [] []
      (do note (.functionVisit f.node ok); return ok) := .idle fun s => .note s _
  have hheader : Follows env [e.id] (fun _ => True) [] [] (header env f) := .idle (header_tracked hR env f)
  by_cases howned : env.signatures.owns f = true
  · unfold function
    rw [if_pos howned]
    cases hf : f.isEntry with
    | false =>
      simp only [hf, Bool.false_eq_true, not_false_eq_true, List.filter_cons_of_neg, List.filter_nil]
      exact hheader.bind visited
    | true =>
      obtain rfl := hentry hf
      have hbody := calling_follows f.id (body_follows (around_follows hleads [f.id]) f
        (f.params.map fun p => (p.name, placeholderFor env.catalog p.type)))
      refine (hheader.bind fun ok => (hbody.map fun _ => PUnit.unit).bind fun _ => visited ok).weaken ?_ ?_
      all_goals simp [hf]
  · intro s
    refine ⟨?_, fun clean _ => absurd (owns_of_clean clean) howned⟩
    unfold function
    rw [if_neg howned]
    exact .trans (.note s _) (.note _ _)

theorem functions_follows (hleads : env.Leads) {e : FunctionDecl} {fs : List FunctionDecl}
    (hentry : ∀ f ∈ fs, f.isEntry = true → f = e) :
    Follows env [e.id] (fun _ => True) ((fs.filter (·.isEntry)).flatMap (·.body.valued))
      (Part.callees ((fs.filter (·.isEntry)).flatMap (·.body.parts))) (functions env fs) := by
  induction fs with
  | nil => exact .pure _
  | cons f fs ih =>
    obtain ⟨hf, hfs⟩ := List.forall_mem_cons.1 hentry
    have h := ((function_follows hleads hf).map fun _ => PUnit.unit).bind fun _ => ih hfs
    rwa [← Part.callees_append, ← List.flatMap_append, ← List.flatMap_append, ← List.filter_append] at h

theorem owned_of_clean (hleads : env.Leads) {e : FunctionDecl} {fs : List FunctionDecl}
    (hentry : ∀ f ∈ fs, f.isEntry = true → f = e) {s : State} (clean : ((functions env fs).run s).2.Clean) :
    ∀ f ∈ fs, env.signatures.owns f = true := by
  induction fs generalizing s with
  | nil => nofun
  | cons f fs ih =>
    obtain ⟨-, hfs⟩ := List.forall_mem_cons.1 hentry
    obtain ⟨hrest, -⟩ := functions_follows hleads hfs ((function env f).run s).2
    exact List.forall_mem_cons.2 ⟨owns_of_clean (clean.of_progress hrest), ih hfs clean⟩

end Walk

/-! ### Programs -/

section Program

variable {c : Catalog Float} {t : Signatures} {p : Program}

theorem leads_ofProgram (c : Catalog Float) (ht : Signatures.collect p = .ok t) (reuse : Bool) :
    (Setting.ofProgram c t p reuse).Leads := by
  intro name signature hlookup
  obtain ⟨f, hf, howned, rfl⟩ := Signatures.declared_of_lookup ht hlookup
  have hmem : f ∈ (Setting.ofProgram c t p reuse).functions.reverse :=
    List.mem_reverse.2 (List.mem_filter.2 ⟨hf, howned⟩)
  refine Option.isSome_iff_exists.1 (List.find?_isSome.2 ⟨f, hmem, ?_⟩)
  simp [Signature.ofDecl, FunctionDecl.id]

structure Finished (env : Setting) (p : Program) (e : FunctionDecl) (s : State) : Prop where
  globals : Followed env.signatures [e.id] (Stmt.valuedOfList p.globals)
    (Part.callees (Stmt.partsOfList p.globals)) s
  entry : Followed env.signatures [e.id] e.body.valued (Part.callees e.body.parts) s
  complete : env.Complete [e.id] s
  owned : ∀ f ∈ p.functions, env.signatures.owns f = true

theorem run_finished (ht : Signatures.collect p = .ok t) {e : FunctionDecl} (he : e ∈ p.functions)
    (hentry : e.isEntry = true) {reuse : Bool} (clean : (run c t p reuse).Clean) :
    Finished (.ofProgram c t p reuse) p e (run c t p reuse) := by
  have hleads := leads_ofProgram c ht reuse
  have hunique : ∀ f ∈ p.functions, f.isEntry = true → f = e :=
    fun f hf hfe => Signatures.entry_unique ht hf he hfe hentry
  obtain ⟨hglobals, hglobal⟩ := Walk.stmts_follows (Walk.around_follows hleads []) p.globals (start c)
  obtain ⟨hfunctions, hfollowed⟩ := Walk.functions_follows hleads hunique
    ((Walk.stmts _ p.globals).run (start c)).2
  have hclean := clean.of_progress hfunctions
  have hall := hfollowed clean trivial
  have hmem : e ∈ p.functions.filter (·.isEntry) := List.mem_filter.2 ⟨he, hentry⟩
  constructor
  · exact ((hglobal hclean trivial).widen (List.nil_subset _)).progress hfunctions
  · refine ⟨fun id hid => hall.1 id (List.mem_flatMap.2 ⟨e, hmem, hid⟩), fun callee hcallee => ?_⟩
    obtain ⟨part, hpart, hcalls⟩ := List.mem_filterMap.1 hcallee
    exact hall.2 callee (List.mem_filterMap.2 ⟨part, List.mem_flatMap.2 ⟨e, hmem, hpart⟩, hcalls⟩)
  · have hnone : (Setting.ofProgram c t p reuse).Complete [] (start c) := fun f _ hwalked => nomatch hwalked
    exact hfunctions.complete clean ((hglobals.complete hclean hnone).mono (List.nil_subset _))
  · exact Walk.owned_of_clean hleads hunique clean

namespace Finished

variable {e : FunctionDecl} {s : State} {reuse : Bool} (h : Finished (.ofProgram c t p reuse) p e s)
  (hids : (p.functions.map (·.id)).Nodup)

include h hids

theorem followed (he : e ∈ p.functions) {f : FunctionDecl} (hf : f ∈ p.functions)
    (hmet : f.id ∈ [e.id] ∨ f.id ∈ s.walked) :
    Followed t [e.id] f.body.valued (Part.callees f.body.parts) s := by
  rcases hmet with hid | hwalked
  · obtain rfl := List.inj_on_of_nodup_map hids hf he (List.mem_singleton.1 hid)
    exact h.entry
  · have hmem : f ∈ (p.functions.filter t.owns).reverse :=
      List.mem_reverse.2 (List.mem_filter.2 ⟨hf, h.owned f hf⟩)
    have hdistinct : ((p.functions.filter t.owns).reverse.map (·.id)).Nodup := by
      rw [List.map_reverse, List.nodup_reverse]
      exact hids.sublist ((List.filter_sublist).map _)
    exact h.complete f (find?_key_of_mem FunctionDecl.id hmem hdistinct) hwalked

/-- Every function that runs is the entry point or has been walked. -/
theorem met (he : e ∈ p.functions) (hunique : ∀ f ∈ p.functions, f.isEntry = true → f = e) {name : String}
    (hruns : p.Runs name) : ∀ signature, t.lookup name = some signature →
      signature.decl.id ∈ [e.id] ∨ signature.decl.id ∈ s.walked := by
  induction hruns with
  | @entry f hf hentry =>
    intro signature hlookup
    obtain ⟨signature', hlookup', hid⟩ := Signatures.lookup_of_owns (h.owned f hf)
    cases hlookup.symm.trans hlookup'
    exact Or.inl (by rw [hid, hunique f hf hentry]; exact List.mem_singleton_self _)
  | @global callee hcalled => exact h.globals.2 callee hcalled
  | @call f callee hf _ hcalled ih =>
    obtain ⟨signature', hlookup', hid⟩ := Signatures.lookup_of_owns (h.owned f hf)
    exact (h.followed hids he hf (hid ▸ ih signature' hlookup')).2 callee hcalled

end Finished

theorem clean_of_valid (ht : Signatures.collect p = .ok t) {reuse : Bool}
    (hvalid : (ofLog (run c t p reuse).log).valid = true) : (run c t p reuse).Clean := by
  obtain ⟨hregular, hsame⟩ := run_accounted (c := c) ht reuse
  rw [valid, any_isError_ofLog hregular, ← hsame] at hvalid
  simpa [State.Clean] using hvalid

/-- In a valid program all that runs has its value: every expression but a call that stands alone, and every
statement that gives a variable a value. -/
theorem results_complete {a : Analysis} (h : analyze c p = .ok a) (hvalid : a.valid = true)
    (hids : (p.functions.map (·.id)).Nodup) :
    (∀ id ∈ Stmt.valuedOfList p.globals, (a.result? id).isSome = true) ∧
      ∀ f ∈ p.functions, p.Runs f.name → ∀ id ∈ f.body.valued, (a.result? id).isSome = true := by
  obtain ⟨t, ht, ha⟩ := Fallible.bind_eq_ok.1 h
  cases ha
  obtain ⟨e, he, hentry⟩ := Signatures.exists_entry ht
  have hfinished := run_finished ht he hentry (clean_of_valid ht hvalid)
  have has_result {ids : List NodeId} {callees : List String}
      (hfollowed : Followed t [e.id] ids callees (run c t p true)) :
      ∀ id ∈ ids, ((ofLog (run c t p true).log).result? id).isSome = true := by
    intro id hid
    obtain ⟨v, hv⟩ := hfollowed.1 id hid
    exact isSome_result? hv
  refine ⟨has_result hfinished.globals, fun f hf hruns => has_result (hfinished.followed hids he hf ?_)⟩
  have hunique : ∀ f ∈ p.functions, f.isEntry = true → f = e :=
    fun f hf hfe => Signatures.entry_unique ht hf he hfe hentry
  obtain ⟨signature, hlookup, hid⟩ := Signatures.lookup_of_owns (hfinished.owned f hf)
  exact hid ▸ hfinished.met hids he hunique hruns signature hlookup

end Program

/-- A global statement calls a function that calls itself, and the entry point one that changes a global. -/
def surveying : Program where
  items := [
    .global (.declare ⟨0, .none⟩ .number "total"
      (some (.call ⟨1, .none⟩ "count" [.number ⟨2, .none⟩ 3 none]))),
    .function ⟨⟨3, .none⟩, "main", [], none,
      .mk [.whileLoop ⟨4, .none⟩ (.flag ⟨5, .none⟩ true)
        (.mk [.expr ⟨6, .none⟩ (.call ⟨7, .none⟩ "clear" [])] .none)] .none, true⟩,
    .function ⟨⟨8, .none⟩, "count", [⟨"n", .number, .none⟩], some .number,
      .mk [.ret ⟨9, .none⟩ (some (.call ⟨10, .none⟩ "count" [.var ⟨11, .none⟩ "n"]))] .none, false⟩,
    .function ⟨⟨12, .none⟩, "clear", [], none,
      .mk [.assign ⟨13, .none⟩ "total" (.number ⟨14, .none⟩ 0 none)] .none, false⟩]

theorem surveying_runs : ∀ f ∈ surveying.functions, surveying.Runs f.name := by
  have hmain := List.mem_of_mem_head? (show surveying.functions.head? = some _ from rfl)
  have main := Program.Runs.entry hmain rfl
  have count : surveying.Runs "count" := .global (by decide)
  have clear : surveying.Runs "clear" := .call hmain main (by decide)
  exact List.forall_mem_cons.2 ⟨main, List.forall_mem_cons.2 ⟨count, List.forall_mem_singleton.2 clear⟩⟩

/-- All have their values, but the call that stands alone. -/
theorem surveying_complete : ∃ c a, Catalog.build ({} : Description Float) = .ok c ∧
    analyze c surveying = .ok a ∧ a.valid = true ∧ a.result? 7 = none ∧
    ∀ id ∈ [0, 1, 2, 5, 10, 11, 13, 14], (a.result? id).isSome = true := by
  have hevals : (Catalog.build ({} : Description Float)).toOption.bind (fun c =>
      (analyze c surveying).toOption.map fun a => (a.valid, a.result? 7)) = some (true, none) := by
    decide +kernel
  obtain ⟨c, hc, hevals⟩ := Option.bind_eq_some_iff.1 hevals
  obtain ⟨a, ha, hevals⟩ := Option.map_eq_some_iff.1 hevals
  obtain ⟨hvalid, hnone⟩ := Prod.mk.inj hevals
  have ha : analyze c surveying = .ok a := Fallible.toOption_eq_some.1 ha
  obtain ⟨hglobals, hfunctions⟩ := results_complete ha hvalid (by decide)
  refine ⟨c, a, Fallible.toOption_eq_some.1 hc, ha, hvalid, hnone, ?_⟩
  have hall : ∀ id ∈ Stmt.valuedOfList surveying.globals ++ surveying.functions.flatMap (·.body.valued),
      (a.result? id).isSome = true := by
    refine List.forall_mem_append.2 ⟨hglobals, fun id hid => ?_⟩
    obtain ⟨f, hf, hid⟩ := List.mem_flatMap.1 hid
    exact hfunctions f hf (surveying_runs f hf) id hid
  exact hall

end Analysis

end Metrology

import Metrology.Proofs.Scope.Alongside
import Metrology.Proofs.Scope.Guard

/-! Lexical scoping. In a chain every scope holds only the names introduced in it and leaves all others to its
parent: that of a block is the scope around it, that of a function the global scope. Copying the bindings into
each new scope comes to the same, since no scope gains a name while another is open inside it. -/
namespace Metrology

variable {α : Type}

namespace Chain

structure Link where
  kind : Scope.Kind
  names : List String
deriving DecidableEq, Repr

/-- Whether a name is found on the way outward from the innermost scope. -/
def sees (name : String) : List Link → Bool
  | [] => false
  | link :: outward => name ∈ link.names || match link.kind with
    | .function => outward.getLast?.any (name ∈ ·.names)
    | .block => sees name outward

/-- A scope by itself shows its own names, whatever its kind. -/
theorem sees_singleton (name : String) (link : Link) : sees name [link] = decide (name ∈ link.names) := by
  cases h : link.kind <;> simp [sees, h]

/-- A new block shows what is seen around it. -/
theorem sees_block (name : String) (links : List Link) : sees name (⟨.block, []⟩ :: links) = sees name links := by
  simp [sees]

/-- A new function shows the names of the global scope. -/
theorem sees_function (name : String) {links : List Link} {global : Link} (h : links.getLast? = some global) :
    sees name (⟨.function, []⟩ :: links) = sees name [global] := by
  rw [sees_singleton]
  simp [sees, h]

theorem sees_introduced (name : String) (link : Link) (outward : List Link) (n : String) :
    sees n ({ link with names := name :: link.names } :: outward) =
      (decide (n = name) || sees n (link :: outward)) := by
  simp [sees, Bool.or_assoc]

end Chain

/-- Open scopes that are linked instead of copied. -/
structure Chain where
  /-- From the inside out, the global scope last. -/
  links : List Chain.Link
  reserved : List String
deriving DecidableEq, Repr

namespace Chain

open ScopeStack

def start (reserved : List String) : Chain := ⟨[⟨.function, []⟩], reserved⟩

def depth (c : Chain) : Nat := c.links.length

def visible (c : Chain) (name : String) : Bool := sees name c.links

def introduce (c : Chain) (name : String) : Chain :=
  match c.links with
  | [] => c
  | link :: outward => { c with links := { link with names := name :: link.names } :: outward }

def close (c : Chain) (depth : Nat) : Chain := { c with links := c.links.drop (c.depth - max depth 1) }

/-- Why an operation is refused, if it is. -/
def refusal? (c : Chain) : Operation α → Option ScopeError
  | .declare name _ =>
    if name ∈ c.reserved then some (.reserved name)
    else if c.visible name then some (.duplicate name)
    else none
  | .assign name _ => if c.visible name then none else some (.undeclared name)
  | .push _ | .pop | .truncate _ | .bind _ _ => none

/-- What is refused changes nothing, and an assignment introduces nothing. -/
def step (c : Chain) (op : Operation α) : Chain :=
  if (c.refusal? op).isSome then c
  else match op with
    | .push kind => { c with links := ⟨kind, []⟩ :: c.links }
    | .pop => c.close (c.depth - 1)
    | .truncate depth => c.close depth
    | .declare name _ | .bind name _ => c.introduce name
    | .assign _ _ => c

def run (c : Chain) (ops : List (Operation α)) : Chain := ops.foldl step c

end Chain

namespace Bindings

theorem has_insert (b : Bindings α) (name : String) (v : Value α) (n : String) :
    (b.insert name v).has n = (decide (n = name) || b.has n) := by
  rw [has, get?_insert]
  by_cases h : n = name <;> simp [h, has]

theorem has_modify (b : Bindings α) (name : String) (f : Value α → Value α) (n : String) :
    (b.modify name f).has n = b.has n := by
  rw [has, get?_modify]
  by_cases h : n = name <;> simp [h, has]

theorem has_forgotten (b : Bindings α) (n : String) : b.forgotten.has n = b.has n := by
  simp [has, get?_forgotten]

end Bindings

namespace ScopeStack

def Operation.refusal? (s : ScopeStack α) : Operation α → Option ScopeError
  | declare name v => match s.declare name v with
    | .error e => some e
    | .ok _ => none
  | assign name v => match s.assign name v with
    | .error e => some e
    | .ok _ => none
  | push _ | pop | truncate _ | bind _ _ => none

theorem pop_eq_truncate (s : ScopeStack α) : s.pop = s.truncate (s.depth - 1) := by
  obtain ⟨top, below, reserved⟩ := s
  cases below with
  | nil => rfl
  | cons scope below =>
    have htimes : below.length + 1 + 1 - max (below.length + 1 + 1 - 1) 1 = 1 := by omega
    rw [truncate, depth, List.length_cons, htimes]
    rfl

/-- Copied scopes and linked ones that show the same names, from every scope outward. -/
inductive Mirrors : List (Scope α) → List Chain.Link → Prop
  | nil : Mirrors [] []
  | cons {scope : Scope α} {scopes : List (Scope α)} {link : Chain.Link} {links : List Chain.Link}
      (kind : link.kind = scope.kind)
      (names : ∀ name, scope.bindings.has name = Chain.sees name (link :: links))
      (outward : Mirrors scopes links) : Mirrors (scope :: scopes) (link :: links)

namespace Mirrors

variable {scopes : List (Scope α)} {links : List Chain.Link}

theorem length_eq (h : Mirrors scopes links) : links.length = scopes.length := by
  induction h with
  | nil => rfl
  | cons _ _ _ ih => rw [List.length_cons, List.length_cons, ih]

theorem drop (h : Mirrors scopes links) (n : Nat) : Mirrors (scopes.drop n) (links.drop n) := by
  induction h generalizing n with
  | nil => simpa using Mirrors.nil
  | cons kind names outward ih =>
    cases n with
    | zero => exact .cons kind names outward
    | succ n => exact ih n

theorem global (h : Mirrors scopes links) {scope : Scope α} (hlast : scopes.getLast? = some scope) :
    ∃ link, links.getLast? = some link ∧ ∀ name, scope.bindings.has name = Chain.sees name [link] := by
  induction h with
  | nil => cases hlast
  | @cons scope' scopes link links _ names outward ih =>
    cases outward with
    | nil =>
      cases hlast
      exact ⟨link, rfl, names⟩
    | cons kind' names' outward' =>
      rw [List.getLast?_cons_cons] at hlast ⊢
      exact ih hlast

theorem forgetOutward (h : Mirrors scopes links) (name : String) :
    Mirrors (ScopeStack.forgetOutward name scopes) links := by
  induction h with
  | nil => exact .nil
  | @cons scope scopes link links kind names outward ih =>
    have hnames (n : String) :
        (scope.bindings.modify name Value.forgotten).has n = Chain.sees n (link :: links) := by
      rw [Bindings.has_modify, names]
    rw [ScopeStack.forgetOutward]
    cases hkind : scope.kind with
    | function => exact .cons (kind.trans hkind) hnames outward
    | block => exact .cons (kind.trans hkind) hnames ih

end Mirrors

structure Mirrored (s : ScopeStack α) (c : Chain) : Prop where
  reserved : c.reserved = s.reserved
  scopes : Mirrors s.scopes c.links

namespace Mirrored

variable {s : ScopeStack α} {c : Chain}

theorem empty (reserved : List String) : Mirrored (empty reserved : ScopeStack α) (Chain.start reserved) :=
  ⟨rfl, .cons rfl (fun _ => rfl) .nil⟩

theorem depth_eq (h : Mirrored s c) : c.depth = s.depth := h.scopes.length_eq

theorem has_eq (h : Mirrored s c) (name : String) : s.top.bindings.has name = c.visible name := by
  obtain ⟨links, reserved⟩ := c
  cases h.scopes with
  | cons _ names _ => exact names name

/-- A scope takes over what it can see, which its link leaves to its parent. -/
theorem push (h : Mirrored s c) (kind : Scope.Kind) :
    Mirrored (s.push kind) { c with links := ⟨kind, []⟩ :: c.links } := by
  refine ⟨h.reserved, .cons rfl (fun name => ?_) h.scopes⟩
  cases kind with
  | function =>
    obtain ⟨link, hlink, hnames⟩ := h.scopes.global (getLast?_eq_global s)
    rw [Chain.sees_function name hlink, ← hnames]
    exact Bindings.has_forgotten _ _
  | block =>
    rw [Chain.sees_block]
    exact (Bindings.has_forgotten _ _).trans (h.has_eq name)

theorem truncate (h : Mirrored s c) (depth : Nat) : Mirrored (s.truncate depth) (c.close depth) := by
  obtain ⟨hscopes, hreserved⟩ := truncate_spec s depth
  refine ⟨h.reserved.trans hreserved.symm, ?_⟩
  rw [hscopes, Chain.close, h.depth_eq]
  exact h.scopes.drop _

theorem bind (h : Mirrored s c) (name : String) (v : Value α) : Mirrored (s.bind name v) (c.introduce name) := by
  obtain ⟨links, reserved⟩ := c
  cases h.scopes with
  | cons kind names outward =>
    refine ⟨h.reserved, .cons kind (fun n => ?_) outward⟩
    rw [Chain.sees_introduced, ← names]
    exact Bindings.has_insert _ name v n

theorem assign (h : Mirrored s c) {name : String} {v : Value α} {t : ScopeStack α}
    (ht : s.assign name v = .ok t) : Mirrored t c := by
  unfold ScopeStack.assign at ht
  split at ht
  · cases ht
    obtain ⟨links, reserved⟩ := c
    cases h.scopes with
    | cons kind names outward =>
      refine ⟨h.reserved, .cons kind (fun n => ?_) ?_⟩
      · rw [← names]
        exact Bindings.has_modify s.top.bindings name (fun _ => v) n
      · cases hkind : s.top.kind with
        | function => exact outward
        | block => exact outward.forgetOutward name
  · cases ht

theorem declare_eq (h : Mirrored s c) (name : String) (v : Value α) : s.declare name v =
    if name ∈ c.reserved then .error (.reserved name)
    else if c.visible name then .error (.duplicate name)
    else .ok (s.bind name v) := by
  simp only [declare, isReserved, h.has_eq, h.reserved, decide_eq_true_eq]

theorem assign_eq_error (h : Mirrored s c) {name : String} {v : Value α} {e : ScopeError} :
    s.assign name v = .error e ↔ c.visible name = false ∧ e = .undeclared name := by
  rw [← h.has_eq]
  unfold ScopeStack.assign
  cases s.top.bindings.has name <;> simp [eq_comm]

theorem refusal?_eq (h : Mirrored s c) (op : Operation α) : op.refusal? s = c.refusal? op := by
  cases op with
  | declare name v =>
    rw [Operation.refusal?, h.declare_eq, Chain.refusal?]
    by_cases hreserved : name ∈ c.reserved <;> by_cases hvisible : c.visible name = true <;>
      simp [hreserved, hvisible]
  | assign name v =>
    rw [Operation.refusal?, Chain.refusal?]
    cases ha : s.assign name v with
    | error e =>
      obtain ⟨hvisible, rfl⟩ := h.assign_eq_error.1 ha
      simp [hvisible]
    | ok t =>
      have hvisible : c.visible name = true := by
        rw [← Bool.not_eq_false]
        intro hvisible
        rw [h.assign_eq_error.2 ⟨hvisible, rfl⟩] at ha
        cases ha
      simp [hvisible]
  | _ => rfl

theorem step (h : Mirrored s c) (op : Operation α) : Mirrored (op.run s) (c.step op) := by
  have hrefusal := h.refusal?_eq op
  cases op with
  | push kind => exact h.push kind
  | pop =>
    rw [Operation.run, pop_eq_truncate, ← h.depth_eq]
    exact h.truncate _
  | truncate depth => exact h.truncate depth
  | declare name v =>
    rw [Operation.run, Chain.step, ← hrefusal, Operation.refusal?]
    cases hd : s.declare name v with
    | error e => exact h
    | ok t =>
      rw [h.declare_eq] at hd
      split_ifs at hd
      cases hd
      exact h.bind name v
  | assign name v =>
    rw [Operation.run, Chain.step, ← hrefusal, Operation.refusal?]
    cases ha : s.assign name v with
    | error e => exact h
    | ok t => exact h.assign ha
  | bind name v => exact h.bind name v

theorem run (h : Mirrored s c) (ops : List (Operation α)) : Mirrored (s.run ops) (c.run ops) := by
  induction ops generalizing s c with
  | nil => exact h
  | cons op ops ih => exact ih (h.step op)

end Mirrored

theorem run_of_refusal? {s : ScopeStack α} {op : Operation α} {e : ScopeError} (h : op.refusal? s = some e) :
    op.run s = s := by
  cases op with
  | declare name v =>
    rw [Operation.refusal?] at h
    rw [Operation.run]
    cases hd : s.declare name v with
    | error e => rfl
    | ok t => simp [hd] at h
  | assign name v =>
    rw [Operation.refusal?] at h
    rw [Operation.run]
    cases ha : s.assign name v with
    | error e => rfl
    | ok t => simp [ha] at h
  | _ => cases h

theorem reserved_run_chain (c : Chain) (ops : List (Operation α)) : (c.run ops).reserved = c.reserved := by
  have hstep (c : Chain) (op : Operation α) : (c.step op).reserved = c.reserved := by
    unfold Chain.step
    split
    · rfl
    · cases op with
      | declare name v | bind name v =>
        change (c.introduce name).reserved = c.reserved
        unfold Chain.introduce
        split <;> rfl
      | _ => rfl
  induction ops generalizing c with
  | nil => rfl
  | cons op ops ih => exact (ih _).trans (hstep c op)

/-- Copied scopes are scoped lexically, whatever has been done to them since they were empty. A name has a value
exactly if it is visible along the chain. A declaration is refused for a reserved word, and otherwise exactly for
a visible name; an assignment is refused exactly for a name that is not visible. What is refused changes
nothing, and the global scope stays open. -/
theorem snapshots_are_lexical (reserved : List String) (ops : List (Operation α)) :
    let s := (empty reserved : ScopeStack α).run ops
    let c := (Chain.start reserved).run ops
    (∀ name, (s.get? name).isSome = true ↔ c.visible name = true) ∧
    (∀ name v,
      (s.declare name v = .error (.reserved name) ↔ name ∈ reserved) ∧
      (s.declare name v = .error (.duplicate name) ↔ name ∉ reserved ∧ c.visible name = true) ∧
      ((∃ t, s.declare name v = .ok t) ↔ name ∉ reserved ∧ c.visible name = false)) ∧
    (∀ name v,
      (s.assign name v = .error (.undeclared name) ↔ c.visible name = false) ∧
      ((∃ t, s.assign name v = .ok t) ↔ c.visible name = true)) ∧
    (∀ (op : Operation α) e, op.refusal? s = some e → op.run s = s) ∧
    s.depth = c.depth ∧ 1 ≤ s.depth := by
  intro s c
  have h : Mirrored s c := (Mirrored.empty reserved).run ops
  have hreserved : c.reserved = reserved := reserved_run_chain _ ops
  refine ⟨fun name => ?_, fun name v => ?_, fun name v => ?_, fun op e => run_of_refusal?, h.depth_eq.symm,
    Nat.succ_pos _⟩
  · rw [← h.has_eq]
    rfl
  · rw [h.declare_eq, hreserved]
    by_cases hname : name ∈ reserved <;> by_cases hvisible : c.visible name = true <;>
      simp [hname, hvisible]
  · refine ⟨by simp [h.assign_eq_error], ?_⟩
    cases ha : s.assign name v with
    | error e => simp [h.assign_eq_error.1 ha]
    | ok t =>
      have hvisible : c.visible name ≠ false := by
        intro hvisible
        rw [h.assign_eq_error.2 ⟨hvisible, rfl⟩] at ha
        cases ha
      simpa using hvisible

end ScopeStack

end Metrology

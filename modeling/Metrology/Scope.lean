import Metrology.Value

/-! Scopes that start as copies. A new scope takes over the bindings it can see with their measured
values forgotten, since its statements may run any number of times; so only the innermost scope is
ever searched. An assignment inside blocks makes the variable unknown in the scopes around them. -/
namespace Metrology

/-- Names with their values; the first binding of a name counts. -/
abbrev Bindings (α : Type) := List (String × Value α)

namespace Bindings

variable {α : Type}

def get? (b : Bindings α) (name : String) : Option (Value α) := b.lookup name

def has (b : Bindings α) (name : String) : Bool := (b.get? name).isSome

def modify (b : Bindings α) (name : String) (f : Value α → Value α) : Bindings α :=
  b.map fun (n, v) => (n, if n = name then f v else v)

def insert (b : Bindings α) (name : String) (v : Value α) : Bindings α :=
  if b.has name then b.modify name fun _ => v else (name, v) :: b

def forgotten (b : Bindings α) : Bindings α := b.map fun (n, v) => (n, v.forgotten)

@[simp] theorem get?_nil (name : String) : get? ([] : Bindings α) name = none := rfl

theorem get?_cons (n : String) (v : Value α) (b : Bindings α) (name : String) :
    get? ((n, v) :: b) name = if name = n then some v else b.get? name := by
  by_cases h : name = n
  · simp [get?, h]
  · have : (name == n) = false := by simpa using h
    simp [get?, List.lookup_cons, this, h]

theorem get?_modify (b : Bindings α) (name : String) (f : Value α → Value α) (n : String) :
    (b.modify name f).get? n = if n = name then (b.get? n).map f else b.get? n := by
  induction b with
  | nil => simp [modify]
  | cons e b ih =>
    rw [show modify (e :: b) name f = (e.1, if e.1 = name then f e.2 else e.2) :: modify b name f
      from rfl, get?_cons, show e :: b = (e.1, e.2) :: b from rfl, get?_cons, ih]
    by_cases h : n = e.1
    · by_cases h' : e.1 = name <;> simp [h, h']
    · simp [h]

theorem get?_insert (b : Bindings α) (name : String) (v : Value α) (n : String) :
    (b.insert name v).get? n = if n = name then some v else b.get? n := by
  unfold insert
  split
  · next h =>
    rw [get?_modify]
    by_cases hn : n = name
    · obtain ⟨w, hw⟩ := Option.isSome_iff_exists.1 h
      simp [hn, hw]
    · simp [hn]
  · exact get?_cons name v b n

theorem get?_forgotten (b : Bindings α) (name : String) :
    b.forgotten.get? name = (b.get? name).map Value.forgotten := by
  induction b with
  | nil => rfl
  | cons e b ih =>
    rw [show forgotten (e :: b) = (e.1, e.2.forgotten) :: forgotten b from rfl, get?_cons,
      show e :: b = (e.1, e.2) :: b from rfl, get?_cons, ih]
    by_cases h : name = e.1 <;> simp [h]

end Bindings

/-- A function sees the globals only, a block all around it. -/
inductive Scope.Kind
  | function
  | block
deriving DecidableEq, Repr

structure Scope (α : Type) where
  kind : Scope.Kind
  bindings : Bindings α
deriving DecidableEq, Repr

inductive ScopeError
  | duplicate (name : String)
  | reserved (name : String)
  | undeclared (name : String)
deriving DecidableEq, Repr

def ScopeError.message : ScopeError → String
  | duplicate name => s!"'{name}' is already declared in this scope"
  | reserved name => s!"'{name}' is a reserved word"
  | undeclared name => s!"variable '{name}' is not declared"

/-- The open scopes; the last of them is the global one, which stays open. -/
structure ScopeStack (α : Type) where
  top : Scope α
  /-- The scopes around the innermost one, from the inside out. -/
  below : List (Scope α)
  /-- Words that cannot be declared. -/
  reserved : List String
deriving DecidableEq, Repr

namespace ScopeStack

variable {α : Type}

def empty (reserved : List String) : ScopeStack α := ⟨⟨.function, []⟩, [], reserved⟩

def depth (s : ScopeStack α) : Nat := s.below.length + 1

def isReserved (s : ScopeStack α) (name : String) : Bool := name ∈ s.reserved

def get? (s : ScopeStack α) (name : String) : Option (Value α) := s.top.bindings.get? name

def global (s : ScopeStack α) : Scope α := s.below.getLastD s.top

def push (s : ScopeStack α) (kind : Scope.Kind) : ScopeStack α :=
  let seen := match kind with
    | .function => s.global
    | .block => s.top
  { s with top := ⟨kind, seen.bindings.forgotten⟩, below := s.top :: s.below }

/-- Closes the innermost scope, unless it is the global one. -/
def pop (s : ScopeStack α) : ScopeStack α :=
  match s.below with
  | [] => s
  | scope :: below => { s with top := scope, below }

def popTimes (s : ScopeStack α) : Nat → ScopeStack α
  | 0 => s
  | n + 1 => s.pop.popTimes n

/-- Closes scopes down to a depth. -/
def truncate (s : ScopeStack α) (depth : Nat) : ScopeStack α := s.popTimes (s.depth - max depth 1)

def bind (s : ScopeStack α) (name : String) (v : Value α) : ScopeStack α :=
  { s with top := { s.top with bindings := s.top.bindings.insert name v } }

def bindForgotten (s : ScopeStack α) (bindings : Bindings α) : ScopeStack α :=
  bindings.foldl (fun s (name, v) => s.bind name v.forgotten) s

/-- Declares a name that is neither reserved nor visible. -/
def declare (s : ScopeStack α) (name : String) (v : Value α) : Except ScopeError (ScopeStack α) :=
  if s.isReserved name then .error (.reserved name)
  else if s.top.bindings.has name then .error (.duplicate name)
  else .ok (s.bind name v)

/-- Forgets a variable in a chain of blocks, up to and with the function around them. -/
def forgetOutward (name : String) : List (Scope α) → List (Scope α)
  | [] => []
  | scope :: rest =>
    { scope with bindings := scope.bindings.modify name Value.forgotten } ::
      match scope.kind with
      | .function => rest
      | .block => forgetOutward name rest

def assign (s : ScopeStack α) (name : String) (v : Value α) : Except ScopeError (ScopeStack α) :=
  if s.top.bindings.has name then
    .ok { s with
      top := { s.top with bindings := s.top.bindings.modify name fun _ => v }
      below := match s.top.kind with
        | .function => s.below
        | .block => forgetOutward name s.below }
  else .error (.undeclared name)

/-- Runs steps in a scope of their own and closes what they leave open. -/
def within (s : ScopeStack α) (kind : Scope.Kind) (steps : ScopeStack α → ScopeStack α) :
    ScopeStack α :=
  (steps (s.push kind)).truncate s.depth

theorem get?_bind (s : ScopeStack α) (name : String) (v : Value α) (n : String) :
    (s.bind name v).get? n = if n = name then some v else s.get? n :=
  Bindings.get?_insert s.top.bindings name v n

theorem get?_push_block (s : ScopeStack α) (name : String) :
    (s.push .block).get? name = (s.get? name).map Value.forgotten :=
  Bindings.get?_forgotten s.top.bindings name

end ScopeStack

end Metrology

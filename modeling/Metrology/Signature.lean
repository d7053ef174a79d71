import Metrology.Program

/-! The functions of a program by name, collected before any body is looked at. The first
declaration of a name counts, and exactly one function is the entry point. -/
namespace Metrology

structure Signature where
  name : String
  params : List (String × TypeRef)
  /-- What the function returns, if anything. -/
  returns : Option TypeRef
  /-- The declaration it was taken from. -/
  decl : Node
  isEntry : Bool
deriving DecidableEq, Repr

namespace Signature

def ofDecl (f : FunctionDecl) : Signature :=
  ⟨f.name, f.params.map fun p => (p.name, p.type), f.returns, f.node, f.isEntry⟩

def arity (s : Signature) : Nat := s.params.length

end Signature

inductive EntryError
  | duplicate (first second : String) (span : Span)
  | missing
deriving DecidableEq, Repr

namespace EntryError

def span? : EntryError → Option Span
  | duplicate _ _ span => some span
  | missing => none

def message : EntryError → String
  | duplicate first second _ =>
    s!"function '{second}' is tagged as entry point, but '{first}' already is"
  | missing => "program has no entry point"

end EntryError

structure Signatures where
  /-- One for each name, in order of declaration. -/
  all : List Signature
  /-- The name of the function tagged as entry point. -/
  entry : Option String
deriving DecidableEq, Repr

namespace Signatures

def empty : Signatures := ⟨[], none⟩

def lookup (t : Signatures) (name : String) : Option Signature := t.all.find? (·.name = name)

/-- Keeps a signature unless its name is taken. -/
def keep (t : Signatures) (s : Signature) : Signatures :=
  if (t.lookup s.name).isSome then t else { t with all := t.all ++ [s] }

theorem lookup_keep (t : Signatures) (s : Signature) (name : String) :
    (t.keep s).lookup name =
      (t.lookup name).or (if s.name = name then some s else none) := by
  unfold keep
  split
  · next h =>
    by_cases hn : s.name = name
    · obtain ⟨w, hw⟩ := Option.isSome_iff_exists.1 h
      simp [← hn, hw]
    · simp [hn]
  · by_cases hn : s.name = name <;> simp [lookup, List.find?_append, hn]

def add (t : Signatures) (f : FunctionDecl) : Except EntryError Signatures :=
  match f.isEntry, t.entry with
  | true, some first => .error (.duplicate first f.name f.node.span)
  | true, none => .ok ({ t with entry := some f.name }.keep (.ofDecl f))
  | false, _ => .ok (t.keep (.ofDecl f))

def collect (p : Program) : Except EntryError Signatures := do
  let t ← p.functions.foldlM add empty
  if t.entry.isNone then throw .missing
  return t

/-- Whether a declaration is the one kept for its name. -/
def owns (t : Signatures) (f : FunctionDecl) : Bool := (t.lookup f.name).any (·.decl.id = f.id)

def entryPoint (t : Signatures) : Option Signature := t.entry.bind t.lookup

end Signatures

end Metrology

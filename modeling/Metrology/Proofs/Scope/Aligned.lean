import Metrology.Proofs.Scope.Alongside

/-! Two stacks of scopes that statements cannot tell apart. The scopes that the statements open, and the one that
they start in, bind the same names to the same values; further out the stacks may differ in any way that does not
show, as long as a function finds the same names with the same shapes in the global scopes. -/
namespace Metrology

variable {α : Type}

namespace Bindings

/-- The same names are bound to the same values, in whatever order. -/
def Same (b b' : Bindings α) : Prop := ∀ name, b'.get? name = b.get? name

/-- The same names are bound to values that differ at most in what is known of them. -/
def Resembles (b b' : Bindings α) : Prop :=
  ∀ name, (b'.get? name).map Value.forgotten = (b.get? name).map Value.forgotten

theorem Resembles.refl (b : Bindings α) : b.Resembles b := fun _ => rfl

theorem Resembles.forgotten {b b' : Bindings α} (h : b.Resembles b') : b.forgotten.Same b'.forgotten := by
  intro name
  rw [get?_forgotten, get?_forgotten, h]

namespace Same

variable {b b' : Bindings α} (h : b.Same b')

include h

theorem resembles : b.Resembles b' := fun name => by rw [h name]

theorem has_eq (name : String) : b'.has name = b.has name := by rw [has, h name, has]

theorem insert (name : String) (v : Value α) : (b.insert name v).Same (b'.insert name v) := by
  intro n
  rw [get?_insert, get?_insert, h]

theorem modify (name : String) (f : Value α → Value α) : (b.modify name f).Same (b'.modify name f) := by
  intro n
  rw [get?_modify, get?_modify, h]

end Same

end Bindings

/-- What lies around the scopes that are alike, given the kind of the outermost of these. -/
structure Footing (α : Type) where
  Around : Scope.Kind → List (Scope α) → List (Scope α) → Prop
  depth : Nat
  depth' : Nat
  lengths : ∀ {kind rest rest'}, Around kind rest rest' → rest.length = depth ∧ rest'.length = depth'
  /-- An assignment in a block reaches outward. -/
  forget : ∀ {rest rest'}, Around .block rest rest' → ∀ name,
    Around .block (ScopeStack.forgetOutward name rest) (ScopeStack.forgetOutward name rest')
  global : ∀ {kind rest rest'}, Around kind rest rest' →
    ∃ g g', rest.getLast? = some g ∧ rest'.getLast? = some g' ∧ g.bindings.Resembles g'.bindings

namespace Footing

theorem length_forgetOutward (name : String) (scopes : List (Scope α)) :
    (ScopeStack.forgetOutward name scopes).length = scopes.length := by
  induction scopes with
  | nil => rfl
  | cons scope rest ih =>
    rw [ScopeStack.forgetOutward]
    cases scope.kind with
    | function => rfl
    | block => exact congrArg (· + 1) ih

/-- Around a function may be anything, since no assignment reaches beyond it. -/
def aroundFunction (s t : ScopeStack α) (h : s.global.bindings.Resembles t.global.bindings) : Footing α where
  Around kind rest rest' := kind = .function ∧ rest = s.top :: s.below ∧ rest' = t.top :: t.below
  depth := s.depth
  depth' := t.depth
  lengths := by
    rintro _ _ _ ⟨_, rfl, rfl⟩
    exact ⟨rfl, rfl⟩
  forget := by
    rintro _ _ ⟨⟨⟩, _⟩
  global := by
    rintro _ _ _ ⟨_, rfl, rfl⟩
    exact ⟨s.global, t.global, s.getLast?_eq_global, t.getLast?_eq_global, h⟩

def oneBlockMore (depth : Nat) : Footing α where
  Around kind rest rest' := kind = .block ∧ rest.length = depth + 1 ∧
    ∃ scope : Scope α, scope.kind = .block ∧ rest' = scope :: rest
  depth := depth + 1
  depth' := depth + 2
  lengths := by
    rintro _ _ _ ⟨_, hlength, scope, _, rfl⟩
    exact ⟨hlength, congrArg (· + 1) hlength⟩
  forget := by
    rintro rest _ ⟨_, hlength, scope, hkind, rfl⟩ name
    rw [ScopeStack.forgetOutward, hkind]
    exact ⟨rfl, (length_forgetOutward name rest).trans hlength, _, rfl, rfl⟩
  global := by
    rintro _ rest _ ⟨_, hlength, scope, _, rfl⟩
    have hne : rest ≠ [] := List.ne_nil_of_length_eq_add_one hlength
    refine ⟨rest.getLast hne, rest.getLast hne, List.getLast?_eq_some_getLast hne, ?_, .refl _⟩
    rw [List.getLast?_cons_of_ne_nil hne, List.getLast?_eq_some_getLast hne]

/-- Scopes that are alike up to a footing. The number counts the blocks inside the outermost of them. -/
inductive Aligned (F : Footing α) : Nat → List (Scope α) → List (Scope α) → Prop
  | base {scope scope' : Scope α} {rest rest' : List (Scope α)} (kind : scope'.kind = scope.kind)
      (values : scope.bindings.Same scope'.bindings) (around : F.Around scope.kind rest rest') :
      Aligned F 0 (scope :: rest) (scope' :: rest')
  | block {n : Nat} {scope scope' : Scope α} {rest rest' : List (Scope α)} (kind : scope.kind = .block)
      (kind' : scope'.kind = .block) (values : scope.bindings.Same scope'.bindings)
      (inside : Aligned F n rest rest') : Aligned F (n + 1) (scope :: rest) (scope' :: rest')

namespace Aligned

variable {F : Footing α} {n : Nat} {scopes scopes' rest rest' : List (Scope α)} {scope scope' : Scope α}

theorem innermost (h : Aligned F n (scope :: rest) (scope' :: rest')) :
    scope'.kind = scope.kind ∧ scope.bindings.Same scope'.bindings := by
  cases h with
  | base kind values _ => exact ⟨kind, values⟩
  | block kind kind' values _ => exact ⟨kind'.trans kind.symm, values⟩

theorem rebind (h : Aligned F n (scope :: rest) (scope' :: rest')) {b b' : Bindings α} (hb : b.Same b') :
    Aligned F n ({ scope with bindings := b } :: rest) ({ scope' with bindings := b' } :: rest') := by
  cases h with
  | base kind _ around => exact .base kind hb around
  | block kind kind' _ inside => exact .block kind kind' hb inside

theorem length_eq (h : Aligned F n scopes scopes') :
    scopes.length = F.depth + n + 1 ∧ scopes'.length = F.depth' + n + 1 := by
  induction h with
  | base _ _ around => exact ⟨congrArg (· + 1) (F.lengths around).1, congrArg (· + 1) (F.lengths around).2⟩
  | block _ _ _ _ ih => exact ⟨congrArg (· + 1) ih.1, congrArg (· + 1) ih.2⟩

theorem global (h : Aligned F n scopes scopes') :
    ∃ g g', scopes.getLast? = some g ∧ scopes'.getLast? = some g' ∧ g.bindings.Resembles g'.bindings := by
  have past {scope g : Scope α} {rest : List (Scope α)} (hrest : rest.getLast? = some g) :
      (scope :: rest).getLast? = some g := by
    rw [List.getLast?_cons, hrest]
    rfl
  induction h with
  | base _ _ around =>
    obtain ⟨g, g', hg, hg', hsame⟩ := F.global around
    exact ⟨g, g', past hg, past hg', hsame⟩
  | block _ _ _ _ ih =>
    obtain ⟨g, g', hg, hg', hsame⟩ := ih
    exact ⟨g, g', past hg, past hg', hsame⟩

theorem forgetOutward (h : Aligned F n scopes scopes') (name : String) :
    Aligned F n (ScopeStack.forgetOutward name scopes) (ScopeStack.forgetOutward name scopes') := by
  induction h with
  | @base scope scope' rest rest' kind values around =>
    obtain ⟨k, b⟩ := scope
    obtain ⟨k', b'⟩ := scope'
    obtain rfl : k' = k := kind
    cases k' with
    | function => exact .base rfl (values.modify name _) around
    | block => exact .base rfl (values.modify name _) (F.forget around name)
  | @block n scope scope' rest rest' kind kind' values inside ih =>
    rw [ScopeStack.forgetOutward, ScopeStack.forgetOutward, kind, kind']
    exact .block rfl rfl (values.modify name _) ih

end Aligned

end Footing

namespace ScopeStack

/-- Stacks that statements cannot tell apart while they stay on a footing. -/
structure Aligned (F : Footing α) (n : Nat) (s t : ScopeStack α) : Prop where
  reserved : t.reserved = s.reserved
  scopes : F.Aligned n (s.top :: s.below) (t.top :: t.below)

/-- What functions can see is the same as soon as the global scopes have the same names and shapes. -/
theorem aligned_push_function {s t : ScopeStack α} (reserved : t.reserved = s.reserved)
    (h : s.global.bindings.Resembles t.global.bindings) :
    Aligned (.aroundFunction s t h) 0 (s.push .function) (t.push .function) :=
  ⟨reserved, .base rfl h.forgotten ⟨rfl, rfl, rfl⟩⟩

/-- Two blocks in one another show the same as one. -/
theorem aligned_push_blocks (s : ScopeStack α) :
    Aligned (.oneBlockMore s.below.length) 0 (s.push .block) ((s.push .block).push .block) := by
  refine ⟨rfl, .base rfl (fun name => ?_) ⟨rfl, rfl, _, rfl, rfl⟩⟩
  change ((s.push .block).push .block).get? name = (s.push .block).get? name
  rw [get?_push_block, get?_push_block, Option.map_map]
  exact congrArg (Option.map · _) (funext Value.forgotten_forgotten)

/-- In blocks, a variable that is not known is seen as it is. -/
theorem get?_push_blocks {s : ScopeStack α} {name : String} (h : ¬ s.Knows name) :
    ((s.push .block).push .block).get? name = s.get? name := by
  rw [get?_push_block, get?_push_block]
  cases hv : s.get? name with
  | none => rfl
  | some v =>
    cases v with
    | measurement q =>
      obtain ⟨unit, value⟩ := q
      cases value with
      | none => rfl
      | some x => exact absurd ⟨_, hv, rfl⟩ h
    | _ => rfl

theorem global_push_block (s : ScopeStack α) : (s.push .block).global = s.global := by
  simp [push, global, List.getLastD_eq_getLast?, List.getLast?_cons]

namespace Aligned

variable {F : Footing α} {n : Nat} {s t : ScopeStack α}

theorem get?_eq (h : Aligned F n s t) (name : String) : t.get? name = s.get? name := h.scopes.innermost.2 name

theorem global (h : Aligned F n s t) : s.global.bindings.Resembles t.global.bindings := by
  obtain ⟨g, g', hg, hg', hsame⟩ := h.scopes.global
  rw [getLast?_eq_global, Option.some.injEq] at hg hg'
  rwa [hg, hg']

theorem push_block (h : Aligned F n s t) : Aligned F (n + 1) (s.push .block) (t.push .block) :=
  ⟨h.reserved, .block rfl rfl h.scopes.innermost.2.resembles.forgotten h.scopes⟩

theorem truncate (h : Aligned F (n + 1) s t) {u v : ScopeStack α} (huv : Aligned F n u v) :
    Aligned F n (s.truncate u.depth) (t.truncate v.depth) := by
  obtain ⟨hs, ht⟩ := h.scopes.length_eq
  obtain ⟨hu, hv⟩ := huv.scopes.length_eq
  rw [truncate_of_depth (hs.trans (congrArg (· + 1) hu).symm),
    truncate_of_depth (ht.trans (congrArg (· + 1) hv).symm)]
  obtain ⟨top, below, reserved⟩ := s
  obtain ⟨top', below', reserved'⟩ := t
  cases h.scopes with
  | block _ _ _ inside =>
    cases inside with
    | base kind values around => exact ⟨h.reserved, .base kind values around⟩
    | block kind kind' values inside => exact ⟨h.reserved, .block kind kind' values inside⟩

/-- Once the blocks are closed, nothing is left of the one more. -/
theorem close_blocks {u : ScopeStack α} (h : Aligned (.oneBlockMore u.below.length) 0 s t) :
    (t.truncate (u.push .block).depth).truncate u.depth = s.truncate u.depth := by
  obtain ⟨top, below, reserved⟩ := s
  obtain ⟨top', below', reserved'⟩ := t
  obtain rfl : reserved' = reserved := h.reserved
  cases h.scopes with
  | base _ _ around =>
    obtain ⟨_, hlength, scope, _, rfl⟩ := around
    obtain ⟨outer, rest, rfl⟩ := List.exists_cons_of_length_eq_add_one hlength
    have hrest : rest.length = u.below.length := Nat.succ.inj hlength
    have hinner : (⟨top, outer :: rest, reserved'⟩ : ScopeStack α).depth = u.depth + 1 :=
      congrArg (· + 2) hrest
    have hbetween : (⟨scope, outer :: rest, reserved'⟩ : ScopeStack α).depth = u.depth + 1 :=
      congrArg (· + 2) hrest
    have houter : (⟨top', scope :: outer :: rest, reserved'⟩ : ScopeStack α).depth = (u.push .block).depth + 1 :=
      congrArg (· + 3) hrest
    rw [truncate_of_depth houter, truncate_of_depth hinner]
    exact truncate_of_depth hbetween

theorem bind (h : Aligned F n s t) (name : String) (v : Value α) : Aligned F n (s.bind name v) (t.bind name v) :=
  ⟨h.reserved, h.scopes.rebind (h.scopes.innermost.2.insert name v)⟩

theorem bindForgotten (h : Aligned F n s t) (bindings : Bindings α) :
    Aligned F n (s.bindForgotten bindings) (t.bindForgotten bindings) := by
  induction bindings generalizing s t with
  | nil => exact h
  | cons b bindings ih => exact ih (h.bind b.1 b.2.forgotten)

theorem declare (h : Aligned F n s t) (name : String) (v : Value α) :
    (∃ e, s.declare name v = .error e ∧ t.declare name v = .error e) ∨
      ∃ s' t', s.declare name v = .ok s' ∧ t.declare name v = .ok t' ∧ Aligned F n s' t' := by
  unfold ScopeStack.declare
  rw [isReserved, isReserved, h.reserved, h.scopes.innermost.2.has_eq]
  split
  · exact Or.inl ⟨_, rfl, rfl⟩
  · split
    · exact Or.inl ⟨_, rfl, rfl⟩
    · exact Or.inr ⟨_, _, rfl, rfl, h.bind name v⟩

theorem assign (h : Aligned F n s t) (name : String) (v : Value α) :
    (∃ e, s.assign name v = .error e ∧ t.assign name v = .error e) ∨
      ∃ s' t', s.assign name v = .ok s' ∧ t.assign name v = .ok t' ∧ Aligned F n s' t' := by
  unfold ScopeStack.assign
  rw [h.scopes.innermost.2.has_eq]
  split
  · refine Or.inr ⟨_, _, rfl, rfl, h.reserved, ?_⟩
    have hvalues := h.scopes.innermost.2.modify name fun _ => v
    obtain ⟨⟨k, b⟩, below, reserved⟩ := s
    obtain ⟨⟨k', b'⟩, below', reserved'⟩ := t
    cases h.scopes with
    | base kind _ around =>
      obtain rfl : k' = k := kind
      cases k' with
      | function => exact .base rfl hvalues around
      | block => exact .base rfl hvalues (F.forget around name)
    | block kind kind' _ inside =>
      obtain rfl : k = .block := kind
      obtain rfl : k' = .block := kind'
      exact .block rfl rfl hvalues (inside.forgetOutward name)
  · exact Or.inl ⟨_, rfl, rfl⟩

end Aligned

end ScopeStack

end Metrology

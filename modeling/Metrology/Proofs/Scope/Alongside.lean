import Metrology.Proofs.Scope

/-! The same statements run in two stacks of scopes. What they see and change lies inside the function
around them, so the stacks stay the same there, whatever is further out. -/
namespace Metrology

variable {α : Type}

def Bindings.Holds (P : Value α → Prop) (b : Bindings α) : Prop := ∀ name v, b.get? name = some v → P v

namespace Bindings.Holds

variable {P : Value α → Prop} {b : Bindings α}

theorem insert (h : b.Holds P) (name : String) {v : Value α} (hv : P v) : (b.insert name v).Holds P := by
  intro n w hw
  rw [get?_insert] at hw
  split_ifs at hw
  · cases hw
    exact hv
  · exact h n w hw

theorem modify (h : b.Holds P) (name : String) {f : Value α → Value α} (hf : ∀ v, P v → P (f v)) :
    (b.modify name f).Holds P := by
  intro n w hw
  rw [get?_modify] at hw
  split_ifs at hw
  · obtain ⟨v, hv, rfl⟩ := Option.map_eq_some_iff.1 hw
    exact hf v (h n v hv)
  · exact h n w hw

theorem forgotten (h : b.Holds P) (hP : ∀ v, P v → P v.forgotten) : b.forgotten.Holds P := by
  intro n w hw
  rw [get?_forgotten] at hw
  obtain ⟨v, hv, rfl⟩ := Option.map_eq_some_iff.1 hw
  exact hP v (h n v hv)

end Bindings.Holds

/-- Scopes that are the same up to and with the function around, given what is further out in each of the
stacks. The number counts the blocks inside the function. -/
inductive Alongside (P : Value α → Prop) (outer outer' : List (Scope α)) :
    Nat → List (Scope α) → List (Scope α) → Prop
  | function {scope : Scope α} (kind : scope.kind = .function) (values : scope.bindings.Holds P) :
      Alongside P outer outer' 0 (scope :: outer) (scope :: outer')
  | block {n : Nat} {scope : Scope α} {rest rest' : List (Scope α)} (kind : scope.kind = .block)
      (values : scope.bindings.Holds P) (inside : Alongside P outer outer' n rest rest') :
      Alongside P outer outer' (n + 1) (scope :: rest) (scope :: rest')

namespace Alongside

variable {P : Value α → Prop} {outer outer' : List (Scope α)} {n : Nat} {scopes scopes' : List (Scope α)}

theorem innermost {scope scope' : Scope α} {rest rest' : List (Scope α)}
    (h : Alongside P outer outer' n (scope :: rest) (scope' :: rest')) :
    scope' = scope ∧ scope.bindings.Holds P ∧
      ((n = 0 ∧ scope.kind = .function ∧ rest = outer ∧ rest' = outer') ∨
        ∃ m, n = m + 1 ∧ scope.kind = .block ∧ Alongside P outer outer' m rest rest') := by
  cases h with
  | function kind values => exact ⟨rfl, values, Or.inl ⟨rfl, kind, rfl, rfl⟩⟩
  | block kind values inside => exact ⟨rfl, values, Or.inr ⟨_, rfl, kind, inside⟩⟩

theorem rebind {scope scope' : Scope α} {rest rest' : List (Scope α)}
    (h : Alongside P outer outer' n (scope :: rest) (scope' :: rest')) {b : Bindings α} (hb : b.Holds P) :
    Alongside P outer outer' n ({ scope with bindings := b } :: rest)
      ({ scope' with bindings := b } :: rest') := by
  cases h with
  | function kind _ => exact .function kind hb
  | block kind _ inside => exact .block kind hb inside

theorem length_eq (h : Alongside P outer outer' n scopes scopes') :
    scopes.length = outer.length + n + 1 ∧ scopes'.length = outer'.length + n + 1 := by
  induction h with
  | function => exact ⟨rfl, rfl⟩
  | block _ _ _ ih => exact ⟨congrArg (· + 1) ih.1, congrArg (· + 1) ih.2⟩

theorem getLast?_eq (h : Alongside P outer outer' n scopes scopes') :
    (outer ≠ [] → scopes.getLast? = outer.getLast?) ∧
      (outer' ≠ [] → scopes'.getLast? = outer'.getLast?) := by
  have past {scope : Scope α} {rest : List (Scope α)} (hrest : rest ≠ []) :
      (scope :: rest).getLast? = rest.getLast? := by
    rw [List.getLast?_cons_of_ne_nil hrest]
  induction h with
  | function => exact ⟨past, past⟩
  | @block n scope rest rest' _ _ inside ih =>
    have hne : rest ≠ [] ∧ rest' ≠ [] := by
      obtain ⟨hlen, hlen'⟩ := inside.length_eq
      constructor <;> rintro rfl <;> simp at hlen hlen'
    exact ⟨fun h => (past hne.1).trans (ih.1 h), fun h => (past hne.2).trans (ih.2 h)⟩

theorem forgetOutward (hP : ∀ v, P v → P v.forgotten) (h : Alongside P outer outer' n scopes scopes')
    (name : String) : Alongside P outer outer' n (ScopeStack.forgetOutward name scopes)
      (ScopeStack.forgetOutward name scopes') := by
  induction h with
  | @function scope kind values =>
    simp only [ScopeStack.forgetOutward, kind]
    exact .function rfl (values.modify name hP)
  | @block n scope rest rest' kind values inside ih =>
    simp only [ScopeStack.forgetOutward, kind]
    exact .block rfl (values.modify name hP) ih

end Alongside

namespace ScopeStack

/-- Stacks that statements inside one function cannot tell apart. -/
structure Beside (P : Value α → Prop) (words : List String) (outer outer' : List (Scope α)) (n : Nat)
    (s t : ScopeStack α) : Prop where
  reserved : s.reserved = words ∧ t.reserved = words
  scopes : Alongside P outer outer' n (s.top :: s.below) (t.top :: t.below)

theorem getLast?_eq_global (s : ScopeStack α) : (s.top :: s.below).getLast? = some s.global := by
  simp [global, List.getLast?_cons]

theorem bindForgotten_eq_foldl (s : ScopeStack α) (bindings : Bindings α) :
    s.bindForgotten bindings = bindings.forgotten.foldl (fun s b => s.bind b.1 b.2) s := by
  rw [Bindings.forgotten, List.foldl_map]
  rfl

/-- Stacks with the same outermost scope look the same to a function. -/
theorem beside_push_function {P : Value α → Prop} (hP : ∀ v, P v → P v.forgotten) {words : List String}
    {s t : ScopeStack α} (reserved : s.reserved = words ∧ t.reserved = words) (global : t.global = s.global)
    (values : s.global.bindings.Holds P) :
    Beside P words (s.top :: s.below) (t.top :: t.below) 0 (s.push .function) (t.push .function) where
  reserved := reserved
  scopes := by
    simp only [push, global]
    exact .function rfl (values.forgotten hP)

namespace Beside

variable {P : Value α → Prop} {words : List String} {outer outer' : List (Scope α)} {n : Nat}
  {s t : ScopeStack α}

theorem top_eq (h : Beside P words outer outer' n s t) : t.top = s.top := h.scopes.innermost.1

theorem get?_eq (h : Beside P words outer outer' n s t) (name : String) : t.get? name = s.get? name := by
  rw [get?, h.top_eq]
  rfl

theorem holds (h : Beside P words outer outer' n s t) : s.top.bindings.Holds P := h.scopes.innermost.2.1

theorem global_eq (h : Beside P words outer outer' n s t) {scope : Scope α}
    (houter : outer.getLast? = some scope) (houter' : outer'.getLast? = some scope) :
    s.global = scope ∧ t.global = scope := by
  obtain ⟨hs, ht⟩ := h.scopes.getLast?_eq
  rw [getLast?_eq_global, houter] at hs
  rw [getLast?_eq_global, houter'] at ht
  exact ⟨Option.some.inj (hs fun e => by simp [e] at houter),
    Option.some.inj (ht fun e => by simp [e] at houter')⟩

theorem outermost (h : Beside P words [] [] 0 s t) : t.global = s.global ∧ s.global.bindings.Holds P := by
  obtain ⟨htop, hholds, ⟨_, _, hbelow, hbelow'⟩ | ⟨_, hn, _⟩⟩ := h.scopes.innermost
  · rw [global, global, hbelow, hbelow']
    exact ⟨htop, hholds⟩
  · cases hn

theorem push_block (hP : ∀ v, P v → P v.forgotten) (h : Beside P words outer outer' n s t) :
    Beside P words outer outer' (n + 1) (s.push .block) (t.push .block) where
  reserved := h.reserved
  scopes := by
    simp only [push, h.top_eq]
    exact .block rfl (h.holds.forgotten hP) (h.top_eq ▸ h.scopes)

theorem truncate (h : Beside P words outer outer' (n + 1) s t) {u v : ScopeStack α}
    (huv : Beside P words outer outer' n u v) :
    Beside P words outer outer' n (s.truncate u.depth) (t.truncate v.depth) := by
  obtain ⟨hs, ht⟩ := h.scopes.length_eq
  obtain ⟨hu, hv⟩ := huv.scopes.length_eq
  rw [truncate_of_depth (hs.trans (congrArg (· + 1) hu).symm),
    truncate_of_depth (ht.trans (congrArg (· + 1) hv).symm)]
  obtain ⟨top, below, reserved⟩ := s
  obtain ⟨top', below', reserved'⟩ := t
  obtain ⟨_, _, ⟨hn, _⟩ | ⟨m, hn, _, inside⟩⟩ := h.scopes.innermost
  · cases hn
  · cases hn
    cases inside with
    | function kind values => exact ⟨h.reserved, .function kind values⟩
    | block kind values inside => exact ⟨h.reserved, .block kind values inside⟩

theorem bind (h : Beside P words outer outer' n s t) (name : String) {v : Value α} (hv : P v) :
    Beside P words outer outer' n (s.bind name v) (t.bind name v) where
  reserved := h.reserved
  scopes := by
    have hbound := h.scopes.rebind (h.holds.insert name hv)
    simp only [ScopeStack.bind, h.top_eq] at hbound ⊢
    exact hbound

theorem bindForgotten (hP : ∀ v, P v → P v.forgotten) (h : Beside P words outer outer' n s t)
    {bindings : Bindings α} (hb : ∀ b ∈ bindings, P b.2) :
    Beside P words outer outer' n (s.bindForgotten bindings) (t.bindForgotten bindings) := by
  induction bindings generalizing s t with
  | nil => exact h
  | cons b bindings ih =>
    have hbound := h.bind b.1 (hP b.2 (hb b List.mem_cons_self))
    exact ih hbound fun b' hb' => hb b' (List.mem_cons_of_mem b hb')

theorem declare (h : Beside P words outer outer' n s t) (name : String) {v : Value α} (hv : P v) :
    (∃ e, s.declare name v = .error e ∧ t.declare name v = .error e) ∨
      ∃ s' t', s.declare name v = .ok s' ∧ t.declare name v = .ok t' ∧ Beside P words outer outer' n s' t' := by
  unfold ScopeStack.declare
  rw [isReserved, isReserved, h.reserved.1, h.reserved.2, h.top_eq]
  split
  · exact Or.inl ⟨_, rfl, rfl⟩
  · split
    · exact Or.inl ⟨_, rfl, rfl⟩
    · exact Or.inr ⟨_, _, rfl, rfl, h.bind name hv⟩

theorem assign (hP : ∀ v, P v → P v.forgotten) (h : Beside P words outer outer' n s t) (name : String)
    {v : Value α} (hv : P v) :
    (∃ e, s.assign name v = .error e ∧ t.assign name v = .error e) ∨
      ∃ s' t', s.assign name v = .ok s' ∧ t.assign name v = .ok t' ∧ Beside P words outer outer' n s' t' := by
  unfold ScopeStack.assign
  rw [h.top_eq]
  split
  · refine Or.inr ⟨_, _, rfl, rfl, h.reserved, ?_⟩
    have hvalues := h.holds.modify name (f := fun _ => v) fun _ _ => hv
    obtain ⟨_, _, ⟨rfl, hkind, hbelow, hbelow'⟩ | ⟨m, rfl, hkind, inside⟩⟩ := h.scopes.innermost
    · simp only [hkind, hbelow, hbelow']
      exact .function rfl hvalues
    · simp only [hkind]
      exact .block rfl hvalues (inside.forgetOutward hP name)
  · exact Or.inl ⟨_, rfl, rfl⟩

end Beside

end ScopeStack

end Metrology

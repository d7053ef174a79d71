import Metrology.Scope

/-! The values that scopes hold, visible or not. -/
namespace Metrology

variable {α : Type}

namespace Bindings

def values (b : Bindings α) : List (Value α) := b.map (·.2)

variable {P : Value α → Prop} {b : Bindings α}

theorem values_get? (h : ∀ v ∈ b.values, P v) {name : String} {v : Value α} (hv : b.get? name = some v) :
    P v := by
  induction b with
  | nil => cases hv
  | cons e b ih =>
    rw [values, List.map_cons, List.forall_mem_cons] at h
    rw [show e :: b = (e.1, e.2) :: b from rfl, get?_cons] at hv
    split at hv
    · cases hv
      exact h.1
    · exact ih h.2 hv

theorem values_modify (h : ∀ v ∈ b.values, P v) (name : String) {f : Value α → Value α}
    (hf : ∀ v, P v → P (f v)) : ∀ v ∈ (b.modify name f).values, P v := by
  simp only [values, modify, List.forall_mem_map] at h ⊢
  intro e he
  split
  · exact hf e.2 (h e he)
  · exact h e he

theorem values_insert (h : ∀ v ∈ b.values, P v) (name : String) {v : Value α} (hv : P v) :
    ∀ w ∈ (b.insert name v).values, P w := by
  unfold insert
  split
  · exact values_modify h name fun _ _ => hv
  · exact List.forall_mem_cons.2 ⟨hv, h⟩

theorem values_forgotten (h : ∀ v ∈ b.values, P v) (hP : ∀ v, P v → P v.forgotten) :
    ∀ v ∈ b.forgotten.values, P v := by
  simp only [values, forgotten, List.forall_mem_map] at h ⊢
  exact fun e he => hP e.2 (h e he)

end Bindings

namespace ScopeStack

def values (s : ScopeStack α) : List (Value α) := (s.top :: s.below).flatMap (·.bindings.values)

variable {P : Value α → Prop} {s t : ScopeStack α}

theorem forall_mem_values : (∀ v ∈ s.values, P v) ↔
    (∀ v ∈ s.top.bindings.values, P v) ∧ ∀ scope ∈ s.below, ∀ v ∈ scope.bindings.values, P v := by
  simp only [values, List.forall_mem_flatMap, List.forall_mem_cons]

theorem values_get? (h : ∀ v ∈ s.values, P v) {name : String} {v : Value α} (hv : s.get? name = some v) : P v :=
  Bindings.values_get? (forall_mem_values.1 h).1 hv

theorem values_push (h : ∀ v ∈ s.values, P v) (hP : ∀ v, P v → P v.forgotten) (kind : Scope.Kind) :
    ∀ v ∈ (s.push kind).values, P v := by
  have hall : ∀ scope ∈ s.top :: s.below, ∀ v ∈ scope.bindings.values, P v :=
    List.forall_mem_flatMap.1 h
  have hglobal : s.global ∈ s.top :: s.below := by
    rw [global, List.getLastD_eq_getLast?]
    cases hlast : s.below.getLast? with
    | none => exact List.mem_cons_self
    | some scope => exact List.mem_cons_of_mem _ (List.mem_of_getLast? hlast)
  refine forall_mem_values.2 ⟨?_, hall⟩
  cases kind with
  | function => exact Bindings.values_forgotten (hall _ hglobal) hP
  | block => exact Bindings.values_forgotten (hall _ List.mem_cons_self) hP

theorem values_pop (h : ∀ v ∈ s.values, P v) : ∀ v ∈ s.pop.values, P v := by
  unfold pop
  split
  · exact h
  · next scope below hbelow =>
    have hrest := (forall_mem_values.1 h).2
    rw [hbelow, List.forall_mem_cons] at hrest
    exact forall_mem_values.2 hrest

theorem values_popTimes (h : ∀ v ∈ s.values, P v) (n : Nat) : ∀ v ∈ (s.popTimes n).values, P v := by
  induction n generalizing s with
  | zero => exact h
  | succ n ih => exact ih (values_pop h)

theorem values_truncate (h : ∀ v ∈ s.values, P v) (depth : Nat) : ∀ v ∈ (s.truncate depth).values, P v :=
  values_popTimes h _

theorem values_bind (h : ∀ v ∈ s.values, P v) (name : String) {v : Value α} (hv : P v) :
    ∀ w ∈ (s.bind name v).values, P w := by
  obtain ⟨htop, hbelow⟩ := forall_mem_values.1 h
  exact forall_mem_values.2 ⟨Bindings.values_insert htop name hv, hbelow⟩

theorem values_bindForgotten (h : ∀ v ∈ s.values, P v) (hP : ∀ v, P v → P v.forgotten) {b : Bindings α}
    (hb : ∀ v ∈ b.values, P v) : ∀ v ∈ (s.bindForgotten b).values, P v := by
  induction b generalizing s with
  | nil => exact h
  | cons e b ih =>
    rw [Bindings.values, List.map_cons, List.forall_mem_cons] at hb
    exact ih (values_bind h e.1 (hP e.2 hb.1)) hb.2

theorem values_declare (h : ∀ v ∈ s.values, P v) {name : String} {v : Value α} (hv : P v)
    (ht : s.declare name v = .ok t) : ∀ w ∈ t.values, P w := by
  unfold declare at ht
  split at ht
  · cases ht
  · split at ht
    · cases ht
    · cases ht
      exact values_bind h name hv

theorem values_forgetOutward {scopes : List (Scope α)} (hP : ∀ v, P v → P v.forgotten) (name : String)
    (h : ∀ scope ∈ scopes, ∀ v ∈ scope.bindings.values, P v) :
    ∀ scope ∈ forgetOutward name scopes, ∀ v ∈ scope.bindings.values, P v := by
  induction scopes with
  | nil => exact h
  | cons scope rest ih =>
    rw [List.forall_mem_cons] at h
    refine List.forall_mem_cons.2 ⟨Bindings.values_modify h.1 name hP, ?_⟩
    split
    · exact h.2
    · exact ih h.2

theorem values_assign (h : ∀ v ∈ s.values, P v) (hP : ∀ v, P v → P v.forgotten) {name : String} {v : Value α}
    (hv : P v) (ht : s.assign name v = .ok t) : ∀ w ∈ t.values, P w := by
  obtain ⟨htop, hbelow⟩ := forall_mem_values.1 h
  unfold assign at ht
  split at ht
  · cases ht
    refine forall_mem_values.2 ⟨Bindings.values_modify htop name fun _ _ => hv, ?_⟩
    dsimp only
    split
    · exact hbelow
    · exact values_forgetOutward hP name hbelow
  · cases ht

end ScopeStack

end Metrology

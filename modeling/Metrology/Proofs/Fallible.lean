/-! Computations that may fail. What can be said of one that succeeds is read off its parts. -/
namespace Metrology.Fallible

variable {ε β γ : Type}

theorem bind_eq_ok {x : Except ε β} {f : β → Except ε γ} {r : γ} :
    x >>= f = .ok r ↔ ∃ b, x = .ok b ∧ f b = .ok r := by
  cases x with
  | error e =>
    constructor
    · intro h
      cases h
    · rintro ⟨b, h, _⟩
      cases h
  | ok b =>
    constructor
    · intro h
      exact ⟨b, rfl, h⟩
    · rintro ⟨b', h, h'⟩
      cases h
      exact h'

theorem bind_eq_error {x : Except ε β} {f : β → Except ε γ} {e : ε} :
    x >>= f = .error e ↔ x = .error e ∨ ∃ b, x = .ok b ∧ f b = .error e := by
  cases x <;> simp [bind, Except.bind]

theorem toOption_eq_some {x : Except ε β} {b : β} : x.toOption = some b ↔ x = .ok b := by
  cases x <;> simp [Except.toOption]

theorem foldlM_cons_eq_ok {f : β → γ → Except ε β} {x : γ} {xs : List γ} {b r : β} :
    (x :: xs).foldlM f b = .ok r ↔ ∃ b₁, f b x = .ok b₁ ∧ xs.foldlM f b₁ = .ok r := by
  rw [List.foldlM_cons, bind_eq_ok]

theorem mapM_id_eq_ok {xs : List (Except ε β)} {ys : List β} :
    xs.mapM id = .ok ys ↔ xs = ys.map .ok := by
  induction xs generalizing ys with
  | nil => cases ys <;> simp [pure, Except.pure]
  | cons x xs ih =>
    rw [List.mapM_cons, bind_eq_ok]
    simp only [bind_eq_ok, ih]
    constructor
    · rintro ⟨y, rfl, ys', rfl, hys⟩
      cases hys
      rfl
    · intro h
      cases ys with
      | nil => cases h
      | cons y ys =>
        obtain ⟨rfl, rfl⟩ := List.cons.inj h
        exact ⟨y, rfl, ys, rfl, rfl⟩

/-- What every successful step keeps, a successful run keeps. -/
theorem foldlM_keeps {f : β → γ → Except ε β} {P : β → Prop} {xs : List γ}
    (step : ∀ x ∈ xs, ∀ b b', f b x = .ok b' → P b → P b') {b b' : β}
    (h : xs.foldlM f b = .ok b') (hb : P b) : P b' := by
  induction xs generalizing b with
  | nil =>
    cases h
    exact hb
  | cons x xs ih =>
    obtain ⟨b₁, h₁, h₂⟩ := foldlM_cons_eq_ok.1 h
    have hb₁ := step x List.mem_cons_self b b₁ h₁ hb
    exact ih (fun y hy => step y (List.mem_cons_of_mem x hy)) h₂ hb₁

/-- Where every step succeeds from what the steps keep, a run succeeds and keeps it. -/
theorem exists_foldlM_eq_ok {f : β → γ → Except ε β} {P : β → Prop} {xs : List γ}
    (step : ∀ x ∈ xs, ∀ b, P b → ∃ b', f b x = .ok b' ∧ P b') {b : β} (hb : P b) :
    ∃ b', xs.foldlM f b = .ok b' ∧ P b' := by
  induction xs generalizing b with
  | nil => exact ⟨b, rfl, hb⟩
  | cons x xs ih =>
    obtain ⟨b₁, h₁, hb₁⟩ := step x List.mem_cons_self b hb
    obtain ⟨b', h', hb'⟩ := ih (fun y hy => step y (List.mem_cons_of_mem x hy)) hb₁
    exact ⟨b', foldlM_cons_eq_ok.2 ⟨b₁, h₁, h'⟩, hb'⟩

theorem foldlM_error {f : β → γ → Except ε β} {P : ε → Prop} (step : ∀ b x e, f b x = .error e → P e)
    {xs : List γ} {b : β} {e : ε} (h : xs.foldlM f b = .error e) : P e := by
  induction xs generalizing b with
  | nil => cases h
  | cons x xs ih =>
    rw [List.foldlM_cons] at h
    rcases bind_eq_error.1 h with h | ⟨b', _, h⟩
    · exact step b x e h
    · exact ih h

theorem mapM_error {f : γ → Except ε β} {P : ε → Prop} (step : ∀ x e, f x = .error e → P e) {xs : List γ}
    {e : ε} (h : xs.mapM f = .error e) : P e := by
  induction xs with
  | nil => cases h
  | cons x xs ih =>
    rw [List.mapM_cons] at h
    rcases bind_eq_error.1 h with h | ⟨y, _, h⟩
    · exact step x e h
    · rcases bind_eq_error.1 h with h | ⟨ys, _, h⟩
      · exact ih h
      · cases h

theorem exists_mapM_eq_ok {f : γ → Except ε β} {xs : List γ} (h : ∀ x ∈ xs, ∃ y, f x = .ok y) :
    ∃ ys, xs.mapM f = .ok ys := by
  induction xs with
  | nil => exact ⟨[], rfl⟩
  | cons x xs ih =>
    obtain ⟨y, hy⟩ := h x List.mem_cons_self
    obtain ⟨ys, hys⟩ := ih fun z hz => h z (List.mem_cons_of_mem x hz)
    refine ⟨y :: ys, ?_⟩
    rw [List.mapM_cons, hy, hys]
    rfl

theorem mem_of_lookup_eq_some [BEq β] [LawfulBEq β] {xs : List (β × γ)} {key : β} {value : γ}
    (h : xs.lookup key = some value) : (key, value) ∈ xs := by
  obtain ⟨before, after, rfl, _⟩ := List.lookup_eq_some_iff.1 h
  simp

end Metrology.Fallible

import Metrology.Proofs.Fallible
import Metrology.Signature

/-! Where the signatures of a program come from. -/
namespace Metrology

namespace Signatures

variable {t : Signatures} {p : Program}

theorem mem_keep {signature kept : Signature} (h : kept ∈ (t.keep signature).all) :
    kept ∈ t.all ∨ kept = signature := by
  unfold keep at h
  split at h
  · exact Or.inl h
  · simpa using h

theorem mem_add {u : Signatures} {f : FunctionDecl} {kept : Signature} (h : t.add f = .ok u)
    (hk : kept ∈ u.all) : kept ∈ t.all ∨ kept = .ofDecl f := by
  unfold add at h
  split at h
  · cases h
  all_goals
    cases h
    rcases mem_keep hk with hk | hk
    · exact Or.inl hk
    · exact Or.inr hk

theorem name_of_lookup {name : String} {signature : Signature} (h : t.lookup name = some signature) :
    signature.name = name := by
  have hname := List.find?_some h
  rwa [decide_eq_true_eq] at hname

theorem foldlM_of_collect (h : collect p = .ok t) : p.functions.foldlM add empty = .ok t := by
  obtain ⟨u, hu, ht⟩ := Fallible.bind_eq_ok.1 h
  split at ht
  · cases ht
  · cases ht
    exact hu

theorem declared_of_lookup (h : collect p = .ok t) {name : String} {signature : Signature}
    (hl : t.lookup name = some signature) :
    ∃ f ∈ p.functions, t.owns f = true ∧ signature = .ofDecl f := by
  have declared : ∀ kept ∈ t.all, ∃ f ∈ p.functions, kept = .ofDecl f := by
    refine Fallible.foldlM_keeps (P := fun u => ∀ kept ∈ u.all, ∃ f ∈ p.functions, kept = .ofDecl f)
      ?_ (foldlM_of_collect h) (by simp [empty])
    intro f hf v w hadd hv kept hk
    rcases mem_add hadd hk with hk | rfl
    · exact hv kept hk
    · exact ⟨f, hf, rfl⟩
  obtain ⟨f, hf, rfl⟩ := declared signature (List.mem_of_find?_eq_some hl)
  refine ⟨f, hf, ?_, rfl⟩
  rw [owns, show f.name = name from name_of_lookup hl, hl]
  simp [Signature.ofDecl, FunctionDecl.id]

theorem lookup_of_owns {f : FunctionDecl} (h : t.owns f = true) :
    ∃ signature, t.lookup f.name = some signature ∧ signature.decl.id = f.id := by
  unfold owns at h
  cases hlookup : t.lookup f.name with
  | none =>
    rw [hlookup] at h
    cases h
  | some signature =>
    rw [hlookup] at h
    exact ⟨signature, rfl, of_decide_eq_true h⟩

theorem lookup_add {u : Signatures} {f : FunctionDecl} (h : t.add f = .ok u) (name : String) :
    u.lookup name = (t.lookup name).or (if f.name = name then some (.ofDecl f) else none) := by
  unfold add at h
  split at h
  · cases h
  all_goals
    cases h
    exact lookup_keep _ (.ofDecl f) name

theorem lookup_foldlM {fs : List FunctionDecl} {u : Signatures} (h : fs.foldlM add t = .ok u)
    (name : String) :
    u.lookup name = (t.lookup name).or ((fs.find? (·.name = name)).map .ofDecl) := by
  induction fs generalizing t with
  | nil =>
    cases h
    simp
  | cons f fs ih =>
    obtain ⟨v, hv, hrest⟩ := Fallible.foldlM_cons_eq_ok.1 h
    rw [ih hrest, lookup_add hv]
    by_cases hname : f.name = name <;> simp [hname]

/-- The first declaration of a name counts. -/
theorem lookup_collect (h : collect p = .ok t) (name : String) :
    t.lookup name = (p.functions.find? (·.name = name)).map .ofDecl := by
  rw [lookup_foldlM (foldlM_of_collect h)]
  rfl

section Clash

variable {before after : List FunctionDecl} {f : FunctionDecl}

theorem lookup_of_first (h : collect p = .ok t) (hsplit : p.functions = before ++ f :: after)
    (hfirst : ∀ g ∈ before, g.name ≠ f.name) : t.lookup f.name = some (.ofDecl f) := by
  have hnone : before.find? (·.name = f.name) = none := by
    rw [List.find?_eq_none]
    intro g hg
    simpa using hfirst g hg
  rw [lookup_collect h, hsplit, List.find?_append, hnone]
  simp

theorem lookup_of_clash (h : collect p = .ok t) (hsplit : p.functions = before ++ f :: after)
    (hclash : ∃ g ∈ before, g.name = f.name) :
    ∃ first, before.find? (·.name = f.name) = some first ∧ t.lookup f.name = some (.ofDecl first) := by
  obtain ⟨g, hg, hname⟩ := hclash
  obtain ⟨first, hfirst⟩ : ∃ first, before.find? (·.name = f.name) = some first :=
    Option.isSome_iff_exists.1 (List.find?_isSome.2 ⟨g, hg, by simpa using hname⟩)
  refine ⟨first, hfirst, ?_⟩
  rw [lookup_collect h, hsplit, List.find?_append, hfirst]
  rfl

end Clash

theorem entry_keep (t : Signatures) (signature : Signature) : (t.keep signature).entry = t.entry := by
  unfold keep
  split <;> rfl

theorem entry_add {u : Signatures} {f : FunctionDecl} (h : t.add f = .ok u) :
    (t.entry.isSome = true → f.isEntry = false) ∧
      u.entry = t.entry.or (if f.isEntry then some f.name else none) := by
  unfold add at h
  split at h
  · cases h
  · next hf ht =>
    cases h
    rw [entry_keep, hf, ht]
    exact ⟨nofun, rfl⟩
  · next hf =>
    cases h
    rw [entry_keep, hf]
    exact ⟨fun _ => rfl, Option.or_none.symm⟩

theorem isSome_entry_add {u : Signatures} {f : FunctionDecl} (h : t.add f = .ok u) :
    u.entry.isSome = (t.entry.isSome || f.isEntry) := by
  rw [(entry_add h).2, Option.isSome_or]
  cases f.isEntry <;> rfl

theorem entry_foldlM {fs : List FunctionDecl} {u : Signatures} (h : fs.foldlM add t = .ok u) :
    (t.entry.isSome = true → ∀ f ∈ fs, f.isEntry = false) ∧
      ∀ f ∈ fs, ∀ g ∈ fs, f.isEntry = true → g.isEntry = true → f = g := by
  induction fs generalizing t with
  | nil => exact ⟨fun _ => nofun, nofun⟩
  | cons x fs ih =>
    obtain ⟨v, hv, hrest⟩ := Fallible.foldlM_cons_eq_ok.1 h
    have hx := (entry_add hv).1
    have hentry := isSome_entry_add hv
    obtain ⟨hnone, hunique⟩ := ih hrest
    constructor
    · intro ht
      rw [ht, Bool.true_or] at hentry
      exact List.forall_mem_cons.2 ⟨hx ht, hnone hentry⟩
    · -- after the entry point comes no other one
      have hfirst (f : FunctionDecl) (hf : f ∈ fs) (hfe : f.isEntry = true) : x.isEntry = false := by
        rw [← Bool.not_eq_true]
        intro hxe
        rw [hxe, Bool.or_true] at hentry
        rw [hnone hentry f hf] at hfe
        cases hfe
      intro f hf g hg hfe hge
      rcases List.mem_cons.1 hf with hf' | hf' <;> rcases List.mem_cons.1 hg with hg' | hg'
      · rw [hf', hg']
      · rw [hf', hfirst g hg' hge] at hfe
        cases hfe
      · rw [hg', hfirst f hf' hfe] at hge
        cases hge
      · exact hunique f hf' g hg' hfe hge

theorem entry_unique (h : collect p = .ok t) {f g : FunctionDecl} (hf : f ∈ p.functions)
    (hg : g ∈ p.functions) (hfe : f.isEntry = true) (hge : g.isEntry = true) : f = g :=
  (entry_foldlM (foldlM_of_collect h)).2 f hf g hg hfe hge

/-- What is remembered is the name of the first tagged declaration. -/
theorem entry_foldlM_eq {fs : List FunctionDecl} {u : Signatures} (h : fs.foldlM add t = .ok u) :
    u.entry = t.entry.or ((fs.find? (·.isEntry)).map (·.name)) := by
  induction fs generalizing t with
  | nil =>
    cases h
    simp
  | cons f fs ih =>
    obtain ⟨v, hv, hrest⟩ := Fallible.foldlM_cons_eq_ok.1 h
    rw [ih hrest, (entry_add hv).2]
    cases hf : f.isEntry <;> simp [hf]

theorem entry_collect (h : collect p = .ok t) {f : FunctionDecl} (hf : f ∈ p.functions)
    (hentry : f.isEntry = true) : t.entry = some f.name := by
  obtain ⟨g, hg⟩ : ∃ g, p.functions.find? (·.isEntry) = some g :=
    Option.isSome_iff_exists.1 (List.find?_isSome.2 ⟨f, hf, hentry⟩)
  have hsame : g = f :=
    entry_unique h (List.mem_of_find?_eq_some hg) hf (List.find?_some hg) hentry
  rw [entry_foldlM_eq (foldlM_of_collect h), hg, hsame]
  rfl

theorem isSome_entry_foldlM {fs : List FunctionDecl} {u : Signatures} (h : fs.foldlM add t = .ok u) :
    u.entry.isSome = (t.entry.isSome || fs.any (·.isEntry)) := by
  rw [entry_foldlM_eq h, Option.isSome_or, Option.isSome_map, List.isSome_find?]

theorem exists_entry (h : collect p = .ok t) : ∃ f ∈ p.functions, f.isEntry = true := by
  obtain ⟨u, hu, ht⟩ := Fallible.bind_eq_ok.1 h
  have hentry := isSome_entry_foldlM hu
  split at ht
  · cases ht
  · next hsome =>
    rw [Option.isSome_iff_ne_none.2 (by simpa using hsome)] at hentry
    exact List.any_eq_true.1 hentry.symm

/-- Declarations are accepted as long as at most one of them is tagged as the entry point. -/
theorem foldlM_add_ok (fs : List FunctionDecl) (t : Signatures) (honce : fs.countP (·.isEntry) ≤ 1)
    (hfirst : t.entry.isSome = true → fs.countP (·.isEntry) = 0) : ∃ u, fs.foldlM add t = .ok u := by
  induction fs generalizing t with
  | nil => exact ⟨t, rfl⟩
  | cons f fs ih =>
    have added : ∃ v, t.add f = .ok v := by
      cases hf : f.isEntry with
      | false => exact ⟨t.keep (.ofDecl f), by simp [add, hf]⟩
      | true =>
        cases ht : t.entry with
        | none => exact ⟨{ t with entry := some f.name }.keep (.ofDecl f), by simp [add, hf, ht]⟩
        | some first => simp [ht, hf] at hfirst
    obtain ⟨v, hv⟩ := added
    rw [List.countP_cons] at honce hfirst
    have hrest : v.entry.isSome = true → fs.countP (·.isEntry) = 0 := by
      rw [isSome_entry_add hv, Bool.or_eq_true]
      rintro (ht | hf)
      · have := hfirst ht
        omega
      · rw [if_pos hf] at honce
        omega
    obtain ⟨u, hu⟩ := ih v (by omega) hrest
    exact ⟨u, Fallible.foldlM_cons_eq_ok.2 ⟨v, hv, hu⟩⟩

theorem collect_of_entry (h : p.functions.countP (·.isEntry) = 1) : ∃ t, collect p = .ok t := by
  obtain ⟨t, ht⟩ := foldlM_add_ok p.functions empty (by omega) nofun
  have hpos : 0 < p.functions.countP (·.isEntry) := by omega
  have hentry : t.entry.isSome = true := by
    rw [isSome_entry_foldlM ht, List.any_eq_true.2 (List.countP_pos_iff.1 hpos), Bool.or_true]
  refine ⟨t, Fallible.bind_eq_ok.2 ⟨t, ht, ?_⟩⟩
  rw [if_neg (by simpa [Option.isSome_iff_ne_none] using hentry)]
  rfl

/-! ### Programs that cannot be run -/

theorem foldlM_add_of_entry {fs : List FunctionDecl} {first : String} {e : EntryError}
    (ht : t.entry = some first) : fs.foldlM add t = .error e ↔
      ∃ g rest, fs.filter (·.isEntry) = g :: rest ∧ e = .duplicate first g.name g.node.span := by
  induction fs generalizing t with
  | nil => exact ⟨nofun, by rintro ⟨_, _, ⟨⟩, _⟩⟩
  | cons f fs ih =>
    rw [List.foldlM_cons]
    cases hf : f.isEntry with
    | true =>
      have hadd : t.add f = .error (.duplicate first f.name f.node.span) := by simp [add, hf, ht]
      rw [hadd, List.filter_cons_of_pos hf]
      constructor
      · rintro ⟨⟩
        exact ⟨f, _, rfl, rfl⟩
      · rintro ⟨g, rest, ⟨⟩, rfl⟩
        rfl
    | false =>
      have hadd : t.add f = .ok (t.keep (.ofDecl f)) := by simp [add, hf]
      rw [hadd, List.filter_cons_of_neg (by simp [hf])]
      exact ih ((entry_keep t _).trans ht)

theorem foldlM_add_of_no_entry {fs : List FunctionDecl} {e : EntryError} (ht : t.entry = none) :
    fs.foldlM add t = .error e ↔
      ∃ f g rest, fs.filter (·.isEntry) = f :: g :: rest ∧ e = .duplicate f.name g.name g.node.span := by
  induction fs generalizing t with
  | nil => exact ⟨nofun, by rintro ⟨_, _, _, ⟨⟩, _⟩⟩
  | cons f fs ih =>
    rw [List.foldlM_cons]
    cases hf : f.isEntry with
    | true =>
      have hadd : t.add f = .ok ({ t with entry := some f.name }.keep (.ofDecl f)) := by
        simp [add, hf, ht]
      rw [hadd, List.filter_cons_of_pos hf]
      refine (foldlM_add_of_entry (entry_keep _ _)).trans ?_
      constructor
      · rintro ⟨g, rest, htagged, rfl⟩
        exact ⟨f, g, rest, congrArg (f :: ·) htagged, rfl⟩
      · rintro ⟨f', g, rest, htagged, rfl⟩
        obtain ⟨rfl, hrest⟩ := List.cons.inj htagged
        exact ⟨g, rest, hrest, rfl⟩
    | false =>
      have hadd : t.add f = .ok (t.keep (.ofDecl f)) := by simp [add, hf]
      rw [hadd, List.filter_cons_of_neg (by simp [hf])]
      exact ih ((entry_keep t _).trans ht)

/-- There is no entry point exactly if nothing is tagged. -/
theorem collect_eq_missing_iff : collect p = .error .missing ↔ ∀ f ∈ p.functions, f.isEntry = false := by
  constructor
  · intro h
    rcases Fallible.bind_eq_error.1 h with hadd | ⟨t, hadd, ht⟩
    · obtain ⟨_, _, _, _, he⟩ := (foldlM_add_of_no_entry rfl).1 hadd
      cases he
    · split at ht
      · next hnone =>
        have hany := isSome_entry_foldlM hadd
        rw [Option.isNone_iff_eq_none.1 hnone] at hany
        simpa [empty] using hany.symm
      · cases ht
  · intro h
    have hcount : p.functions.countP (·.isEntry) = 0 := List.countP_eq_zero.2 (by simpa using h)
    obtain ⟨t, ht⟩ := foldlM_add_ok p.functions empty (by omega) fun _ => hcount
    have hnone : t.entry.isSome = false := by
      rw [isSome_entry_foldlM ht]
      simpa [empty] using h
    refine Fallible.bind_eq_error.2 (.inr ⟨t, ht, ?_⟩)
    rw [if_pos (by simpa using hnone)]
    rfl

/-- There are too many exactly if two declarations are tagged; the first two are named. -/
theorem collect_eq_duplicate_iff {first second : String} {span : Span} :
    collect p = .error (.duplicate first second span) ↔ ∃ f g rest,
      p.functions.filter (·.isEntry) = f :: g :: rest ∧
        first = f.name ∧ second = g.name ∧ span = g.node.span := by
  have hadd : collect p = .error (.duplicate first second span) ↔
      p.functions.foldlM add empty = .error (.duplicate first second span) := by
    rw [collect, Fallible.bind_eq_error]
    refine or_iff_left ?_
    rintro ⟨t, _, ht⟩
    split at ht <;> cases ht
  rw [hadd, foldlM_add_of_no_entry rfl]
  simp only [EntryError.duplicate.injEq]

/-- Where declarations are told apart, the first one of each name counts, and no other. -/
theorem owns_iff_first (h : collect p = .ok t) (hids : (p.functions.map (·.id)).Nodup)
    {before after : List FunctionDecl} {f : FunctionDecl} (hsplit : p.functions = before ++ f :: after) :
    t.owns f = true ↔ ∀ g ∈ before, g.name ≠ f.name := by
  constructor
  · intro howned g hg hname
    obtain ⟨first, hfirst, hlookup⟩ := lookup_of_clash h hsplit ⟨g, hg, hname⟩
    have hmem := List.mem_of_find?_eq_some hfirst
    rw [owns, hlookup] at howned
    rw [hsplit, List.map_append, List.map_cons, List.nodup_append] at hids
    exact hids.2.2 first.id (List.mem_map_of_mem hmem) f.id List.mem_cons_self (of_decide_eq_true howned)
  · intro hfirst
    simp [owns, lookup_of_first h hsplit hfirst, Signature.ofDecl, FunctionDecl.id]

end Signatures

end Metrology

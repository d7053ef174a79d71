import Metrology.Proofs.Catalog.Rules

/-! Dimensions by their exponents. Base units own the slots of a dimension in the order of their declarations; so
two units have one dimension exactly if every base unit goes into both of them equally often, up to what an
exponent can hold. -/
namespace Metrology

namespace Dimension

variable {ε : Type} [Exponent ε]

def tabulate (arity : Nat) (exponents : Nat → Int) : Dimension ε :=
  ⟨(List.range arity).map fun k => Exponent.ofInt (exponents k)⟩

variable (arity : Nat) (f g : Nat → Int)

theorem none_eq_tabulate : (none arity : Dimension ε) = tabulate arity fun _ => 0 := by
  simp [none, tabulate, Exponent.ofInt_zero]

theorem base_eq_tabulate (slot : Nat) :
    (base arity slot : Dimension ε) = tabulate arity fun k => if k = slot then 1 else 0 := by
  refine congrArg mk (List.ext_getElem (by simp) fun k _ _ => ?_)
  rw [List.getElem_set, List.getElem_replicate, List.getElem_map, List.getElem_range]
  by_cases hk : slot = k
  · simp [hk, Exponent.ofInt_one]
  · simp [hk, Ne.symm hk, Exponent.ofInt_zero]

theorem mul_tabulate :
    (tabulate arity f).mul (tabulate arity g) = (tabulate arity fun k => f k + g k : Dimension ε) := by
  simp [mul, tabulate, List.zipWith_map, List.zipWith_self, Exponent.ofInt_add]

theorem pow_tabulate (n : Int) :
    (tabulate arity f).pow n = (tabulate arity fun k => f k * n : Dimension ε) := by
  simp [pow, tabulate, Exponent.ofInt_mul]

variable {arity f g}

theorem tabulate_inj : (tabulate arity f : Dimension ε) = tabulate arity g ↔
    ∀ k < arity, (Exponent.ofInt (f k) : ε) = Exponent.ofInt (g k) := by
  simp [tabulate, List.map_inj_left]

theorem tabulate_congr (h : ∀ k, f k = g k) : (tabulate arity f : Dimension ε) = tabulate arity g := by
  rw [funext h]

end Dimension

namespace Description

variable {α : Type}

theorem exponent_eq_zero {base : String} {decls : List (UnitDecl α)} (h : ∀ u ∈ decls, u.name ≠ base)
    (word : String) : exponent base decls word = 0 := by
  induction decls generalizing word with
  | nil => rfl
  | cons u decls ih =>
    have hrest (word : String) : exponent base decls word = 0 :=
      ih (fun v hv => h v (List.mem_cons_of_mem u hv)) word
    rw [exponent]
    by_cases hclaims : u.Claims word
    · rw [if_pos hclaims]
      cases u.definition with
      | base => exact if_neg (h u List.mem_cons_self)
      | scaled parent _ _ => exact hrest parent
      | compound terms => simp [hrest]
    · rw [if_neg hclaims, hrest]

/-- The exponent that the unit of a word has in a slot, where base units own the slots in order. -/
def slotExponent (decls : List (UnitDecl α)) (word : String) (slot : Nat) : Int :=
  ((decls.filter (·.isBase))[slot]?).elim 0 fun b => exponent b.name decls.reverse word

variable {decls : List (UnitDecl α)} {u : UnitDecl α} {word : String}

theorem named_append : Named (decls ++ [u]) word ↔ Named decls word ∨ u.Claims word := by
  simp [Named, or_and_right, exists_or]

theorem NamedUnscaled.named (h : NamedUnscaled decls word) : Named decls word := by
  obtain ⟨u, hu, hclaims, _⟩ := h
  exact ⟨u, hu, hclaims⟩

theorem name_ne_of_fresh (fresh : ¬ Named decls u.name) {v : UnitDecl α} (hv : v ∈ decls) : v.name ≠ u.name :=
  fun hname => fresh ⟨v, hv, .inl hname⟩

theorem slotExponent_of_not_claims (fresh : ¬ Named decls u.name) (h : ¬ u.Claims word) (slot : Nat) :
    slotExponent (decls ++ [u]) word slot = slotExponent decls word slot := by
  have hsame (base : String) : exponent base (decls ++ [u]).reverse word = exponent base decls.reverse word := by
    simp [exponent, h]
  have hnew : exponent u.name decls.reverse word = 0 :=
    exponent_eq_zero (fun v hv => name_ne_of_fresh fresh (List.mem_reverse.1 hv)) word
  simp only [slotExponent, hsame, List.filter_append]
  cases hbase : u.isBase with
  | false => simp [hbase]
  | true =>
    rw [List.filter_singleton, hbase]
    rcases Nat.lt_trichotomy slot (decls.filter (·.isBase)).length with hslot | rfl | hslot
    · rw [List.getElem?_append_left hslot]
    · simp [hnew]
    · rw [List.getElem?_append_right (Nat.le_of_lt hslot), List.getElem?_eq_none (Nat.le_of_lt hslot),
        List.getElem?_eq_none (Nat.sub_pos_of_lt hslot)]

theorem slotExponent_base (fresh : ¬ Named decls u.name) (hdef : u.definition = .base) (h : u.Claims word)
    (slot : Nat) : slotExponent (decls ++ [u]) word slot =
      if slot = (decls.filter (·.isBase)).length then 1 else 0 := by
  have hexponent (base : String) :
      exponent base (decls ++ [u]).reverse word = if u.name = base then 1 else 0 := by
    simp [exponent, h, hdef]
  have hbase : u.isBase = true := by simp [UnitDecl.isBase, hdef]
  simp only [slotExponent, hexponent, List.filter_append]
  rw [List.filter_singleton, hbase]
  rcases Nat.lt_trichotomy slot (decls.filter (·.isBase)).length with hslot | rfl | hslot
  · have hmem := List.getElem_mem hslot
    have hne := name_ne_of_fresh fresh (List.mem_filter.1 hmem).1
    rw [List.getElem?_append_left hslot, List.getElem?_eq_getElem hslot, if_neg (Nat.ne_of_lt hslot)]
    exact if_neg hne.symm
  · simp
  · rw [List.getElem?_append_right (Nat.le_of_lt hslot), List.getElem?_eq_none (Nat.sub_pos_of_lt hslot),
      if_neg (Nat.ne_of_gt hslot)]
    rfl

theorem slotExponent_scaled {parent : String} {factor : α} {direction : Direction}
    (hdef : u.definition = .scaled parent factor direction) (h : u.Claims word) (slot : Nat) :
    slotExponent (decls ++ [u]) word slot = slotExponent decls parent slot := by
  have hbase : u.isBase = false := by simp [UnitDecl.isBase, hdef]
  simp [slotExponent, exponent, h, hdef, hbase]

theorem slotExponent_compound {terms : List Term} (hdef : u.definition = .compound terms) (h : u.Claims word)
    (slot : Nat) : slotExponent (decls ++ [u]) word slot =
      (terms.map fun t => slotExponent decls t.unit slot * t.exponent.toInt).sum := by
  have hbase : u.isBase = false := by simp [UnitDecl.isBase, hdef]
  cases hslot : (decls.filter (·.isBase))[slot]? <;> simp [slotExponent, exponent, h, hdef, hbase, hslot]

/-- Where every slot is owned, units of one dimension have the same exponents in all slots. -/
theorem sameDimension_iff {word' : String} : SameDimension decls word word' ↔
    ∀ slot < (decls.filter (·.isBase)).length,
      Int32.ofInt (slotExponent decls word slot) = Int32.ofInt (slotExponent decls word' slot) := by
  constructor
  · intro h slot hslot
    have hmem := List.mem_filter.1 (List.getElem_mem hslot)
    simp only [slotExponent, List.getElem?_eq_getElem hslot, Option.elim_some]
    exact h _ hmem.1 hmem.2
  · intro h b hb hbase
    obtain ⟨slot, hslot, hget⟩ := List.getElem_of_mem (List.mem_filter.2 ⟨hb, hbase⟩)
    have hsame := h slot hslot
    simpa only [slotExponent, List.getElem?_eq_getElem hslot, Option.elim_some, hget] using hsame

end Description

end Metrology

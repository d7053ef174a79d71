import Metrology.Proofs.Catalog.Slots
import Metrology.Proofs.Catalog.Words

/-! Rendered dimensions can be read back. The marks of a rendered dimension divide it into its products, these
into their terms, and a term into symbol and exponent; so where base symbols are apart and hold no such mark, no
two dimensions look the same, and the units that arithmetic makes go by names of their own. -/
namespace Metrology

namespace Dimension

/-- Base symbols that dimensions are told apart by. An empty one would do no harm. -/
structure Legible (symbols : List String) : Prop where
  nodup : symbols.Nodup
  /-- A product without terms is written so. -/
  one_notMem : "1" ∉ symbols
  plain : ∀ symbol ∈ symbols, ∀ c ∈ symbol.toList, isOperator c = false

instance (symbols : List String) : Decidable (Legible symbols) :=
  decidable_of_iff (symbols.Nodup ∧ "1" ∉ symbols ∧
      symbols.all fun symbol => symbol.toList.all fun c => !isOperator c)
    ⟨fun ⟨hnodup, hone, hplain⟩ => ⟨hnodup, hone, by simpa using hplain⟩,
      fun h => ⟨h.nodup, h.one_notMem, by simpa using h.plain⟩⟩

theorem Legible.tail {symbol : String} {symbols : List String} (h : Legible (symbol :: symbols)) :
    Legible symbols where
  nodup := (List.nodup_cons.1 h.nodup).2
  one_notMem hm := h.one_notMem (List.mem_cons_of_mem symbol hm)
  plain s hs := h.plain s (List.mem_cons_of_mem symbol hs)

theorem Legible.notMem {symbols : List String} (h : Legible symbols) {symbol : String} (hs : symbol ∈ symbols)
    {mark : Char} (hmark : isOperator mark = true) : mark ∉ symbol.toList := by
  intro hm
  have hplain := h.plain symbol hs mark hm
  simp [hmark] at hplain

section Marks

theorem intercalate_injective {sep : String} {mark : Char} (hsep : sep.toList = [mark]) {xs ys : List String}
    (hx : xs ≠ []) (hy : ys ≠ []) (hxs : ∀ x ∈ xs, mark ∉ x.toList) (hys : ∀ y ∈ ys, mark ∉ y.toList)
    (h : sep.intercalate xs = sep.intercalate ys) : xs = ys := by
  have split {zs : List String} (hz : zs ≠ []) (hzs : ∀ z ∈ zs, mark ∉ z.toList) :
      (sep.intercalate zs).toList.splitOn mark = zs.map String.toList := by
    rw [String.toList_intercalate, hsep]
    apply List.splitOn_intercalate
    · simpa using hzs
    · simpa using hz
  have hpieces : xs.map String.toList = ys.map String.toList := by rw [← split hx hxs, h, split hy hys]
  exact (List.map_inj_right fun _ _ => String.toList_injective).1 hpieces

theorem mem_of_mem_intercalate {terms : List String} {c : Char} (hc : c ∈ ("*".intercalate terms).toList) :
    c = '*' ∨ ∃ term ∈ terms, c ∈ term.toList := by
  induction terms with
  | nil => simp at hc
  | cons first rest ih =>
    cases rest with
    | nil => exact Or.inr ⟨first, List.mem_singleton_self first, by simpa using hc⟩
    | cons second rest =>
      rw [String.intercalate_cons_cons, String.toList_append, String.toList_append] at hc
      rcases List.mem_append.1 hc with hc | hc
      · rcases List.mem_append.1 hc with hc | hc
        · exact Or.inr ⟨first, List.mem_cons_self, hc⟩
        · exact Or.inl (by simpa using hc)
      · rcases ih hc with hc | ⟨term, hterm, hc⟩
        · exact Or.inl hc
        · exact Or.inr ⟨term, List.mem_cons_of_mem first hterm, hc⟩

end Marks

section Terms

variable {symbol symbol' : String} {m n : Int}

theorem notMem_term {mark : Char} (hcaret : mark ≠ '^') (hminus : mark ≠ '-') (hdigit : mark.isDigit = false)
    (hs : mark ∉ symbol.toList) : mark ∉ (term symbol n).toList := by
  rw [toList_term symbol n]
  intro hm
  rcases List.mem_append.1 hm with hm | hm
  · exact hs hm
  · split_ifs at hm
    · cases hm
    · rcases List.mem_cons.1 hm with hm | hm
      · exact hcaret hm
      · rcases List.mem_append.1 hm with hm | hm
        · unfold minus at hm
          split_ifs at hm
          · exact hminus (List.mem_singleton.1 hm)
          · cases hm
        · simp [Nat.isDigit_of_mem_toDigits (by omega) (by omega) hm] at hdigit

theorem takeWhile_term (hs : '^' ∉ symbol.toList) :
    (term symbol n).toList.takeWhile (· ≠ '^') = symbol.toList := by
  rw [toList_term symbol n, List.takeWhile_append_of_pos]
  · split_ifs <;> simp
  · intro c hc
    simp only [ne_eq, decide_not, Bool.not_eq_true', decide_eq_false_iff_not]
    rintro rfl
    exact hs hc

theorem symbol_eq_of_term_eq (hs : '^' ∉ symbol.toList) (hs' : '^' ∉ symbol'.toList)
    (h : term symbol m = term symbol' n) : symbol = symbol' := by
  apply String.toList_injective
  rw [← takeWhile_term hs, h, takeWhile_term hs']

end Terms

variable {ε : Type} {symbols : List String}

section Products

def product (shown : ε → Option Int) (symbols : List String) (l : List ε) : List String :=
  (symbols.zip l).filterMap fun p => (shown p.2).map (term p.1)

variable {shown : ε → Option Int} {l m : List ε}

theorem exists_of_mem_product {t : String} (ht : t ∈ product shown symbols l) :
    ∃ symbol ∈ symbols, ∃ n, t = term symbol n := by
  obtain ⟨⟨symbol, n⟩, hpair, hterm⟩ := List.mem_filterMap.1 ht
  obtain ⟨k, _, rfl⟩ := Option.map_eq_some_iff.1 hterm
  exact ⟨symbol, (List.of_mem_zip hpair).1, k, rfl⟩

theorem Legible.notMem_of_mem_product (h : Legible symbols) {t : String} (ht : t ∈ product shown symbols l)
    {mark : Char} (hmark : mark = '*' ∨ mark = '/') : mark ∉ t.toList := by
  obtain ⟨symbol, hs, n, rfl⟩ := exists_of_mem_product ht
  rcases hmark with rfl | rfl
  · exact notMem_term (by decide) (by decide) (by decide) (h.notMem hs (by decide))
  · exact notMem_term (by decide) (by decide) (by decide) (h.notMem hs (by decide))

/-- No term is mistaken for a product without terms. -/
theorem Legible.one_notMem_product (h : Legible symbols) : "1" ∉ product shown symbols l := by
  intro ht
  obtain ⟨symbol, hs, n, hone⟩ := exists_of_mem_product ht
  have hsymbol : "1".toList = symbol.toList := by
    rw [← takeWhile_term (h.notMem hs (by decide)), ← hone]
    decide
  exact h.one_notMem (String.toList_injective hsymbol ▸ hs)

/-- The terms of a product tell which slots are shown, and as what. -/
theorem Legible.product_injective (h : Legible symbols) (hl : l.length = symbols.length)
    (hm : m.length = symbols.length) (heq : product shown symbols l = product shown symbols m) :
    l.map shown = m.map shown := by
  induction symbols generalizing l m with
  | nil => rw [List.eq_nil_of_length_eq_zero hl, List.eq_nil_of_length_eq_zero hm]
  | cons symbol symbols ih =>
    obtain ⟨a, l, rfl⟩ := List.exists_cons_of_length_eq_add_one hl
    obtain ⟨b, m, rfl⟩ := List.exists_cons_of_length_eq_add_one hm
    have caret {s : String} (hs : s ∈ symbol :: symbols) : '^' ∉ s.toList := h.notMem hs (by decide)
    -- the symbol of this slot is in no term of the slots behind it
    have fresh {n : Int} {l : List ε} : term symbol n ∉ product shown symbols l := by
      intro ht
      obtain ⟨symbol', hs', n', hterm⟩ := exists_of_mem_product ht
      have hsame := symbol_eq_of_term_eq (caret List.mem_cons_self) (caret (List.mem_cons_of_mem _ hs')) hterm
      exact (List.nodup_cons.1 h.nodup).1 (hsame ▸ hs')
    have rest := ih h.tail (Nat.succ.inj hl) (Nat.succ.inj hm)
    have cons (n : ε) (l : List ε) : product shown (symbol :: symbols) (n :: l) =
        ((shown n).map (term symbol)).toList ++ product shown symbols l := by
      cases hn : shown n <;> simp [product, hn]
    rw [cons, cons] at heq
    cases ha : shown a with
    | none =>
      cases hb : shown b with
      | none =>
        rw [ha, hb] at heq
        simp [ha, hb, rest heq]
      | some k =>
        rw [ha, hb] at heq
        change product shown symbols l = term symbol k :: product shown symbols m at heq
        exact absurd (heq ▸ List.mem_cons_self) fresh
    | some j =>
      cases hb : shown b with
      | none =>
        rw [ha, hb] at heq
        change term symbol j :: product shown symbols l = product shown symbols m at heq
        exact absurd (heq ▸ List.mem_cons_self) fresh
      | some k =>
        rw [ha, hb] at heq
        obtain ⟨hterm, htail⟩ := List.cons.inj heq
        simp [ha, hb, term_injective hterm, rest htail]

def factors (terms : List String) : List String := if terms = [] then ["1"] else terms

theorem factors_ne_nil (terms : List String) : factors terms ≠ [] := by
  unfold factors
  split_ifs with h
  · simp
  · exact h

theorem factors_injective {terms terms' : List String} (h : "1" ∉ terms) (h' : "1" ∉ terms')
    (heq : factors terms = factors terms') : terms = terms' := by
  unfold factors at heq
  split_ifs at heq with hnil hnil' hnil'
  · rw [hnil, hnil']
  · simp [← heq] at h'
  · simp [heq] at h
  · exact heq

open Exponent (toInt)

variable [Exponent ε]

def above (n : ε) : Option Int := if 0 < toInt n then some (toInt n) else .none

def below (n : ε) : Option Int := if toInt n < 0 then some (toInt (-n)) else .none

/-- Exponents stand above the line, below it or nowhere, and can be told by what is there. -/
theorem eq_of_above_below {m n : ε} (habove : above m = above n) (hbelow : below m = below n) : m = n := by
  unfold above at habove
  unfold below at hbelow
  split_ifs at habove hbelow with hm hn hm' hn' hm' hn'
  all_goals simp only [Option.some.injEq] at habove hbelow
  all_goals first
    | exact Exponent.toInt_injective habove
    | exact Exponent.toInt_injective (by omega)
    | exact Exponent.neg_neg m ▸ Exponent.neg_neg n ▸ congrArg (- ·) (Exponent.toInt_injective hbelow)

theorem numerator_eq (symbols : List String) (d : Dimension ε) :
    d.numerator symbols = product above symbols d.exponents := by
  refine List.filterMap_congr fun p _ => ?_
  by_cases hn : 0 < toInt p.2 <;> simp [above, hn]

theorem denominator_eq (symbols : List String) (d : Dimension ε) :
    d.denominator symbols = product below symbols d.exponents := by
  refine List.filterMap_congr fun p _ => ?_
  by_cases hn : toInt p.2 < 0 <;> simp [below, hn]

/-- The products of a rendered dimension: the one above the line and, if there is a line, the one below it. -/
def parts (symbols : List String) (d : Dimension ε) : List String :=
  "*".intercalate (factors (d.numerator symbols)) ::
    if d.denominator symbols = [] then [] else ["*".intercalate (d.denominator symbols)]

theorem render_eq (symbols : List String) (d : Dimension ε) :
    d.render symbols = "/".intercalate (d.parts symbols) := by
  unfold render parts factors
  cases d.numerator symbols <;> cases d.denominator symbols <;> simp [String.intercalate_cons_cons]

end Products

section Reading

variable [Exponent ε] {d d₁ d₂ : Dimension ε}

theorem Legible.notMem_factors (h : Legible symbols) {mark : Char} (hmark : mark = '*' ∨ mark = '/')
    {t : String} (ht : t ∈ factors (d.numerator symbols)) : mark ∉ t.toList := by
  unfold factors at ht
  split_ifs at ht
  · obtain rfl := List.mem_singleton.1 ht
    rcases hmark with rfl | rfl <;> decide
  · rw [numerator_eq] at ht
    exact h.notMem_of_mem_product ht hmark

theorem slash_notMem_intercalate {terms : List String} (h : ∀ t ∈ terms, '/' ∉ t.toList) :
    '/' ∉ ("*".intercalate terms).toList := by
  intro hm
  rcases mem_of_mem_intercalate hm with hm | ⟨t, ht, hm⟩
  · simp at hm
  · exact h t ht hm

theorem Legible.slash_notMem_parts (h : Legible symbols) {part : String} (hpart : part ∈ d.parts symbols) :
    '/' ∉ part.toList := by
  unfold parts at hpart
  rcases List.mem_cons.1 hpart with rfl | hpart
  · exact slash_notMem_intercalate fun t ht => h.notMem_factors (Or.inr rfl) ht
  · split_ifs at hpart
    · cases hpart
    · obtain rfl := List.mem_singleton.1 hpart
      rw [denominator_eq]
      exact slash_notMem_intercalate fun t ht => h.notMem_of_mem_product ht (Or.inr rfl)

/-- Dimensions that look the same have the same terms above the line and the same terms below it. -/
theorem Legible.products_eq (h : Legible symbols) (heq : d₁.render symbols = d₂.render symbols) :
    d₁.numerator symbols = d₂.numerator symbols ∧ d₁.denominator symbols = d₂.denominator symbols := by
  have star {t : String} {d : Dimension ε} (ht : t ∈ d.denominator symbols) : '*' ∉ t.toList := by
    rw [denominator_eq] at ht
    exact h.notMem_of_mem_product ht (Or.inl rfl)
  have one (d : Dimension ε) : "1" ∉ d.numerator symbols := by
    rw [numerator_eq]
    exact h.one_notMem_product
  rw [render_eq, render_eq] at heq
  have hparts : d₁.parts symbols = d₂.parts symbols :=
    intercalate_injective (by decide) (List.cons_ne_nil _ _) (List.cons_ne_nil _ _)
      (fun _ => h.slash_notMem_parts) (fun _ => h.slash_notMem_parts) heq
  obtain ⟨habove, hbelow⟩ := List.cons.inj hparts
  constructor
  · have hfactors := intercalate_injective (by decide) (factors_ne_nil _) (factors_ne_nil _)
      (fun _ => h.notMem_factors (Or.inl rfl)) (fun _ => h.notMem_factors (Or.inl rfl)) habove
    exact factors_injective (one d₁) (one d₂) hfactors
  · split_ifs at hbelow with hnil hnil' hnil'
    · rw [hnil, hnil']
    · exact intercalate_injective (by decide) hnil hnil' (fun _ => star) (fun _ => star)
        (List.singleton_inj.1 hbelow)

theorem Legible.render_injective (h : Legible symbols) (harity₁ : d₁.arity = symbols.length)
    (harity₂ : d₂.arity = symbols.length) (heq : d₁.render symbols = d₂.render symbols) : d₁ = d₂ := by
  obtain ⟨hup, hdown⟩ := h.products_eq heq
  rw [numerator_eq, numerator_eq] at hup
  rw [denominator_eq, denominator_eq] at hdown
  have habove := h.product_injective harity₁ harity₂ hup
  have hbelow := h.product_injective harity₁ harity₂ hdown
  obtain ⟨l⟩ := d₁
  obtain ⟨m⟩ := d₂
  have hlen : l.length = m.length := harity₁.trans harity₂.symm
  apply congrArg
  apply List.ext_getElem hlen
  intro slot hl hm
  apply eq_of_above_below
  · simpa [hl, hm] using congrArg (·[slot]?) habove
  · simpa [hl, hm] using congrArg (·[slot]?) hbelow

end Reading

end Dimension

open Catalog

theorem Catalog.Registry.eq_anonymous {ε : Type} [Exponent ε] {r : Registry ε} {u : MeasureUnit ε} (hu : r.Measures u)
    (hnew : u ∉ r.units) : ∃ d : Dimension ε, d.arity = r.arity ∧ u = .anonymous r.baseSymbols d := by
  rcases hu with hu | ⟨d, hd, rfl⟩
  · exact absurd hu hnew
  · refine ⟨d, hd, ?_⟩
    unfold unitFor at hnew ⊢
    split
    · next e he =>
      rw [he] at hnew
      exact absurd (List.mem_map_of_mem (List.mem_of_find?_eq_some he)) hnew
    · rfl

/-- Where declared names are plain and base symbols are legible, every unit has a name of its own. -/
theorem Catalog.namesApart_of_legible {α ε : Type} [Scalar α] [Exponent ε] {desc : Description α}
    {c : Catalog α ε} (h : build desc = .ok c) (plain : c.PlainNames)
    (legible : Dimension.Legible c.baseSymbols) : c.NamesApart := by
  have hdeclared {u v : MeasureUnit ε} (hu : u ∈ c.units) (hv : c.Measures v) (hname : u.name = v.name) :
      v ∈ c.units := by
    rcases hv with hv | ⟨d, hd, rfl⟩
    · exact hv
    · rcases unitFor_declared_or_unnamed h plain hd with hmem | hnone
      · exact hmem
      · obtain ⟨e, he, rfl⟩ := List.mem_map.1 hu
        exact absurd (List.find?_eq_none.1 hnone e he) (by simp [Entry.hasName, hname])
  intro u v hu hv hname
  by_cases hu' : u ∈ c.units
  · have hv' := hdeclared hu' hv hname
    exact (wordsApart_of_build h).eq_of_answers hu' hv' (.inl hname) (.inl rfl)
  · have hv' : v ∉ c.units := fun hv' => hu' (hdeclared hv' hu hname.symm)
    obtain ⟨d₁, harity₁, rfl⟩ := Registry.eq_anonymous hu hu'
    obtain ⟨d₂, harity₂, rfl⟩ := Registry.eq_anonymous hv hv'
    rw [legible.render_injective harity₁ harity₂ hname]

/-- Rendered dimensions are unambiguous: different dimensions look different, and so undeclared units of
different dimension have different names. -/
theorem Dimension.rendering_is_unambiguous {symbols : List String} (h : Legible symbols) {ε : Type}
    [Exponent ε] :
    (∀ d₁ d₂ : Dimension ε, d₁.arity = symbols.length → d₂.arity = symbols.length →
      d₁.render symbols = d₂.render symbols → d₁ = d₂) ∧
    ∀ r : Registry ε, r.baseSymbols = symbols → ∀ u v : MeasureUnit ε, r.Measures u → r.Measures v →
      u ∉ r.units → v ∉ r.units → u.dimension ≠ v.dimension → u.name ≠ v.name := by
  constructor
  · intro d₁ d₂ harity₁ harity₂ heq
    exact h.render_injective harity₁ harity₂ heq
  · rintro r rfl u v hu hv hu' hv' hne hname
    obtain ⟨d₁, harity₁, rfl⟩ := Registry.eq_anonymous hu hu'
    obtain ⟨d₂, harity₂, rfl⟩ := Registry.eq_anonymous hv hv'
    exact hne (h.render_injective harity₁ harity₂ hname)

-- a symbol with a mark in it makes a square and another base unit look the same
example : (⟨[2, 0]⟩ : Dimension).render ["m", "m^2"] = (⟨[0, 1]⟩ : Dimension).render ["m", "m^2"] := by
  decide

def mechanics : Description Float where
  units := [⟨"meter", "m", .base, .none⟩, ⟨"second", "s", .base, .none⟩, ⟨"kilogram", "kg", .base, .none⟩,
    ⟨"newton", "N", .compound [⟨"kilogram", 1⟩, ⟨"meter", 1⟩, ⟨"second", -2⟩], .none⟩]

/-- Speeds and their inverses have no declared unit, and different names. -/
theorem mechanics_names_differ : ∃ c, build mechanics = .ok c ∧ Dimension.Legible c.baseSymbols ∧
    (c.unitFor ⟨[1, -1, 0]⟩).name ≠ (c.unitFor ⟨[-1, 1, 0]⟩).name := by
  have hevals : (build mechanics).toOption.map (fun c => (c.baseSymbols,
      decide (c.unitFor ⟨[1, -1, 0]⟩ ∈ c.units), decide (c.unitFor ⟨[-1, 1, 0]⟩ ∈ c.units))) =
      some (["m", "s", "kg"], false, false) := by decide +kernel
  obtain ⟨c, hc, hevals⟩ := Option.map_eq_some_iff.1 hevals
  have hbuild : build mechanics = .ok c := Fallible.toOption_eq_some.1 hc
  obtain ⟨hsymbols, hnew⟩ := Prod.mk.inj hevals
  obtain ⟨hspeed, hinverse⟩ := Prod.mk.inj hnew
  have hlegible : Dimension.Legible c.baseSymbols := by
    rw [hsymbols]
    decide
  have measured {d : Dimension} (hd : d.arity = 3) : c.Measures (c.unitFor d) :=
    Or.inr ⟨d, by rw [hd, Registry.arity, hsymbols]; rfl, rfl⟩
  obtain ⟨_, names⟩ := Dimension.rendering_is_unambiguous hlegible
  refine ⟨c, hbuild, hlegible, ?_⟩
  apply names c.toRegistry rfl _ _ (measured rfl) (measured rfl) (of_decide_eq_false hspeed)
    (of_decide_eq_false hinverse)
  simp

end Metrology

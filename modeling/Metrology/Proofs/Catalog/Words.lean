import Mathlib.Data.List.Pairwise
import Metrology.Proofs.Catalog.Coherence

/-! What words mean in a catalog. A unit goes by its name and by its symbol, a class by its name, and no
word ever stands for two of them; so the order in which names and symbols are searched does not matter. -/
namespace Metrology

variable {ε : Type}

/-- A unit is meant by its name and, unless it has none, by its symbol. -/
def MeasureUnit.Answers (u : MeasureUnit ε) (word : String) : Prop :=
  u.name = word ∨ u.symbol ≠ "" ∧ u.symbol = word

def MeasureUnit.Apart (u v : MeasureUnit ε) : Prop := ∀ word, u.Answers word → ¬ v.Answers word

instance : Std.Symm (MeasureUnit.Apart (ε := ε)) := ⟨fun _ _ huv word hv hu => huv word hu hv⟩

namespace Catalog

open Fallible

theorem Entry.answers_iff {e : Entry ε} {word : String} :
    e.unit.Answers word ↔ e.hasName word = true ∨ e.hasSymbol word = true := by
  simp [MeasureUnit.Answers, hasName, hasSymbol]

namespace Registry

variable {r : Registry ε} {word : String}

theorem isTaken_iff : r.isTaken word = true ↔
    (∃ u ∈ r.units, u.Answers word) ∨ word ∈ r.classes.map (·.1) := by
  simp only [isTaken, Bool.or_eq_true, List.any_eq_true, units, List.mem_map, exists_exists_and_eq_and,
    Entry.answers_iff, decide_eq_true_eq]

theorem answers_of_find? {e : Entry ε} (h : r.find? word = some e) : e.unit.Answers word := by
  simp only [find?, Option.orElse_eq_orElse, Option.orElse_eq_or, Option.or_eq_some_iff] at h
  rw [Entry.answers_iff]
  rcases h with h | ⟨_, h⟩
  · exact Or.inl (List.find?_some (p := fun e : Entry ε => e.hasName word) h)
  · exact Or.inr (List.find?_some (p := fun e : Entry ε => e.hasSymbol word) h)

/-- A search that finds nothing has seen all names and symbols. -/
theorem find?_eq_none_iff : r.find? word = none ↔ ∀ u ∈ r.units, ¬ u.Answers word := by
  simp only [find?, Option.orElse_eq_orElse, Option.orElse_eq_or, Option.or_eq_none_iff,
    List.find?_eq_none, units, List.forall_mem_map, Entry.answers_iff, not_or, forall_and]

theorem lookup_eq_none_iff : r.lookup word = none ↔ ∀ u ∈ r.units, ¬ u.Answers word := by
  rw [lookup, Option.map_eq_none_iff, find?_eq_none_iff]

theorem lookup_isSome_iff : (r.lookup word).isSome = true ↔ ∃ u ∈ r.units, u.Answers word := by
  rw [← not_iff_not, Option.not_isSome_iff_eq_none, lookup_eq_none_iff]
  push Not
  rfl

theorem members_isSome_iff : (r.members word).isSome = true ↔ word ∈ r.classes.map (·.1) := by
  simp only [members, List.lookup_isSome_iff, beq_iff_eq, List.mem_map, @eq_comm _ word]

theorem mem_reservedWords_iff : word ∈ r.reservedWords ↔
    (∃ u ∈ r.units, u.Answers word) ∨ word ∈ r.classes.map (·.1) := by
  simp only [reservedWords, List.mem_mergeSort, List.mem_eraseDups, List.mem_append, List.mem_map,
    List.mem_filter, decide_eq_true_eq]
  refine or_congr_left ?_
  constructor
  · rintro (⟨u, hu, rfl⟩ | ⟨⟨u, hu, rfl⟩, hne⟩)
    · exact ⟨u, hu, Or.inl rfl⟩
    · exact ⟨u, hu, Or.inr ⟨hne, rfl⟩⟩
  · rintro ⟨u, hu, rfl | ⟨hne, rfl⟩⟩
    · exact Or.inl ⟨u, hu, rfl⟩
    · exact Or.inr ⟨⟨u, hu, rfl⟩, hne⟩

/-- No word has two meanings. -/
structure WordsApart (r : Registry ε) : Prop where
  units : r.units.Pairwise MeasureUnit.Apart
  classes : (r.classes.map (·.1)).Nodup
  apart : ∀ u ∈ r.units, ∀ word, u.Answers word → word ∉ r.classes.map (·.1)

namespace WordsApart

variable {u v : MeasureUnit ε}

theorem eq_of_answers (h : r.WordsApart) (hu : u ∈ r.units) (hv : v ∈ r.units) (hword : u.Answers word)
    (hword' : v.Answers word) : u = v := by
  by_contra hne
  exact h.units.forall hu hv hne word hword hword'

theorem lookup_eq_some_iff (h : r.WordsApart) :
    r.lookup word = some u ↔ u ∈ r.units ∧ u.Answers word := by
  constructor
  · intro hlookup
    obtain ⟨e, he, rfl⟩ := Option.map_eq_some_iff.1 hlookup
    exact ⟨mem_of_lookup hlookup, answers_of_find? he⟩
  · rintro ⟨hu, hword⟩
    obtain ⟨v, hv⟩ := Option.isSome_iff_exists.1 (lookup_isSome_iff.2 ⟨u, hu, hword⟩)
    obtain ⟨e, he, rfl⟩ := Option.map_eq_some_iff.1 hv
    rw [hv, h.eq_of_answers hu (mem_of_lookup hv) hword (answers_of_find? he)]

theorem names_nodup (h : r.WordsApart) : (r.units.map (·.name)).Nodup := by
  refine List.pairwise_map.2 (h.units.imp ?_)
  intro u v huv hname
  exact huv v.name (Or.inl hname) (Or.inl rfl)

theorem symbols_nodup (h : r.WordsApart) : ((r.units.map (·.symbol)).filter (· ≠ "")).Nodup := by
  refine List.pairwise_filter.2 (List.pairwise_map.2 (h.units.imp ?_))
  intro u v huv hu hv hsymbol
  exact huv v.symbol (Or.inr ⟨of_decide_eq_true hu, hsymbol⟩) (Or.inr ⟨of_decide_eq_true hv, rfl⟩)

end WordsApart

end Registry

namespace Draft

variable {α : Type} {d d' : Draft α ε}

theorem wordsApart_start [Exponent ε] (slots : Nat) : (start slots : Draft α ε).WordsApart where
  units := List.pairwise_singleton _ _
  classes := List.nodup_nil
  apart _ _ _ _ := List.not_mem_nil

/-- A unit under free words takes no word from another. -/
theorem wordsApart_insert (h : d.WordsApart) {e : Entry ε}
    (free : ∀ word, e.unit.Answers word → d.isTaken word = false) : (d.insert e).WordsApart := by
  have hnew (word : String) (hword : e.unit.Answers word) :
      ¬ ((∃ u ∈ d.units, u.Answers word) ∨ word ∈ d.classes.map (·.1)) := by
    rw [← Registry.isTaken_iff, free word hword]
    simp
  refine ⟨?_, h.classes, ?_⟩
  · rw [units_insert, List.pairwise_append]
    refine ⟨h.units, List.pairwise_singleton _ _, ?_⟩
    intro u hu v hv word hword
    rw [List.mem_singleton.1 hv]
    exact fun hword' => hnew word hword' (Or.inl ⟨u, hu, hword⟩)
  · intro u hu word hword
    rw [units_insert] at hu
    rcases List.mem_append.1 hu with hu | hu
    · exact h.apart u hu word hword
    · rw [List.mem_singleton.1 hu] at hword
      exact fun hclass => hnew word hword (Or.inr hclass)

variable [Scalar α] [Exponent ε]

theorem wordsApart_declareUnit (h : d.WordsApart) {decl : Description.UnitDecl α}
    (hd : d.declareUnit decl = .ok d') : d'.WordsApart := by
  obtain ⟨hname, hsymbol, hdef⟩ := declareUnit_eq_ok.1 hd
  -- a symbol that equals the name is free as the name is
  have free (word : String) (hword : decl.name = word ∨ decl.symbol ≠ "" ∧ decl.symbol = word) :
      d.isTaken word = false := by
    rcases hword with rfl | ⟨_, rfl⟩
    · exact hname
    · rcases hsymbol with hsame | hfree
      · rw [hsame]
        exact hname
      · exact hfree
  obtain ⟨_, rfl⟩ | ⟨_, _, _, _, _, _, _, _, _, _, rfl⟩ | ⟨_, _, _, _, rfl⟩ := define_eq_ok hdef
  · exact wordsApart_insert h free
  · exact wordsApart_insert h free
  · exact wordsApart_insert h free

theorem wordsApart_declareConversion (h : d.WordsApart) {decl : Description.ConversionDecl α}
    (hd : d.declareConversion decl = .ok d') : d'.WordsApart := by
  obtain ⟨_, _, _, _, _, _, _, _, _, rfl⟩ := declareConversion_eq_ok hd
  exact h

omit [Scalar α] [Exponent ε] in
theorem wordsApart_declareClass (h : d.WordsApart) {decl : Description.ClassDecl}
    (hd : d.declareClass decl = .ok d') : d'.WordsApart := by
  obtain ⟨hfree, members, rfl⟩ := declareClass_eq_ok hd
  have hnew : ¬ ((∃ u ∈ d.units, u.Answers decl.name) ∨ decl.name ∈ d.classes.map (·.1)) := by
    rw [← Registry.isTaken_iff, hfree]
    simp
  refine ⟨h.units, ?_, ?_⟩
  · rw [List.map_append, List.nodup_append]
    refine ⟨h.classes, List.nodup_singleton _, ?_⟩
    rintro name hname _ hlast rfl
    rw [List.mem_singleton.1 hlast] at hname
    exact hnew (Or.inr hname)
  · intro u hu word hword hclass
    rw [List.map_append, List.mem_append] at hclass
    rcases hclass with hclass | hclass
    · exact h.apart u hu word hword hclass
    · rw [List.mem_singleton.1 hclass] at hword
      exact hnew (Or.inl ⟨u, hu, hword⟩)

end Draft

variable {α : Type} [Scalar α] [Exponent ε] {desc : Description α} {c : Catalog α ε}

theorem wordsApart_of_draft {d : Draft α ε} (h : draft desc = .ok d) : d.WordsApart := by
  obtain ⟨units, hunits, h⟩ := bind_eq_ok.1 h
  obtain ⟨conversions, hconversions, hclasses⟩ := bind_eq_ok.1 h
  have h₁ := foldlM_keeps (P := fun d : Draft α ε => d.WordsApart)
    (fun _ _ _ _ hd h => Draft.wordsApart_declareUnit h hd) hunits (Draft.wordsApart_start _)
  have h₂ := foldlM_keeps (P := fun d : Draft α ε => d.WordsApart)
    (fun _ _ _ _ hd h => Draft.wordsApart_declareConversion h hd) hconversions h₁
  exact foldlM_keeps (P := fun d : Draft α ε => d.WordsApart)
    (fun _ _ _ _ hd h => Draft.wordsApart_declareClass h hd) hclasses h₂

theorem wordsApart_of_build (h : build desc = .ok c) : c.WordsApart := by
  obtain ⟨d, hd, _, hr⟩ := build_eq_ok h
  rw [hr]
  exact wordsApart_of_draft hd

theorem head?_units (h : build desc = .ok c) : c.units.head? = some (numberUnit c.arity) := by
  obtain ⟨d, hd, _, hr⟩ := build_eq_ok h
  obtain ⟨rest, hrest⟩ := List.head?_eq_some_iff.1 (coherent_of_draft hd).number
  rw [hr, arity_of_draft hd]
  simp [Registry.units, hrest]

theorem number_eq (h : build desc = .ok c) : c.number = numberUnit c.arity := by
  have hhead := head?_units h
  rw [Registry.units, List.head?_map, Option.map_eq_some_iff] at hhead
  obtain ⟨e, he, hunit⟩ := hhead
  obtain ⟨rest, hrest⟩ := List.head?_eq_some_iff.1 he
  rw [← hunit]
  simp [Registry.number, hrest]

/-- Every word of a catalog has one meaning. Names differ from each other, and so do the symbols that are
not empty; none of them is the name of another unit, and no class has a name that means a unit or another
class. So a unit is found under its name and its symbol and under no other word, plain numbers come first
and are found, and the reserved words are those that mean a unit or a class. -/
theorem words_have_one_meaning (h : build desc = .ok c) :
    (c.units.map (·.name)).Nodup ∧
    ((c.units.map (·.symbol)).filter (· ≠ "")).Nodup ∧
    (∀ i j (hi : i < c.units.length) (hj : j < c.units.length),
      c.units[i].symbol ≠ "" → c.units[i].symbol = c.units[j].name → i = j) ∧
    (c.classes.map (·.1)).Nodup ∧
    (∀ name ∈ c.classes.map (·.1), ∀ u ∈ c.units, u.name ≠ name ∧ (u.symbol ≠ "" → u.symbol ≠ name)) ∧
    (∀ word i (hi : i < c.units.length), c.lookup word = some c.units[i] ↔
      c.units[i].name = word ∨ c.units[i].symbol ≠ "" ∧ c.units[i].symbol = word) ∧
    (∀ word, c.lookup word = none ↔
      ∀ u ∈ c.units, ¬ (u.name = word ∨ u.symbol ≠ "" ∧ u.symbol = word)) ∧
    c.units[0]? = some c.number ∧ c.number = numberUnit c.arity ∧ c.lookup numberName = some c.number ∧
    ∀ word, (c.isTaken word = true ↔ (c.lookup word).isSome ∨ (c.members word).isSome) ∧
      (word ∈ c.reservedWords ↔ (c.lookup word).isSome ∨ (c.members word).isSome) := by
  have hapart := wordsApart_of_build h
  have hnumber := number_eq h
  refine ⟨hapart.names_nodup, hapart.symbols_nodup, ?_, hapart.classes, ?_, ?_, ?_, ?_, hnumber, ?_, ?_⟩
  · intro i j hi hj hne hsymbol
    have hsame : c.units[i] = c.units[j] := hapart.eq_of_answers (List.getElem_mem hi)
      (List.getElem_mem hj) (Or.inr ⟨hne, hsymbol⟩) (Or.inl rfl)
    exact (hapart.names_nodup.of_map).getElem_inj_iff.1 hsame
  · intro name hname u hu
    refine ⟨fun hword => hapart.apart u hu name (Or.inl hword) hname, ?_⟩
    exact fun hne hword => hapart.apart u hu name (Or.inr ⟨hne, hword⟩) hname
  · intro word i hi
    rw [hapart.lookup_eq_some_iff, and_iff_right (List.getElem_mem hi)]
    rfl
  · intro word
    exact Registry.lookup_eq_none_iff
  · rw [← List.head?_eq_getElem?, head?_units h, hnumber]
  · exact hapart.lookup_eq_some_iff.2 ⟨number_mem h, Or.inl (by rw [hnumber]; rfl)⟩
  · intro word
    rw [Registry.isTaken_iff, Registry.mem_reservedWords_iff, Registry.lookup_isSome_iff,
      Registry.members_isSome_iff]
    exact ⟨Iff.rfl, Iff.rfl⟩

/-- Two counts without a symbol, a length whose symbol is its name, and a class. -/
def provisions : Description Rat where
  units := [⟨"meter", "m", .base, .none⟩, ⟨"dozen", "", .scaled "number" 12 .childToParent, .none⟩,
    ⟨"gross", "", .scaled "dozen" 12 .childToParent, .none⟩,
    ⟨"rod", "rod", .scaled "m" 5 .childToParent, .none⟩]
  classes := [⟨"length", ["m", "rod"], .none⟩]

/-- The empty word means neither count, and the class is reserved. -/
theorem provisions_words : ∃ c : Catalog Rat, build provisions = .ok c ∧ (c.units.map (·.name)).Nodup ∧
    c.lookup "" = none ∧ c.lookup "rod" = some ⟨"rod", "rod", ⟨[1]⟩, false⟩ ∧
    "length" ∈ c.reservedWords := by
  have hevals : (build provisions).toOption.map (fun c : Catalog Rat => (c.units, (c.members "length").isSome)) =
      some ([numberUnit 1, ⟨"meter", "m", ⟨[1]⟩, true⟩, ⟨"dozen", "", ⟨[0]⟩, false⟩,
        ⟨"gross", "", ⟨[0]⟩, false⟩, ⟨"rod", "rod", ⟨[1]⟩, false⟩], true) := by decide +kernel
  obtain ⟨c, hc, hevals⟩ := Option.map_eq_some_iff.1 hevals
  obtain ⟨hunits, hclass⟩ := Prod.mk.inj hevals
  have h : build provisions = .ok c := toOption_eq_some.1 hc
  obtain ⟨hnames, _, _, _, _, hlookup, hnone, _, _, _, hreserved⟩ := words_have_one_meaning h
  refine ⟨c, h, hnames, (hnone "").2 ?_, ?_, (hreserved "length").2.2 (Or.inr hclass)⟩
  · rw [hunits]
    decide
  · have hrod := (hlookup "rod" 4 (by simp [hunits])).2
    simpa [hunits] using hrod

end Catalog

end Metrology

import Mathlib.Tactic.SplitIfs
import Metrology.Proofs.Catalog.Level

/-! Names that tell units apart. Units that arithmetic makes go by their rendered dimensions; the powers of one
base unit all look different. Only numbers and single base units are rendered without an operator. -/
namespace Metrology

/-- No two units, declared or made by arithmetic, have one name. -/
def Catalog.Registry.NamesApart {ε : Type} [Exponent ε] (r : Registry ε) : Prop :=
  ∀ u v, r.Measures u → r.Measures v → u.name = v.name → u = v

namespace Dimension

def minus (n : Int) : List Char := if n < 0 then ['-'] else []

theorem toList_term (symbol : String) (n : Int) : (term symbol n).toList =
    symbol.toList ++ if n = 1 then [] else '^' :: (minus n ++ Nat.toDigits 10 n.natAbs) := by
  have hmark : (toString "^").toList = ['^'] := by decide
  have hdigits : n.repr.toList = minus n ++ Nat.toDigits 10 n.natAbs := by
    cases n with
    | ofNat k => simp [Int.repr, minus, show ¬ (k : Int) < 0 by omega, Nat.toList_repr]
    | negSucc k => simp [Int.repr, minus, Int.negSucc_lt_zero, Nat.toList_repr]
  unfold term
  split
  · simp
  · simp [hmark, hdigits, Int.toString_eq_repr, show toString symbol = symbol from rfl]

/-- Digits do not begin with a sign. -/
theorem minus_append_injective {m n : Int} {k l : Nat}
    (h : minus m ++ Nat.toDigits 10 k = minus n ++ Nat.toDigits 10 l) : minus m = minus n ∧ k = l := by
  have unsigned {a : Nat} {rest : List Char} : '-' :: rest ≠ Nat.toDigits 10 a := by
    intro h
    have hmem : '-' ∈ Nat.toDigits 10 a := h ▸ List.mem_cons_self
    exact absurd (Nat.isDigit_of_mem_toDigits (by omega) (by omega) hmem) (by decide)
  have same (h : Nat.toDigits 10 k = Nat.toDigits 10 l) : k = l := by
    simpa only [Nat.ofDigitChars_ten_toDigits] using congrArg (Nat.ofDigitChars 10 · 0) h
  unfold minus at h ⊢
  split_ifs at h ⊢
  · exact ⟨rfl, same (List.cons.inj h).2⟩
  · exact absurd h unsigned
  · exact absurd h.symm unsigned
  · exact ⟨rfl, same h⟩

theorem term_injective {symbol : String} {m n : Int} (h : term symbol m = term symbol n) : m = n := by
  have hchars := congrArg String.toList h
  rw [toList_term symbol m, toList_term symbol n, List.append_cancel_left_eq] at hchars
  split_ifs at hchars with hm hn hn
  · rw [hm, hn]
  · obtain ⟨hsign, habs⟩ := minus_append_injective (List.cons.inj hchars).2
    unfold minus at hsign
    split_ifs at hsign <;> omega

section Render

open Exponent (toInt)

variable {ε : Type} [Exponent ε]

/-- The characters that join the parts of a rendered dimension. -/
def isOperator (c : Char) : Bool := c = '*' || c = '/' || c = '^'

theorem caret_mem_term (symbol : String) {n : Int} (hn : n ≠ 1) : '^' ∈ (term symbol n).toList := by
  rw [toList_term symbol n, if_neg hn]
  simp

theorem mem_intercalate {terms : List String} {term : String} (hterm : term ∈ terms) {c : Char}
    (hc : c ∈ term.toList) : c ∈ ("*".intercalate terms).toList := by
  induction terms with
  | nil => cases hterm
  | cons first rest ih =>
    cases rest with
    | nil =>
      rw [String.intercalate_singleton, ← List.mem_singleton.1 hterm]
      exact hc
    | cons second rest =>
      rw [String.intercalate_cons_cons]
      simp only [String.toList_append, List.mem_append]
      rcases List.mem_cons.1 hterm with rfl | hterm
      · exact Or.inl (Or.inl hc)
      · exact Or.inr (ih hterm)

theorem star_mem_intercalate {terms : List String} (h : 1 < terms.length) :
    '*' ∈ ("*".intercalate terms).toList := by
  match terms, h with
  | first :: second :: rest, _ => simp [String.intercalate_cons_cons]

variable {symbols : List String} {d : Dimension ε}

theorem mem_render_of_numerator {c : Char} (hne : d.numerator symbols ≠ [])
    (hc : c ∈ ("*".intercalate (d.numerator symbols)).toList) : c ∈ (d.render symbols).toList := by
  unfold render
  cases hnum : d.numerator symbols with
  | nil => exact absurd hnum hne
  | cons term terms =>
    rw [hnum] at hc
    cases d.denominator symbols with
    | nil => exact hc
    | cons term' terms' =>
      simp only [String.toList_append, List.mem_append]
      exact Or.inl (Or.inl hc)

theorem slash_mem_render (hne : d.denominator symbols ≠ []) : '/' ∈ (d.render symbols).toList := by
  unfold render
  cases hden : d.denominator symbols with
  | nil => exact absurd hden hne
  | cons term terms => simp

theorem length_numerator (hlen : d.arity = symbols.length) :
    (d.numerator symbols).length = d.exponents.countP (0 < toInt ·) := by
  have hzip : d.exponents = (symbols.zip d.exponents).map (·.2) :=
    (List.map_snd_zip (Nat.le_of_eq hlen)).symm
  have hsome : ∀ p : String × ε,
      (if 0 < toInt p.2 then some (term p.1 (toInt p.2)) else Option.none).isSome =
        decide (0 < toInt p.2) := by
    intro p
    by_cases hp : 0 < toInt p.2 <;> simp [hp]
  rw [hzip, List.countP_map, numerator, List.length_filterMap_eq_countP]
  simp only [hsome]
  rfl

theorem eq_replicate_or_set {l : List ε} (hbits : ∀ n ∈ l, n = 0 ∨ n = 1)
    (hone : l.countP (0 < toInt ·) ≤ 1) :
    l = List.replicate l.length 0 ∨ ∃ k < l.length, l = (List.replicate l.length 0).set k 1 := by
  induction l with
  | nil => exact Or.inl rfl
  | cons n rest ih =>
    have hrest : ∀ m ∈ rest, m = 0 ∨ m = 1 := fun m hm => hbits m (List.mem_cons_of_mem n hm)
    rcases hbits n List.mem_cons_self with rfl | rfl
    · rcases ih hrest (by simpa using hone) with h | ⟨k, hk, h⟩
      · exact Or.inl (congrArg (0 :: ·) h)
      · refine Or.inr ⟨k + 1, Nat.succ_lt_succ hk, ?_⟩
        simpa [List.replicate_succ] using h
    · -- there is no place left for another one
      have hzero : rest.countP (0 < toInt ·) = 0 := by simpa using hone
      have hall : ∀ m ∈ rest, m = 0 := by
        intro m hm
        rcases hrest m hm with rfl | rfl
        · rfl
        · exact absurd (List.countP_eq_zero.1 hzero 1 hm) (by simp)
      refine Or.inr ⟨0, Nat.succ_pos _, ?_⟩
      simp [List.replicate_succ, ← List.eq_replicate_iff.2 ⟨rfl, hall⟩]

/-- Only plain numbers and single base units are rendered without an operator. -/
theorem none_or_base_of_render (hlen : d.arity = symbols.length)
    (plain : ∀ c ∈ (d.render symbols).toList, isOperator c = false) :
    d = none d.arity ∨ ∃ slot < d.arity, d = base d.arity slot := by
  have paired {n : ε} (hn : n ∈ d.exponents) : ∃ symbol, (symbol, n) ∈ symbols.zip d.exponents := by
    have hzip : (symbols.zip d.exponents).map (·.2) = d.exponents := List.map_snd_zip (Nat.le_of_eq hlen)
    rw [← hzip] at hn
    obtain ⟨⟨symbol, m⟩, hm, rfl⟩ := List.mem_map.1 hn
    exact ⟨symbol, hm⟩
  have hnonneg : ∀ n ∈ d.exponents, 0 ≤ toInt n := by
    intro n hn
    by_contra hneg
    obtain ⟨symbol, hpair⟩ := paired hn
    have hmem : term symbol (toInt (-n)) ∈ d.denominator symbols :=
      List.mem_filterMap.2 ⟨(symbol, n), hpair, by simp [Int.not_le.1 hneg]⟩
    have hslash := plain '/' (slash_mem_render (List.ne_nil_of_mem hmem))
    simp [isOperator] at hslash
  have hle : ∀ n ∈ d.exponents, toInt n ≤ 1 := by
    intro n hn
    by_contra hlarge
    obtain ⟨symbol, hpair⟩ := paired hn
    have hmem : term symbol (toInt n) ∈ d.numerator symbols :=
      List.mem_filterMap.2 ⟨(symbol, n), hpair, by simp [show 0 < toInt n by omega]⟩
    have hcaret := plain '^' (mem_render_of_numerator (List.ne_nil_of_mem hmem)
      (mem_intercalate hmem (caret_mem_term symbol (by omega))))
    simp [isOperator] at hcaret
  have hcount : d.exponents.countP (0 < toInt ·) ≤ 1 := by
    by_contra hmany
    rw [← length_numerator hlen] at hmany
    have hstar := plain '*' (mem_render_of_numerator (List.ne_nil_of_length_pos (by omega))
      (star_mem_intercalate (by omega)))
    simp [isOperator] at hstar
  have hbits : ∀ n ∈ d.exponents, n = 0 ∨ n = 1 := by
    intro n hn
    have := hnonneg n hn
    have := hle n hn
    rcases (show toInt n = 0 ∨ toInt n = 1 by omega) with h | h
    · exact Or.inl (Exponent.toInt_injective (h.trans Exponent.toInt_zero.symm))
    · exact Or.inr (Exponent.toInt_injective (h.trans Exponent.toInt_one.symm))
  rcases eq_replicate_or_set hbits hcount with h | ⟨slot, hslot, h⟩
  · exact Or.inl (congrArg Dimension.mk h)
  · exact Or.inr ⟨slot, hslot, congrArg Dimension.mk h⟩

end Render

end Dimension

end Metrology

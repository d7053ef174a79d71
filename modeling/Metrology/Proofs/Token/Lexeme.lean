import Metrology.Proofs.Decimal.Nearest
import Metrology.Proofs.Decimal.Numeral
import Metrology.Token.Cursor

/-! The language of tokens. A text denotes a token by its form alone, and what is read at the front of a
text is the longest text there that denotes one. -/
namespace Metrology.Token

open Decimal

def marks : List (Char × Kind) :=
  [('=', .equals), (':', .colon), (';', .semicolon), (',', .comma), ('*', .star), ('/', .slash),
    ('^', .caret), ('-', .minus)]

/-- The kinds that the texts of tokens denote. -/
inductive Denotes : List Char → Kind → Prop
  | keyword (word : Keyword) : Denotes word.text.toList (.keyword word)
  | identifier {c : Char} {cs : List Char} : isWordStart c = true → (∀ d ∈ cs, isWordChar d = true) →
      (∀ word : Keyword, word.text.toList ≠ c :: cs) →
      Denotes (c :: cs) (.identifier (String.ofList (c :: cs)))
  | symbol {body : List Char} : body ≠ [] → (∀ c ∈ body, isSymbolChar c = true) →
      Denotes ('[' :: (body ++ [']'])) (.symbol (String.ofList body))
  | number {n : Numeral} {x : Float} : n.Regular → n.whole ≠ [] → Nearest n.value x →
      Denotes n.text (.number x)
  | arrow : Denotes ['-', '>'] .arrow
  | backArrow : Denotes ['<', '-'] .backArrow
  | mark {c : Char} {kind : Kind} : (c, kind) ∈ marks → Denotes [c] kind

section Forms

variable {c : Char} {cs : List Char}

theorem lexeme_word (hc : isWordStart c = true) : lexeme (c :: cs) = c :: cs.takeWhile isWordChar :=
  if_pos hc

theorem isWordStart_of_isDigit (hc : c.isDigit = true) : isWordStart c = false := by
  have hne : c ≠ '_' := by
    rintro rfl
    cases hc
  simp only [Char.isDigit, isWordStart] at *
  delta Char.isAlpha Char.isUpper Char.isLower
  grind

theorem lexeme_digit (hc : c.isDigit = true) : lexeme (c :: cs) = (Numeral.read (c :: cs)).text :=
  (if_neg (by simp [isWordStart_of_isDigit hc])).trans (if_pos hc)

theorem lexeme_bracket : lexeme ('[' :: cs) =
    match cs.takeWhile isSymbolChar, cs.dropWhile isSymbolChar with
      | _ :: _, ']' :: _ => '[' :: cs.takeWhile isSymbolChar ++ [']']
      | _, _ => [] := rfl

theorem lexeme_symbol {body rest : List Char} (hne : body ≠ []) (hbody : ∀ c ∈ body, isSymbolChar c = true) :
    lexeme ('[' :: (body ++ ']' :: rest)) = '[' :: (body ++ [']']) := by
  have hstop : isSymbolChar ']' = false := rfl
  have htake : (body ++ ']' :: rest).takeWhile isSymbolChar = body := by
    rw [List.takeWhile_append_of_pos hbody, List.takeWhile_cons_of_neg (by simp [hstop]), List.append_nil]
  have hdrop : (body ++ ']' :: rest).dropWhile isSymbolChar = ']' :: rest := by
    rw [List.dropWhile_append_of_pos hbody, List.dropWhile_cons_of_neg (by simp [hstop])]
  rw [lexeme_bracket, htake, hdrop]
  cases body with
  | nil => exact absurd rfl hne
  | cons _ _ => rfl

theorem lexeme_minus : lexeme ('-' :: cs) = if cs.head? = some '>' then ['-', '>'] else ['-'] := by
  cases cs with
  | nil => rfl
  | cons d cs =>
    by_cases hd : d = '>'
    · subst hd
      rfl
    · rw [if_neg (by simpa using hd)]
      simp [lexeme, isWordStart, hd]

theorem length_lexeme_mark {kind : Kind} (hc : (c, kind) ∈ marks) : 1 ≤ (lexeme (c :: cs)).length := by
  simp only [marks, List.mem_cons, Prod.mk.injEq, List.not_mem_nil, or_false] at hc
  rcases hc with ⟨rfl, -⟩ | ⟨rfl, -⟩ | ⟨rfl, -⟩ | ⟨rfl, -⟩ | ⟨rfl, -⟩ | ⟨rfl, -⟩ | ⟨rfl, -⟩ | ⟨rfl, -⟩
  case inr.inr.inr.inr.inr.inr.inr =>
    rw [lexeme_minus]
    split_ifs
    · exact Nat.le_succ 1
    · exact le_rfl
  all_goals exact le_rfl

theorem denote_word (hc : isWordStart c = true) : denote (c :: cs) = wordKind (String.ofList (c :: cs)) := by
  have hdigit : c.isDigit = false := by
    by_contra hd
    simp [isWordStart_of_isDigit (by simpa using hd)] at hc
  unfold denote
  split <;> simp_all [isWordStart]

theorem denote_digit (hc : c.isDigit = true) :
    denote (c :: cs) = .number (Numeral.read (c :: cs)).toFloat := by
  unfold denote
  split <;> simp_all

theorem denote_symbol (body : List Char) : denote ('[' :: (body ++ [']'])) = .symbol (String.ofList body) := by
  simp [denote]

theorem denote_numeral {n : Numeral} (hregular : n.Regular) (hwhole : n.whole ≠ []) :
    denote n.text = .number n.toFloat := by
  obtain ⟨c, cs, hcs⟩ := List.exists_cons_of_ne_nil hwhole
  have hc : c.isDigit = true := hregular.whole c (by simp [hcs])
  have htext : n.text = c :: (cs ++ n.fraction ++ n.power) := by simp [Numeral.text, hcs]
  have hread : Numeral.read n.text = n := by
    have happend := Numeral.read_append hregular ends_nil
    rwa [List.append_nil] at happend
  rw [htext, denote_digit hc, ← htext, hread]

theorem denotes_word (hc : isWordStart c = true) (hcs : ∀ d ∈ cs, isWordChar d = true) :
    Denotes (c :: cs) (wordKind (String.ofList (c :: cs))) := by
  have hkeyword (word : Keyword) (h : String.ofList (c :: cs) = word.text) :
      Denotes (c :: cs) (.keyword word) := by
    rw [← String.toList_ofList (l := c :: cs), h]
    exact .keyword word
  unfold wordKind
  split_ifs with hbase hunit hconvert hclass
  · exact hkeyword .base hbase
  · exact hkeyword .unit hunit
  · exact hkeyword .convert hconvert
  · exact hkeyword .unitClass hclass
  · refine .identifier hc hcs fun word h => ?_
    have hword : String.ofList (c :: cs) = word.text := by rw [← h, String.ofList_toList]
    cases word with
    | base => exact hbase hword
    | unit => exact hunit hword
    | convert => exact hconvert hword
    | unitClass => exact hclass hword

theorem denotes_read (hc : c.isDigit = true) :
    Denotes (Numeral.read (c :: cs)).text (denote (Numeral.read (c :: cs)).text) := by
  have hwhole : (Numeral.read (c :: cs)).whole ≠ [] := by
    rw [Numeral.read, List.takeWhile_cons_of_pos hc]
    exact List.cons_ne_nil _ _
  have hregular := Numeral.regular_read (c :: cs)
  rw [denote_numeral hregular hwhole]
  exact .number hregular hwhole (Numeral.nearest_value _)

theorem lexeme_bracket_spec (h : lexeme ('[' :: cs) ≠ []) :
    lexeme ('[' :: cs) <+: '[' :: cs ∧ Denotes (lexeme ('[' :: cs)) (denote (lexeme ('[' :: cs))) := by
  obtain ⟨body, rest, rfl, hne, hbody⟩ : ∃ body rest, cs = body ++ ']' :: rest ∧ body ≠ [] ∧
      ∀ c ∈ body, isSymbolChar c = true := by
    rw [lexeme_bracket] at h
    split at h
    · next rest htake hdrop =>
      refine ⟨cs.takeWhile isSymbolChar, rest, ?_, by simp [htake], fun _ hc => List.mem_takeWhile_imp hc⟩
      rw [← hdrop, List.takeWhile_append_dropWhile]
    · exact absurd rfl h
  rw [lexeme_symbol hne hbody, denote_symbol]
  exact ⟨⟨rest, by simp⟩, .symbol hne hbody⟩

theorem lexeme_mark_spec (hword : isWordStart c = false) (hdigit : c.isDigit = false) (hbracket : c ≠ '[')
    (h : lexeme (c :: cs) ≠ []) :
    lexeme (c :: cs) <+: c :: cs ∧ Denotes (lexeme (c :: cs)) (denote (lexeme (c :: cs))) := by
  generalize htext : lexeme (c :: cs) = text at h ⊢
  unfold lexeme at htext
  simp only [hword, hdigit, hbracket, if_false, Bool.false_eq_true] at htext
  split at htext
  · subst htext
    exact ⟨⟨_, rfl⟩, .arrow⟩
  · subst htext
    exact ⟨⟨_, rfl⟩, .backArrow⟩
  · exact absurd htext.symm h
  · split_ifs at htext with hmem
    · subst htext
      refine ⟨⟨cs, rfl⟩, .mark ?_⟩
      simp only [List.mem_cons, List.not_mem_nil, or_false] at hmem
      rcases hmem with rfl | rfl | rfl | rfl | rfl | rfl | rfl | rfl <;> decide
    · exact absurd htext.symm h

end Forms

/-- What is read at the front of a text is a token. -/
theorem lexeme_spec {cs : List Char} (h : lexeme cs ≠ []) :
    lexeme cs <+: cs ∧ Denotes (lexeme cs) (denote (lexeme cs)) := by
  cases cs with
  | nil => exact absurd rfl h
  | cons c cs =>
    by_cases hword : isWordStart c = true
    · rw [lexeme_word hword, denote_word hword]
      exact ⟨(List.prefix_cons_inj c).2 (List.takeWhile_prefix _),
        denotes_word hword fun _ hd => List.mem_takeWhile_imp hd⟩
    by_cases hdigit : c.isDigit = true
    · rw [lexeme_digit hdigit]
      exact ⟨Numeral.text_read_isPrefix _, denotes_read hdigit⟩
    by_cases hbracket : c = '['
    · subst hbracket
      exact lexeme_bracket_spec h
    · exact lexeme_mark_spec (by simpa using hword) (by simpa using hdigit) hbracket h

theorem Keyword.text_eq_cons (word : Keyword) :
    ∃ c cs, word.text.toList = c :: cs ∧ isWordStart c = true ∧ ∀ d ∈ cs, isWordChar d = true := by
  cases word with
  | base => exact ⟨'b', ['a', 's', 'e'], by decide +kernel, rfl, by simp [isWordChar]⟩
  | unit => exact ⟨'u', ['n', 'i', 't'], by decide +kernel, rfl, by simp [isWordChar]⟩
  | convert => exact ⟨'c', ['o', 'n', 'v', 'e', 'r', 't'], by decide +kernel, rfl, by simp [isWordChar]⟩
  | unitClass => exact ⟨'c', ['l', 'a', 's', 's'], by decide +kernel, rfl, by simp [isWordChar]⟩

/-- A text denotes one kind only. -/
theorem Denotes.eq_denote {text : List Char} {kind : Kind} (h : Denotes text kind) : kind = denote text := by
  cases h with
  | keyword word => cases word <;> decide +kernel
  | @identifier c cs hc _ hkeyword =>
    have hne (word : Keyword) : String.ofList (c :: cs) ≠ word.text := by
      intro h
      exact hkeyword word (by rw [← h, String.toList_ofList])
    rw [denote_word hc, wordKind]
    split_ifs with hbase hunit hconvert hclass
    · exact absurd hbase (hne .base)
    · exact absurd hunit (hne .unit)
    · exact absurd hconvert (hne .convert)
    · exact absurd hclass (hne .unitClass)
    · rfl
  | symbol _ _ => exact (denote_symbol _).symm
  | @number n x hregular hwhole hnearest =>
    rw [denote_numeral hregular hwhole, hnearest.unique n.nearest_value]
  | arrow => rfl
  | backArrow => rfl
  | mark hc =>
    simp only [marks, List.mem_cons, Prod.mk.injEq, List.not_mem_nil, or_false] at hc
    rcases hc with ⟨rfl, rfl⟩ | ⟨rfl, rfl⟩ | ⟨rfl, rfl⟩ | ⟨rfl, rfl⟩ | ⟨rfl, rfl⟩ | ⟨rfl, rfl⟩ | ⟨rfl, rfl⟩ |
      ⟨rfl, rfl⟩ <;> rfl

theorem Denotes.unique {text : List Char} {k l : Kind} (hk : Denotes text k) (hl : Denotes text l) : k = l :=
  hk.eq_denote.trans hl.eq_denote.symm

theorem length_le_lexeme_word {c : Char} {cs : List Char} (hc : isWordStart c = true)
    (hcs : ∀ d ∈ cs, isWordChar d = true) (rest : List Char) :
    (c :: cs).length ≤ (lexeme (c :: cs ++ rest)).length := by
  rw [List.cons_append, lexeme_word hc, List.takeWhile_append_of_pos hcs]
  simp

/-- Nothing longer at the front of a text is a token. -/
theorem length_le_lexeme {text : List Char} {kind : Kind} (h : Denotes text kind) (rest : List Char) :
    text.length ≤ (lexeme (text ++ rest)).length := by
  cases h with
  | keyword word =>
    obtain ⟨c, cs, htext, hc, hcs⟩ := word.text_eq_cons
    rw [htext]
    exact length_le_lexeme_word hc hcs rest
  | identifier hc hcs _ => exact length_le_lexeme_word hc hcs rest
  | symbol hne hbody =>
    rw [List.cons_append, List.append_assoc, List.singleton_append, lexeme_symbol hne hbody]
  | @number n x hregular hwhole hnearest =>
    obtain ⟨c, cs, hcs⟩ := List.exists_cons_of_ne_nil hwhole
    have hc : c.isDigit = true := hregular.whole c (by simp [hcs])
    have htext : n.text ++ rest = c :: (cs ++ n.fraction ++ n.power ++ rest) := by
      simp [Numeral.text, hcs]
    have hlexeme : lexeme (n.text ++ rest) = (Numeral.read (n.text ++ rest)).text := by
      rw [htext]
      exact lexeme_digit hc
    rw [hlexeme]
    exact Numeral.length_le_read hregular rest
  | arrow => exact le_rfl
  | backArrow => exact le_rfl
  | mark hc => exact length_lexeme_mark hc

end Metrology.Token

import Mathlib.Tactic.SplitIfs
import Metrology.Json.Text

/-! Escaping and its inverse. A text that has been escaped character by character holds no bare quote, so
it ends where its closing quote stands, and its escapes are undone one by one. -/
namespace Metrology.Json

theorem hexQuad?_control : ∀ n < 0x20,
    hexQuad? '0' '0' (hexDigit (n / 16)) (hexDigit (n % 16)) = some n := by decide

theorem hexDigit_plain : ∀ n < 0x10, hexDigit n ≠ '"' ∧ hexDigit n ≠ '\\' := by decide

theorem escapeChar_cases (c : Char) :
    (escapeChar c = [c] ∧ c ≠ '"' ∧ c ≠ '\\' ∧ 0x20 ≤ c.toNat) ∨
    (∃ e, escapeChar c = ['\\', e] ∧ escapedChar? e = some c ∧ e ≠ 'u') ∨
    escapeChar c = ['\\', 'u', '0', '0', hexDigit (c.toNat / 16), hexDigit (c.toNat % 16)] ∧
      c.toNat < 0x20 := by
  unfold escapeChar
  split_ifs with hquote hslash hline htab hreturn hback hfeed hcontrol
  · exact Or.inr (Or.inl ⟨'"', rfl, by rw [hquote]; rfl, by decide⟩)
  · exact Or.inr (Or.inl ⟨'\\', rfl, by rw [hslash]; rfl, by decide⟩)
  · exact Or.inr (Or.inl ⟨'n', rfl, by rw [hline]; rfl, by decide⟩)
  · exact Or.inr (Or.inl ⟨'t', rfl, by rw [htab]; rfl, by decide⟩)
  · exact Or.inr (Or.inl ⟨'r', rfl, by rw [hreturn]; rfl, by decide⟩)
  · exact Or.inr (Or.inl ⟨'b', rfl, by rw [hback]; rfl, by decide⟩)
  · exact Or.inr (Or.inl ⟨'f', rfl, by rw [hfeed]; rfl, by decide⟩)
  · exact Or.inr (Or.inr ⟨rfl, hcontrol⟩)
  · exact Or.inl ⟨rfl, hquote, hslash, Nat.le_of_not_lt hcontrol⟩

theorem unescape?_escapeChar (c : Char) (rest : List Char) :
    unescape? (escapeChar c ++ rest) = (unescape? rest).map (c :: ·) := by
  rcases escapeChar_cases c with ⟨h, hquote, hslash, hplain⟩ | ⟨e, h, he, hu⟩ | ⟨h, hcontrol⟩
  all_goals rw [h]
  · rw [List.singleton_append, unescape?, if_neg (Nat.not_lt.2 hplain)]
    all_goals simp [hslash]
  · simp only [List.cons_append, List.nil_append]
    rw [unescape?, he]
    simp [hu]
  · have hlow : isLowSurrogate c.toNat = false := by simp [isLowSurrogate]; omega
    have hhigh : isHighSurrogate c.toNat = false := by simp [isHighSurrogate]; omega
    simp only [List.cons_append, List.nil_append]
    rw [unescape?, hexQuad?_control c.toNat hcontrol]
    simp [hlow, hhigh]

theorem unescape?_escape (cs : List Char) : unescape? (escape cs) = some cs := by
  induction cs with
  | nil => rfl
  | cons c cs ih =>
    rw [escape, List.flatMap_cons, unescape?_escapeChar]
    change (unescape? (escape cs)).map (c :: ·) = _
    rw [ih]
    rfl

theorem quoted?_plain {c : Char} (hquote : c ≠ '"') (hslash : c ≠ '\\') (rest : List Char) :
    quoted? (c :: rest) = (quoted? rest).map fun (body, rest) => (c :: body, rest) := by
  rw [quoted?]
  all_goals simp [hquote, hslash]

theorem quoted?_escapeChar (c : Char) (rest : List Char) : quoted? (escapeChar c ++ rest) =
    (quoted? rest).map fun (body, rest) => (escapeChar c ++ body, rest) := by
  rcases escapeChar_cases c with ⟨h, hquote, hslash, _⟩ | ⟨e, h, _, _⟩ | ⟨h, hcontrol⟩
  all_goals rw [h]
  · exact quoted?_plain hquote hslash rest
  · rfl
  · obtain ⟨hquote, hslash⟩ := hexDigit_plain (c.toNat / 16) (by omega)
    obtain ⟨hquote', hslash'⟩ := hexDigit_plain (c.toNat % 16) (by omega)
    simp only [List.cons_append, List.nil_append]
    rw [quoted?, quoted?_plain (by decide) (by decide), quoted?_plain (by decide) (by decide),
      quoted?_plain hquote hslash, quoted?_plain hquote' hslash']
    simp [Function.comp_def]

/-- An escaped text ends at the quote behind it. -/
theorem quoted?_escape (cs rest : List Char) :
    quoted? (escape cs ++ '"' :: rest) = some (escape cs, rest) := by
  induction cs with
  | nil => rfl
  | cons c cs ih =>
    rw [escape, List.flatMap_cons, List.append_assoc, quoted?_escapeChar]
    change (quoted? (escape cs ++ '"' :: rest)).map _ = _
    rw [ih]
    rfl

end Metrology.Json

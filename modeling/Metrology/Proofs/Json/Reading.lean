import Mathlib.Tactic.Common
import Metrology.Json.Reader
import Metrology.Json.Writer
import Metrology.Proofs.Decimal.Numeral
import Metrology.Proofs.Json.Text

/-! What is written can be read. The text of a value hands that value to the machine's stack, whatever
follows the text; so a value that is written alone is read back as it was. -/
namespace Metrology.Json

open Decimal (Numeral Ends)

/-! ### Lexemes -/

theorem lexemes?_eq (cs : List Char) :
    lexemes? cs = match cs.dropWhile isSpace with
      | [] => some []
      | c :: rest => (lexemeAt? (c :: rest)).bind fun p => (lexemes? p.2).map (p.1 :: ·) := by
  rw [lexemes?.eq_def]
  split
  · next h => simp [h]
  · next h =>
    split
    · next hl => simp [h, hl]
    · next hl => simp [h, hl]

theorem lexemes?_blank {c : Char} (hc : isSpace c = true) (cs : List Char) :
    lexemes? (c :: cs) = lexemes? cs := by
  rw [lexemes?_eq, lexemes?_eq cs, List.dropWhile_cons_of_pos hc]

theorem lexemes?_cons {c : Char} {cs rest : List Char} {l : Lexeme} (hc : isSpace c = false)
    (hl : lexemeAt? (c :: cs) = some (l, rest)) :
    lexemes? (c :: cs) = (lexemes? rest).map (l :: ·) := by
  rw [lexemes?_eq, List.dropWhile_cons_of_neg (by simp [hc])]
  simp [hl]

def StartsNumeral (c : Char) : Prop := c.isDigit = true ∨ c = '.' ∨ c = 'e' ∨ c = 'E'

theorem startsNumeral_of_text {n : Numeral} (hn : n.Regular) {c : Char} {cs : List Char}
    (h : n.text = c :: cs) : StartsNumeral c := by
  have hmark {mark : Char} (hm : mark = 'e' ∨ mark = 'E') : StartsNumeral mark := .inr (.inr hm)
  obtain ⟨whole, fraction, power⟩ := n
  obtain ⟨hwhole, hfraction, hpower⟩ := hn
  simp only [Numeral.text, List.append_assoc] at h
  cases whole with
  | cons d ds =>
    obtain ⟨rfl, -⟩ := List.cons.inj h
    exact .inl (hwhole d List.mem_cons_self)
  | nil =>
    cases hfraction with
    | digits =>
      obtain ⟨rfl, -⟩ := List.cons.inj h
      exact .inr (.inl rfl)
    | none =>
      cases hpower with
      | none => cases h
      | plain hm => exact hmark ((List.cons.inj h).1 ▸ hm)
      | signed hm => exact hmark ((List.cons.inj h).1 ▸ hm)

theorem StartsNumeral.isSpace {c : Char} (hc : StartsNumeral c) : isSpace c = false := by
  by_contra h
  simp only [Json.isSpace, Bool.not_eq_false, Bool.or_eq_true, decide_eq_true_eq] at h
  rcases h with ((rfl | rfl) | rfl) | rfl <;> simp [StartsNumeral] at hc

theorem StartsNumeral.lexemeAt? {c : Char} (hc : StartsNumeral c) (cs : List Char) :
    lexemeAt? (c :: cs) = numberAt? false (c :: cs) := by
  unfold Json.lexemeAt?
  split
  case h_12 => rfl
  all_goals
    next heq =>
    obtain ⟨rfl, -⟩ := List.cons.inj heq
    simp [StartsNumeral] at hc

theorem numberAt?_append {n : Numeral} (hn : n.Regular) (hnum : isNumber n = true) (negative : Bool)
    {rest : List Char} (hrest : Ends rest) :
    numberAt? negative (n.text ++ rest) = some (.scalar (.number negative n), rest) := by
  simp [numberAt?, Numeral.read_append hn hrest, hnum, Numeral.length]

theorem lexemeAt?_quote (text : String) (rest : List Char) :
    lexemeAt? ((quote text).toList ++ rest) = some (.scalar (.string text), rest) := by
  have hquoted := quoted?_escape text.toList rest
  simp [quote, lexemeAt?, hquoted, stringOf?, unescape?_escape]

theorem toList_newline (level : Nat) :
    (newline level).toList = '\n' :: List.replicate (2 * level) ' ' := by
  have hpushn (s : String) (n : Nat) : (s.pushn ' ' n).toList = s.toList ++ List.replicate n ' ' := by
    rw [String.pushn_eq_repeat_push]
    induction n with
    | zero => simp [Nat.repeat]
    | succ n ih => simp [Nat.repeat, ih, List.replicate_succ', String.toList_push]
  simp [newline, hpushn]

namespace Machine

def run (m : Machine) (cs : List Char) : Option Machine :=
  (lexemes? cs).bind fun ls => ls.foldlM step m

theorem run_nil (m : Machine) : m.run [] = some m := by
  simp [run, lexemes?_eq]

theorem run_blank (m : Machine) {c : Char} (hc : isSpace c = true) (cs : List Char) :
    m.run (c :: cs) = m.run cs := by
  simp only [run, lexemes?_blank hc]

theorem run_cons (m : Machine) {c : Char} {cs rest : List Char} {l : Lexeme} (hc : isSpace c = false)
    (hl : lexemeAt? (c :: cs) = some (l, rest)) :
    m.run (c :: cs) = (m.step l).bind fun m' => m'.run rest := by
  simp only [run, lexemes?_cons hc hl]
  cases lexemes? rest with
  | none => simp
  | some ls => simp [List.foldlM_cons]

theorem run_newline (m : Machine) (level : Nat) (cs : List Char) :
    m.run ((newline level).toList ++ cs) = m.run cs := by
  have hspaces (n : Nat) : m.run (List.replicate n ' ' ++ cs) = m.run cs := by
    induction n with
    | zero => rfl
    | succ n ih => rw [List.replicate_succ, List.cons_append, run_blank m rfl, ih]
  rw [toList_newline, List.cons_append, run_blank m rfl, hspaces]

theorem run_quote (m : Machine) (text : String) (rest : List Char) :
    m.run ((quote text).toList ++ rest) = (m.step (.scalar (.string text))).bind fun m' => m'.run rest := by
  have hat := lexemeAt?_quote text rest
  simp only [quote, String.toList_ofList, List.cons_append] at hat ⊢
  exact m.run_cons rfl hat

theorem run_number (m : Machine) {n : Numeral} (hn : n.Regular) (hnum : isNumber n = true)
    (negative : Bool) {rest : List Char} (hrest : Ends rest) :
    m.run ((numberText negative n).toList ++ rest) =
      (m.step (.scalar (.number negative n))).bind fun m' => m'.run rest := by
  have hat := numberAt?_append hn hnum negative hrest
  cases negative with
  | true =>
    simp only [numberText, if_true, String.toList_append, String.toList_ofList, List.append_assoc]
    exact m.run_cons rfl hat
  | false =>
    simp only [numberText, Bool.false_eq_true, if_false, String.toList_append, String.toList_ofList,
      String.toList_empty, List.nil_append]
    cases htext : n.text with
    | nil => simp_all [Numeral.text, isNumber]
    | cons c cs =>
      have hc := startsNumeral_of_text hn htext
      rw [htext, List.cons_append] at hat
      rw [List.cons_append]
      exact m.run_cons hc.isSpace (by rw [hc.lexemeAt?, hat])

end Machine

/-! ### Values -/

mutual

/-- Every number inside is one by the rules and has a value, and nothing is unreadable. -/
def Legible : Json → Prop
  | null | bool _ | string _ => True
  | number _ n => n.Regular ∧ isNumber n = true ∧ hasValue n = true
  | array items => ItemsLegible items
  | object fields => FieldsLegible fields
  | unreadable => False

def ItemsLegible : List Json → Prop
  | [] => True
  | v :: vs => v.Legible ∧ ItemsLegible vs

def FieldsLegible : List (String × Json) → Prop
  | [] => True
  | (_, v) :: fields => v.Legible ∧ FieldsLegible fields

end

theorem ends_cons {c : Char} (cs : List Char) (h : c = ',' ∨ c = '\n') : Ends (c :: cs) := by
  intro d hd
  obtain rfl := Option.some.inj hd
  rcases h with rfl | rfl <;> decide

theorem ends_newline (level : Nat) (cs : List Char) : Ends ((newline level).toList ++ cs) := by
  rw [toList_newline]
  exact ends_cons _ (.inr rfl)

theorem ends_prettyItems (level : Nat) (vs : List Json) {rest : List Char} (h : Ends rest) :
    Ends ((prettyItems level vs).toList ++ rest) := by
  cases vs with
  | nil => simpa [prettyItems] using h
  | cons v vs => simpa [prettyItems] using ends_cons _ (.inl rfl)

theorem ends_prettyFields (level : Nat) (fields : List (String × Json)) {rest : List Char} (h : Ends rest) :
    Ends ((prettyFields level fields).toList ++ rest) := by
  cases fields with
  | nil => simpa [prettyFields] using h
  | cons f fields => simpa [prettyFields] using ends_cons _ (.inl rfl)

namespace Machine

def keyed (fields : List (String × Json)) : List (Key × Json) := fields.map fun f => (some f.1, f.2)

theorem objectOf_keyed (fields : List (String × Json)) : objectOf (keyed fields).reverse = .object fields := by
  have hmapM : ((keyed fields).mapM fun f => f.1.map fun k => (k, f.2)) = some fields := by
    induction fields with
    | nil => rfl
    | cons f fields ih =>
      simp only [keyed, List.map_cons, List.mapM_cons] at ih ⊢
      rw [ih]
      rfl
  simp [objectOf, hmapM]

theorem step_value {m : Machine} (hm : m.phase = .value ∨ m.phase = .firstItem) {l : Lexeme}
    (hl : l ≠ .closeArray) : m.step l = startValue m.stack l := by
  rcases hm with hm | hm
  · simp [step, hm]
  · cases l <;> simp_all [step]

theorem step_scalar {m : Machine} (hm : m.phase = .value ∨ m.phase = .firstItem) (v : Json) :
    m.step (.scalar v) = deliver m.stack v :=
  step_value hm (by simp)

theorem run_closeArray (done : List Json) (stack : List Frame) {phase : Phase}
    (hphase : phase = .firstItem ∨ phase = .separator) (rest : List Char) :
    run ⟨.items done :: stack, phase⟩ (']' :: rest) =
      (deliver stack (.array done.reverse)).bind fun m => m.run rest := by
  rw [run_cons _ rfl rfl]
  rcases hphase with rfl | rfl <;> rfl

theorem run_closeObject (fields : List (String × Json)) (stack : List Frame) {phase : Phase}
    (hphase : phase = .firstKey ∨ phase = .separator) (rest : List Char) :
    run ⟨.fields (keyed fields).reverse :: stack, phase⟩ ('\x7d' :: rest) =
      (deliver stack (.object fields)).bind fun m => m.run rest := by
  rw [run_cons _ rfl rfl, ← objectOf_keyed]
  rcases hphase with rfl | rfl <;> rfl

theorem run_key (done : List (Key × Json)) (stack : List Frame) {phase : Phase}
    (hphase : phase = .firstKey ∨ phase = .key) (key : String) (rest : List Char) :
    run ⟨.fields done :: stack, phase⟩ ((quote key).toList ++ ':' :: ' ' :: rest) =
      run ⟨.entry done (some key) :: stack, .value⟩ rest := by
  have hstep : step ⟨.fields done :: stack, phase⟩ (.scalar (.string key)) =
      some ⟨.fields done :: stack, .colon (some key)⟩ := by
    rcases hphase with rfl | rfl <;> rfl
  rw [run_quote, hstep, Option.bind_some, run_cons _ rfl rfl]
  exact run_blank _ rfl rest

mutual

/-- The text of a value hands it to the innermost open container. -/
theorem run_pretty (level : Nat) (v : Json) (hv : v.Legible) {m : Machine}
    (hm : m.phase = .value ∨ m.phase = .firstItem) {rest : List Char} (hrest : Ends rest) :
    m.run ((pretty level v).toList ++ rest) = (deliver m.stack v).bind fun m' => m'.run rest := by
  match v with
  | .null =>
    simp only [pretty, String.reduceToList, List.cons_append, List.nil_append]
    rw [run_cons m rfl rfl, step_scalar hm]
  | .bool true =>
    simp only [pretty, if_true, String.reduceToList, List.cons_append, List.nil_append]
    rw [run_cons m rfl rfl, step_scalar hm]
  | .bool false =>
    simp only [pretty, Bool.false_eq_true, if_false, String.reduceToList, List.cons_append, List.nil_append]
    rw [run_cons m rfl rfl, step_scalar hm]
  | .number negative n =>
    rw [pretty, run_number m hv.1 hv.2.1 negative hrest, step_scalar hm]
  | .string text => rw [pretty, run_quote, step_scalar hm]
  | .array [] =>
    simp only [pretty, String.reduceToList, List.cons_append, List.nil_append]
    rw [run_cons m rfl rfl, step_value hm (by simp)]
    exact run_closeArray [] m.stack (.inl rfl) rest
  | .array (v :: vs) =>
    rw [Legible, ItemsLegible] at hv
    have hend := ends_newline level (']' :: rest)
    simp only [pretty, String.toList_append, String.reduceToList, List.append_assoc, List.cons_append,
      List.nil_append]
    rw [run_cons m rfl rfl, step_value hm (by simp)]
    change run ⟨.items [] :: m.stack, .firstItem⟩ _ = _
    rw [run_newline]
    rw [run_pretty (level + 1) v hv.1 (.inr rfl) (ends_prettyItems _ _ hend)]
    change run ⟨.items [v] :: m.stack, .separator⟩ _ = _
    rw [run_prettyItems (level + 1) vs hv.2 [v] m.stack hend, run_newline]
    have hclose := run_closeArray (vs.reverse ++ [v]) m.stack (.inr rfl) rest
    rw [List.reverse_append, List.reverse_reverse] at hclose
    exact hclose
  | .object [] =>
    simp only [pretty, String.reduceToList, List.cons_append, List.nil_append]
    rw [run_cons m rfl rfl, step_value hm (by simp)]
    exact run_closeObject [] m.stack (.inl rfl) rest
  | .object ((key, v) :: fields) =>
    rw [Legible, FieldsLegible] at hv
    have hend := ends_newline level ('\x7d' :: rest)
    simp only [pretty, String.toList_append, String.reduceToList, List.append_assoc, List.cons_append,
      List.nil_append]
    rw [run_cons m rfl rfl, step_value hm (by simp)]
    change run ⟨.fields [] :: m.stack, .firstKey⟩ _ = _
    rw [run_newline, run_key _ _ (.inl rfl)]
    rw [run_pretty (level + 1) v hv.1 (.inl rfl) (ends_prettyFields _ _ hend)]
    change run ⟨.fields [(some key, v)] :: m.stack, .separator⟩ _ = _
    rw [run_prettyFields (level + 1) fields hv.2 _ m.stack hend, run_newline]
    have hclose := run_closeObject ((key, v) :: fields) m.stack (.inr rfl) rest
    rw [keyed, List.map_cons, List.reverse_cons, ← keyed] at hclose
    exact hclose

theorem run_prettyItems (level : Nat) (vs : List Json) (hvs : ItemsLegible vs) (done : List Json)
    (stack : List Frame) {rest : List Char} (hrest : Ends rest) :
    run ⟨.items done :: stack, .separator⟩ ((prettyItems level vs).toList ++ rest) =
      run ⟨.items (vs.reverse ++ done) :: stack, .separator⟩ rest := by
  match vs with
  | [] => rfl
  | v :: vs =>
    rw [ItemsLegible] at hvs
    simp only [prettyItems, String.toList_append, String.reduceToList, List.append_assoc, List.cons_append,
      List.nil_append]
    rw [run_cons _ rfl rfl]
    change run ⟨.items done :: stack, .value⟩ _ = _
    rw [run_newline]
    rw [run_pretty level v hvs.1 (.inl rfl) (ends_prettyItems _ _ hrest)]
    change run ⟨.items (v :: done) :: stack, .separator⟩ _ = _
    rw [run_prettyItems level vs hvs.2 (v :: done) stack hrest]
    simp

theorem run_prettyFields (level : Nat) (fields : List (String × Json)) (hfields : FieldsLegible fields)
    (done : List (Key × Json)) (stack : List Frame) {rest : List Char} (hrest : Ends rest) :
    run ⟨.fields done :: stack, .separator⟩ ((prettyFields level fields).toList ++ rest) =
      run ⟨.fields ((keyed fields).reverse ++ done) :: stack, .separator⟩ rest := by
  match fields with
  | [] => rfl
  | (key, v) :: fields =>
    rw [FieldsLegible] at hfields
    simp only [prettyFields, String.toList_append, String.reduceToList, List.append_assoc, List.cons_append,
      List.nil_append]
    rw [run_cons _ rfl rfl]
    change run ⟨.fields done :: stack, .key⟩ _ = _
    rw [run_newline, run_key _ _ (.inr rfl)]
    rw [run_pretty level v hfields.1 (.inl rfl) (ends_prettyFields _ _ hrest)]
    change run ⟨.fields ((some key, v) :: done) :: stack, .separator⟩ _ = _
    rw [run_prettyFields level fields hfields.2 _ stack hrest]
    simp [keyed]

end

end Machine

def Machine.value? (m : Machine) : Option Json :=
  match m.phase with
  | .done v => some v
  | _ => none

theorem parse?_eq (text : String) : parse? text = (Machine.start.run text.toList).bind Machine.value? := by
  rw [parse?, Machine.run, Option.bind_assoc]
  rfl

/-- A value is read back from its text. -/
theorem parse?_render {v : Json} (hv : v.Legible) : parse? v.render = some v := by
  have hrun := Machine.run_pretty 0 v hv (m := Machine.start) (.inl rfl) Decimal.ends_nil
  rw [List.append_nil] at hrun
  rw [parse?_eq, render, hrun]
  simp [Machine.deliver, Machine.start, Machine.run_nil, Machine.value?]

end Metrology.Json

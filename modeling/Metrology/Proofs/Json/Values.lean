import Mathlib.Tactic.IntervalCases
import Metrology.Proofs.Json.Reading

/-! Values that are read in full: how deep their containers go, and the numbers among them. -/
namespace Metrology.Json

open Decimal (Numeral)

mutual

def depth : Json → Nat
  | null | bool _ | number _ _ | string _ | unreadable => 0
  | array items => itemsDepth items + 1
  | object fields => fieldsDepth fields + 1

def itemsDepth : List Json → Nat
  | [] => 0
  | v :: vs => max v.depth (itemsDepth vs)

def fieldsDepth : List (String × Json) → Nat
  | [] => 0
  | (_, v) :: fields => max v.depth (fieldsDepth fields)

end

mutual

/-- A legible value is sound wherever there is room for its depth. -/
theorem isSound_of_legible (v : Json) (hv : v.Legible) {room : Nat} (hroom : v.depth ≤ room) :
    v.isSound room = true := by
  match v with
  | null | bool _ | string _ => rfl
  | number _ n => exact hv.2.2
  | array items =>
    rw [depth] at hroom
    rw [isSound, itemsSound_of_legible items hv (by omega), Bool.and_true, decide_eq_true_eq]
    omega
  | object fields =>
    rw [depth] at hroom
    rw [isSound, fieldsSound_of_legible fields hv (by omega), Bool.and_true, decide_eq_true_eq]
    omega

theorem itemsSound_of_legible (vs : List Json) (hvs : ItemsLegible vs) {room : Nat}
    (hroom : itemsDepth vs ≤ room) : itemsSound room vs = true := by
  match vs with
  | [] => rfl
  | v :: vs =>
    rw [itemsDepth] at hroom
    rw [itemsSound, isSound_of_legible v hvs.1 (by omega), itemsSound_of_legible vs hvs.2 (by omega),
      Bool.and_self]

theorem fieldsSound_of_legible (fields : List (String × Json)) (hfields : FieldsLegible fields)
    {room : Nat} (hroom : fieldsDepth fields ≤ room) : fieldsSound room fields = true := by
  match fields with
  | [] => rfl
  | (_, v) :: fields =>
    rw [fieldsDepth] at hroom
    rw [fieldsSound, isSound_of_legible v hfields.1 (by omega),
      fieldsSound_of_legible fields hfields.2 (by omega), Bool.and_self]

end

/-! ### Whole numbers -/

theorem toDigits_eq_zero {n : Nat} {ds : List Char} (h : Nat.toDigits 10 n = '0' :: ds) : n = 0 := by
  induction n using Nat.strong_induction_on generalizing ds with
  | h n ih =>
    by_cases hn : n < 10
    · rw [Nat.toDigits_of_lt_base hn] at h
      obtain ⟨hd, -⟩ := List.cons.inj h
      interval_cases n <;> first | rfl | cases hd
    · rw [Nat.toDigits_of_base_le (by omega) (by omega)] at h
      cases hq : Nat.toDigits 10 (n / 10) with
      | nil => exact absurd hq Nat.toDigits_ne_nil
      | cons c cs =>
        rw [hq] at h
        obtain ⟨rfl, -⟩ := List.cons.inj h
        have := ih (n / 10) (by omega) hq
        omega

theorem ofNat_eq (n : Nat) : ofNat n = number false ⟨Nat.toDigits 10 n, [], []⟩ := by
  rw [ofNat, Nat.toString_eq_ofList_toDigits, String.toList_ofList]

theorem mantissa_toDigits (n : Nat) : Numeral.mantissa ⟨Nat.toDigits 10 n, [], []⟩ = n := by
  rw [Numeral.mantissa, List.drop_nil, List.append_nil]
  exact Nat.ofDigitChars_ten_toDigits

theorem isNumber_toDigits (n : Nat) : isNumber ⟨Nat.toDigits 10 n, [], []⟩ = true := by
  unfold isNumber
  split
  · next h => exact absurd h Nat.toDigits_ne_nil
  · next h =>
    obtain rfl := toDigits_eq_zero h
    cases h
  · rfl

theorem legible_ofNat {n : Nat} (hn : n < Decimal.wordLimit) : (ofNat n).Legible := by
  rw [ofNat_eq]
  refine ⟨⟨fun c hc => ?_, .none, .none⟩, isNumber_toDigits n, ?_⟩
  · exact Nat.isDigit_of_mem_toDigits (by omega) (by omega) hc
  · simp [hasValue, Numeral.isWhole, mantissa_toDigits, hn]

theorem toNat?_ofNat {n limit : Nat} (hn : n < limit) : (ofNat n).toNat? limit = some n := by
  simp [ofNat_eq, toNat?, Numeral.isWhole, mantissa_toDigits, hn]

/-! ### Floats -/

/-- The text of a float denotes that float. This is not so of every finite float: reading rounds twice. -/
def ReadsBack (x : Float) : Prop := (parse? (ofFloat x).render).bind toFloat? = some x

theorem parse?_number {negative : Bool} {n : Numeral} (hn : n.Regular) (hnum : isNumber n = true) :
    parse? (number negative n).render = some (number negative n) := by
  have hrun := Machine.start.run_number hn hnum negative Decimal.ends_nil
  rw [List.append_nil] at hrun
  rw [parse?_eq, render, pretty, hrun]
  simp [Machine.step, Machine.startValue, Machine.deliver, Machine.start, Machine.run_nil,
    Machine.value?]

theorem isNumber_of_parse? {negative : Bool} {n : Numeral} (hn : n.Regular) {v : Json}
    (h : parse? (number negative n).render = some v) : isNumber n = true := by
  by_contra hnum
  have hat (negative : Bool) : numberAt? negative n.text = none := by
    have hread := Numeral.read_append hn Decimal.ends_nil
    rw [List.append_nil] at hread
    simp [numberAt?, hread, hnum]
  have hstuck {c : Char} {cs : List Char} (hc : isSpace c = false) (hl : lexemeAt? (c :: cs) = none) :
      Machine.start.run (c :: cs) = none := by
    rw [Machine.run, lexemes?_eq, List.dropWhile_cons_of_neg (by simp [hc])]
    simp [hl]
  rw [parse?_eq, render, pretty] at h
  cases negative with
  | true =>
    simp only [numberText, if_true, String.toList_append, String.toList_ofList, String.reduceToList,
      List.cons_append, List.nil_append] at h
    rw [hstuck (c := '-') rfl (hat true)] at h
    cases h
  | false =>
    simp only [numberText, Bool.false_eq_true, if_false, String.toList_append, String.toList_ofList,
      String.toList_empty, List.nil_append] at h
    cases htext : n.text with
    | nil =>
      rw [htext, Machine.run_nil] at h
      cases h
    | cons c cs =>
      have hc := startsNumeral_of_text hn htext
      rw [htext, hstuck hc.isSpace (by rw [hc.lexemeAt?, ← htext, hat false])] at h
      cases h

theorem ReadsBack.spec {x : Float} (h : ReadsBack x) :
    (ofFloat x).Legible ∧ (ofFloat x).toFloat? = some x := by
  unfold ReadsBack ofFloat at *
  cases hb : Decimal.Binary.ofFloat? x with
  | none =>
    rw [hb, parse?_render (v := .null) trivial] at h
    cases h
  | some b =>
    simp only [hb] at h ⊢
    have hn := Numeral.regular_read (floatLayout.finite { b with negative := false }).toList
    obtain ⟨v, hv, -⟩ := Option.bind_eq_some_iff.1 h
    have hnum := isNumber_of_parse? hn hv
    rw [parse?_number hn hnum, Option.bind_some] at h
    obtain ⟨y, hy, -⟩ := Option.map_eq_some_iff.1 h
    exact ⟨⟨hn, hnum, by simp [hasValue, hy]⟩, h⟩

end Metrology.Json

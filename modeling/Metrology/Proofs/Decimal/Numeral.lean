import Mathlib.Data.List.TakeWhile
import Mathlib.Tactic.SplitIfs
import Metrology.Decimal.Numeral

/-! Numerals in a text. A numeral is taken whole from the front of a text, if nothing follows that could
belong to it; so what has been read once is read again as it was. What is read is the longest numeral
at the front. -/
namespace Metrology.Decimal

def IsDigits (cs : List Char) : Prop := ∀ c ∈ cs, c.isDigit = true

def Stops (cs : List Char) : Prop := ∀ c ∈ cs.head?, c.isDigit = false

theorem takeWhile_isDigit {ds rest : List Char} (hds : IsDigits ds) (hrest : Stops rest) :
    (ds ++ rest).takeWhile Char.isDigit = ds := by
  have hnone : rest.takeWhile Char.isDigit = [] := by
    cases rest with
    | nil => rfl
    | cons c rest => simp [hrest c rfl]
  rw [List.takeWhile_append_of_pos hds, hnone, List.append_nil]

theorem isDigits_takeWhile (cs : List Char) : IsDigits (cs.takeWhile Char.isDigit) :=
  fun _ hc => List.mem_takeWhile_imp hc

/-- Digits behind a point, or nothing. -/
inductive IsFraction : List Char → Prop
  | none : IsFraction []
  | digits {ds : List Char} : ds ≠ [] → IsDigits ds → IsFraction ('.' :: ds)

/-- A mark with digits behind it, which may have a sign, or nothing. -/
inductive IsPower : List Char → Prop
  | none : IsPower []
  | plain {mark : Char} {ds : List Char} : mark = 'e' ∨ mark = 'E' → ds ≠ [] → IsDigits ds →
    IsPower (mark :: ds)
  | signed {mark sign : Char} {ds : List Char} : mark = 'e' ∨ mark = 'E' → sign = '+' ∨ sign = '-' →
    ds ≠ [] → IsDigits ds → IsPower (mark :: sign :: ds)

theorem isFraction_fractionText (cs : List Char) : IsFraction (fractionText cs) := by
  unfold fractionText
  split
  · next cs =>
    split
    · exact .none
    · next ds hne => exact .digits (by simpa using hne) (isDigits_takeWhile cs)
  · exact .none

theorem isPower_exponentPart (cs : List Char) : IsPower (exponentPart cs) := by
  unfold exponentPart
  split
  · next c cs =>
    split_ifs with hmark
    · split
      · next s cs' =>
        split_ifs with hsign
        · split
          · exact .none
          · next ds hne => exact .signed hmark hsign (by simpa using hne) (isDigits_takeWhile cs')
        · split
          · exact .none
          · next ds hne => exact .plain hmark (by simpa using hne) (isDigits_takeWhile (s :: cs'))
      · exact .none
    · exact .none
  · exact .none

def Ends (cs : List Char) : Prop :=
  ∀ c ∈ cs.head?, c.isDigit = false ∧ c ≠ '.' ∧ c ≠ 'e' ∧ c ≠ 'E'

theorem ends_nil : Ends [] := fun _ hc => by cases hc

theorem Ends.stops {cs : List Char} (h : Ends cs) : Stops cs := fun c hc => (h c hc).1

theorem IsPower.stops {ps rest : List Char} (h : IsPower ps) (hrest : Ends rest) : Stops (ps ++ rest) := by
  have hmark {mark : Char} (hm : mark = 'e' ∨ mark = 'E') (cs : List Char) : Stops (mark :: cs) := by
    rintro c hc
    obtain rfl := Option.some.inj hc
    rcases hm with rfl | rfl <;> rfl
  cases h with
  | none => exact hrest.stops
  | plain hm _ _ => exact hmark hm _
  | signed hm _ _ _ => exact hmark hm _

theorem IsPower.no_point {ps rest : List Char} (h : IsPower ps) (hrest : Ends rest) :
    (ps ++ rest).head? ≠ some '.' := by
  cases h with
  | none => exact fun hdot => (hrest '.' hdot).2.1 rfl
  | plain hm _ _ => rcases hm with rfl | rfl <;> simp
  | signed hm _ _ _ => rcases hm with rfl | rfl <;> simp

theorem IsFraction.stops {fs rest : List Char} (h : IsFraction fs) (hrest : Stops rest) :
    Stops (fs ++ rest) := by
  cases h with
  | none => exact hrest
  | digits _ _ =>
    intro c hc
    obtain rfl := Option.some.inj hc
    rfl

theorem fractionText_append {fs rest : List Char} (h : IsFraction fs) (hrest : Stops rest)
    (hpoint : rest.head? ≠ some '.') : fractionText (fs ++ rest) = fs := by
  cases h with
  | none =>
    cases rest with
    | nil => rfl
    | cons c rest =>
      rw [List.nil_append, fractionText]
      rintro cs heq
      simp [(List.cons.inj heq).1] at hpoint
  | digits hne hds =>
    simp only [List.cons_append, fractionText, takeWhile_isDigit hds hrest]

theorem exponentPart_append {ps rest : List Char} (h : IsPower ps) (hrest : Ends rest) :
    exponentPart (ps ++ rest) = ps := by
  cases h with
  | none =>
    cases rest with
    | nil => rfl
    | cons c rest =>
      obtain ⟨_, _, he, hE⟩ := hrest c rfl
      simp [exponentPart, he, hE]
  | @plain mark ds hm hne hds =>
    cases ds with
    | nil => exact absurd rfl hne
    | cons d ds =>
      have hd : d.isDigit = true := hds d List.mem_cons_self
      have hsign : ¬ (d = '+' ∨ d = '-') := by
        rintro (rfl | rfl) <;> cases hd
      have htake := takeWhile_isDigit hds hrest.stops
      simp only [List.cons_append] at htake
      simp [exponentPart, hm, hsign, htake]
  | signed hm hs hne hds =>
    have htake := takeWhile_isDigit hds hrest.stops
    simp only [List.cons_append, exponentPart, hm, if_true, hs, htake]

section Longest

theorem IsDigits.length_le {ds : List Char} (h : IsDigits ds) (rest : List Char) :
    ds.length ≤ ((ds ++ rest).takeWhile Char.isDigit).length := by
  rw [List.takeWhile_append_of_pos h, List.length_append]
  exact Nat.le_add_right _ _

theorem IsDigits.takeWhile_ne_nil {ds : List Char} (h : IsDigits ds) (hne : ds ≠ []) (rest : List Char) :
    (ds ++ rest).takeWhile Char.isDigit ≠ [] := by
  rw [List.takeWhile_append_of_pos h]
  exact List.append_ne_nil_of_left_ne_nil hne _

theorem exponentPart_signed {mark sign : Char} {cs : List Char} (hm : mark = 'e' ∨ mark = 'E')
    (hs : sign = '+' ∨ sign = '-') (hne : cs.takeWhile Char.isDigit ≠ []) :
    exponentPart (mark :: sign :: cs) = mark :: sign :: cs.takeWhile Char.isDigit := by
  rw [exponentPart, if_pos hm, if_pos hs]
  split
  · contradiction
  · rfl

theorem exponentPart_plain {mark : Char} {cs : List Char} (hm : mark = 'e' ∨ mark = 'E')
    (hne : cs.takeWhile Char.isDigit ≠ []) :
    exponentPart (mark :: cs) = mark :: cs.takeWhile Char.isDigit := by
  cases cs with
  | nil => exact absurd rfl hne
  | cons d cs =>
    have hd : ¬ (d = '+' ∨ d = '-') := by
      rintro (rfl | rfl) <;> exact hne rfl
    rw [exponentPart, if_pos hm]
    simp only [hd, if_false]

theorem IsPower.length_le {ps : List Char} (h : IsPower ps) (rest : List Char) :
    ps.length ≤ (exponentPart (ps ++ rest)).length := by
  cases h with
  | none => exact Nat.zero_le _
  | plain hm hne hds =>
    rw [List.cons_append, exponentPart_plain hm (hds.takeWhile_ne_nil hne rest)]
    exact Nat.succ_le_succ (hds.length_le rest)
  | signed hm hs hne hds =>
    rw [List.cons_append, List.cons_append, exponentPart_signed hm hs (hds.takeWhile_ne_nil hne rest)]
    exact Nat.succ_le_succ (Nat.succ_le_succ (hds.length_le rest))

theorem fractionText_point {cs : List Char} (hne : cs.takeWhile Char.isDigit ≠ []) :
    fractionText ('.' :: cs) = '.' :: cs.takeWhile Char.isDigit := by
  rw [fractionText]
  split
  · contradiction
  · rfl

/-- A power that is written ends the digits before it. -/
theorem IsPower.stops_of_ne_nil {ps : List Char} (h : IsPower ps) (hne : ps ≠ []) (rest : List Char) :
    Stops (ps ++ rest) ∧ (ps ++ rest).head? ≠ some '.' := by
  have hmark {mark : Char} (hm : mark = 'e' ∨ mark = 'E') (cs : List Char) :
      Stops (mark :: cs) ∧ (mark :: cs).head? ≠ some '.' := by
    rcases hm with rfl | rfl <;> simp [Stops]
  cases h with
  | none => exact absurd rfl hne
  | plain hm _ _ => exact hmark hm _
  | signed hm _ _ _ => exact hmark hm _

theorem prefix_append_drop {xs ys cs : List Char} (hx : xs <+: cs) (hy : ys <+: cs.drop xs.length) :
    xs ++ ys <+: cs := by
  obtain ⟨rest, rfl⟩ := hx
  rw [List.drop_left] at hy
  exact (List.prefix_append_right_inj xs).2 hy

theorem fractionText_isPrefix (cs : List Char) : fractionText cs <+: cs := by
  unfold fractionText
  split
  · next cs =>
    split
    · exact List.nil_prefix
    · exact (List.prefix_cons_inj '.').2 (List.takeWhile_prefix _)
  · exact List.nil_prefix

theorem exponentPart_isPrefix (cs : List Char) : exponentPart cs <+: cs := by
  unfold exponentPart
  split
  · next c cs =>
    split_ifs with hmark
    · split
      · next s cs' =>
        split_ifs with hsign
        · split
          · exact List.nil_prefix
          · exact (List.prefix_cons_inj c).2 ((List.prefix_cons_inj s).2 (List.takeWhile_prefix _))
        · split
          · exact List.nil_prefix
          · exact (List.prefix_cons_inj c).2 (List.takeWhile_prefix _)
      · exact List.nil_prefix
    · exact List.nil_prefix
  · exact List.nil_prefix

end Longest

namespace Numeral

structure Regular (n : Numeral) : Prop where
  whole : IsDigits n.whole
  fraction : IsFraction n.fraction
  power : IsPower n.power

theorem regular_read (cs : List Char) : (read cs).Regular where
  whole := isDigits_takeWhile cs
  fraction := isFraction_fractionText _
  power := isPower_exponentPart _

theorem read_append {n : Numeral} (h : n.Regular) {rest : List Char} (hrest : Ends rest) :
    read (n.text ++ rest) = n := by
  have hpower := h.power.stops hrest
  have hwhole := takeWhile_isDigit h.whole (h.fraction.stops hpower)
  simp only [read, text, List.append_assoc, hwhole, List.drop_left,
    fractionText_append h.fraction hpower (h.power.no_point hrest), exponentPart_append h.power hrest]

def tail (cs : List Char) : List Char :=
  fractionText cs ++ exponentPart (cs.drop (fractionText cs).length)

theorem text_read (cs : List Char) :
    (read cs).text = cs.takeWhile Char.isDigit ++ tail (cs.drop (cs.takeWhile Char.isDigit).length) := by
  rw [text, List.append_assoc]
  rfl

theorem length_le_tail {fs ps : List Char} (hf : IsFraction fs) (hp : IsPower ps) (rest : List Char) :
    (fs ++ ps).length ≤ (tail (fs ++ (ps ++ rest))).length := by
  rw [tail, List.length_append, List.length_append]
  rcases eq_or_ne ps [] with rfl | hne
  · refine le_trans ?_ (Nat.le_add_right _ _)
    cases hf with
    | none => exact Nat.zero_le _
    | digits hne hds =>
      rw [List.cons_append, fractionText_point (hds.takeWhile_ne_nil hne _)]
      exact Nat.succ_le_succ (hds.length_le _)
  · obtain ⟨hstops, hpoint⟩ := hp.stops_of_ne_nil hne rest
    rw [fractionText_append hf hstops hpoint, List.drop_left]
    exact Nat.add_le_add_left (hp.length_le rest) _

/-- No longer numeral stands at the front of a text than the one that is read. -/
theorem length_le_read {n : Numeral} (h : n.Regular) (rest : List Char) :
    n.text.length ≤ (read (n.text ++ rest)).text.length := by
  rw [text_read]
  obtain ⟨whole, fraction, power⟩ := n
  simp only [text, List.append_assoc, List.length_append]
  by_cases hbare : fraction = [] ∧ power = []
  · obtain ⟨rfl, rfl⟩ := hbare
    exact (h.whole.length_le rest).trans (Nat.le_add_right _ _)
  · have hstops : Stops (fraction ++ (power ++ rest)) := by
      rcases eq_or_ne power [] with rfl | hne
      · cases h.fraction with
        | none => exact absurd ⟨rfl, rfl⟩ hbare
        | digits _ _ => simp [Stops]
      · exact h.fraction.stops (h.power.stops_of_ne_nil hne rest).1
    rw [takeWhile_isDigit h.whole hstops, List.drop_left]
    have htail := length_le_tail h.fraction h.power rest
    rw [List.length_append] at htail
    exact Nat.add_le_add_left htail _

theorem text_read_isPrefix (cs : List Char) : (read cs).text <+: cs := by
  rw [text_read]
  exact prefix_append_drop (List.takeWhile_prefix _)
    (prefix_append_drop (fractionText_isPrefix _) (exponentPart_isPrefix _))

end Numeral

end Metrology.Decimal

import Mathlib.Algebra.Order.Field.Power
import Mathlib.Tactic.GCongr
import Mathlib.Tactic.Linarith
import Mathlib.Tactic.NormNum
import Mathlib.Tactic.Positivity
import Mathlib.Tactic.Ring
import Metrology.Proofs.Decimal.Binary

/-! Rounding to binary64. A mantissa with a round bit and a sticky bit stands for an exact value, and
shifting keeps that value; so a value that is rounded once gives the float nearest to it. -/
namespace Metrology.Decimal

open Float.Model Float.Model.UnpackedFloat

namespace Binary

def value (b : Binary) : ℚ := (if b.negative then -1 else 1) * b.m * 2 ^ b.q

/-- The form in which floats have their parts: as many bits of mantissa as the exponent allows. -/
structure Canonical (m : ℕ) (q : ℤ) : Prop where
  fits : m < 2 ^ 53
  least : -1074 ≤ q
  most : q ≤ 971
  normal : q = -1074 ∨ 2 ^ 52 ≤ m

theorem canonical_of_ofFloat? {x : Float} {b : Binary} (h : ofFloat? x = some b) :
    Canonical b.m b.q := by
  have hfraction : x.toBits.toNat % 2 ^ 52 < 2 ^ 52 := Nat.mod_lt _ (by decide)
  have hexponent : x.toBits.toNat / 2 ^ 52 % 2 ^ 11 < 2 ^ 11 := Nat.mod_lt _ (by decide)
  unfold ofFloat? at h
  simp only [Nat.pow_eq, leastExponent] at h
  split_ifs at h with hmax hmin
  · cases h
    exact ⟨by simp only; omega, le_rfl, by simp only; omega, .inl rfl⟩
  · cases h
    exact ⟨by simp only; omega, by simp only; omega, by simp only; omega, .inr (Nat.le_add_left _ _)⟩

theorem value_of_nonneg {b : Binary} (hb : b.negative = false) : b.value = b.m * 2 ^ b.q := by
  rw [value, hb]
  simp

theorem value_eq_intCast_mul {b : Binary} {q : ℤ} (hq : q ≤ b.q) : ∃ k : ℤ, b.value = k * 2 ^ q := by
  obtain ⟨d, hd⟩ := Int.eq_ofNat_of_zero_le (sub_nonneg.2 hq)
  refine ⟨(if b.negative then -1 else 1) * b.m * 2 ^ d, ?_⟩
  rw [value, show b.q = d + q by omega, zpow_add₀ two_ne_zero, zpow_natCast]
  push_cast
  ring

theorem value_lt_of_q_lt {b : Binary} {q : ℤ} (hm : b.m < 2 ^ 53) (hq : b.q < q) :
    b.value < 2 ^ 52 * 2 ^ q := by
  have hnonneg : (0 : ℚ) ≤ b.m * 2 ^ b.q := by positivity
  have hstep : (2 : ℚ) ^ b.q ≤ 2 ^ (q - 1) := zpow_le_zpow_right₀ one_le_two (by omega)
  have hm : (b.m : ℚ) < 2 ^ 53 := by exact_mod_cast hm
  calc b.value ≤ b.m * 2 ^ b.q := by rw [value, mul_assoc]; split_ifs <;> linarith
    _ ≤ b.m * 2 ^ (q - 1) := by gcongr
    _ < 2 ^ 53 * 2 ^ (q - 1) := by gcongr
    _ = 2 ^ 52 * 2 ^ q := by rw [zpow_sub_one₀ two_ne_zero]; ring

end Binary

/-- Half a unit above the greatest finite float. -/
def overflow : ℚ := (2 ^ 53 - 1 / 2) * 2 ^ (971 : ℤ)

/-- No float is nearer to a value; one with an odd mantissa leaves no other as near. -/
def Binary.Closest (b : Binary) (v : ℚ) : Prop :=
  ∀ y c, ofFloat? y = some c → |b.value - v| < |c.value - v| ∨
    |b.value - v| = |c.value - v| ∧ (c.value = b.value ∨ b.m % 2 = 0)

/-- The float that stands for a value that is not negative: the nearest one, of two that are equally
near the one with the even mantissa, and infinity from `overflow` on. -/
inductive Nearest (v : ℚ) (x : Float) : Prop
  | finite (b : Binary) : v < overflow → Binary.ofFloat? x = some b → b.negative = false →
      b.Closest v → Nearest v x
  | infinite : overflow ≤ v → x = 1 / 0 → Nearest v x

/-- `n` is the whole number nearest to `r`, and the even one of two. -/
structure RoundsTo (r : ℚ) (n : ℕ) : Prop where
  near : |(n : ℚ) - r| ≤ 1 / 2
  even : |(n : ℚ) - r| = 1 / 2 → n % 2 = 0

namespace RoundsTo

variable {r : ℚ} {n : ℕ}

theorem near_or_even (h : RoundsTo r n) (k : ℤ) :
    |(n : ℚ) - r| < |(k : ℚ) - r| ∨ |(n : ℚ) - r| = |(k : ℚ) - r| ∧ (k = n ∨ n % 2 = 0) := by
  by_cases hk : k = n
  · exact .inr ⟨by simp [hk], .inl hk⟩
  · have hone : (1 : ℚ) ≤ |(k : ℚ) - n| := by exact_mod_cast Int.one_le_abs (sub_ne_zero.2 hk)
    have htriangle : |(k : ℚ) - n| ≤ |(k : ℚ) - r| + |(n : ℚ) - r| := by
      rw [abs_sub_comm (n : ℚ) r]
      exact abs_sub_le _ _ _
    have hhalf := h.near
    rcases (show |(n : ℚ) - r| ≤ |(k : ℚ) - r| by linarith).lt_or_eq with hlt | heq
    · exact .inl hlt
    · exact .inr ⟨heq, .inr (h.even (by linarith))⟩

theorem of_lt (h : |(n : ℚ) - r| < 1 / 2) : RoundsTo r n := ⟨h.le, fun heq => absurd heq h.ne⟩

theorem le_add (h : RoundsTo r n) : (n : ℚ) ≤ r + 1 / 2 := by linarith [(abs_le.1 h.near).2]

theorem le_natCast_add (h : RoundsTo r n) : r ≤ n + 1 / 2 := by linarith [(abs_le.1 h.near).1]

theorem natCast_le (h : RoundsTo r n) {k : ℕ} (hr : (k : ℚ) ≤ r) : k ≤ n := by
  have hlt : (k : ℚ) < n + 1 := by linarith [h.le_natCast_add]
  exact Nat.lt_succ_iff.1 (by exact_mod_cast hlt)

theorem le_natCast (h : RoundsTo r n) {k : ℕ} (hr : r < k) : n ≤ k := by
  have hlt : (n : ℚ) < k + 1 := by linarith [h.le_add]
  exact Nat.lt_succ_iff.1 (by exact_mod_cast hlt)

theorem lt_sub_half (h : RoundsTo r n) {k : ℕ} (hk : k % 2 = 0) (hn : n < k) : r < k - 1 / 2 := by
  have hle := h.le_natCast_add
  have hone : (n : ℚ) + 1 ≤ k := by exact_mod_cast hn
  refine lt_of_le_of_ne (by linarith) fun heq => ?_
  have hnext : n + 1 = k := by exact_mod_cast (show (n : ℚ) + 1 = k by linarith)
  have heven := h.even (by rw [abs_sub_comm, heq, abs_of_nonneg] <;> linarith)
  omega

theorem near_of_lt (h : RoundsTo r n) {k : ℤ} {s : ℚ} (hs : s < k) (hr : (k : ℚ) ≤ r) :
    |(n : ℚ) - r| < |s - r| := by
  have hk : |(n : ℚ) - r| ≤ |(k : ℚ) - r| := by
    rcases h.near_or_even k with hlt | ⟨heq, _⟩
    exacts [hlt.le, heq.le]
  rw [abs_of_nonpos (a := (k : ℚ) - r) (by linarith)] at hk
  rw [abs_of_neg (a := s - r) (by linarith)]
  linarith

end RoundsTo

/-- Rounding on the grid of the multiples of `2 ^ q` gives the nearest float, if the value is so large
that every float as large lies on the grid. -/
theorem nearest_of_grid {v : ℚ} {x : Float} {b : Binary} {n : ℕ} {q : ℤ} (hv : v < overflow)
    (hx : Binary.ofFloat? x = some b) (hsign : b.negative = false) (hvalue : b.value = n * 2 ^ q)
    (heven : n % 2 = 0 → b.m % 2 = 0) (hround : RoundsTo (v / 2 ^ q) n)
    (hq : q = -1074 ∨ (2 : ℚ) ^ 52 ≤ v / 2 ^ q) : Nearest v x := by
  have hpos : (0 : ℚ) < 2 ^ q := by positivity
  have hscale (a : ℚ) : |a * 2 ^ q - v| = |a - v / 2 ^ q| * 2 ^ q := by
    rw [← abs_of_pos hpos, ← abs_mul, abs_of_pos hpos, sub_mul, div_mul_cancel₀ _ hpos.ne']
  refine .finite b hv hx hsign fun y c hy => ?_
  have hc := Binary.canonical_of_ofFloat? hy
  rw [hvalue, hscale]
  by_cases hcq : q ≤ c.q
  · obtain ⟨k, hk⟩ := Binary.value_eq_intCast_mul hcq
    rw [hk, hscale]
    rcases hround.near_or_even k with hlt | ⟨heq, hsame | hn⟩
    · exact .inl (mul_lt_mul_of_pos_right hlt hpos)
    · exact .inr ⟨by rw [heq], .inl (by rw [hsame, Int.cast_natCast])⟩
    · exact .inr ⟨by rw [heq], .inr (heven hn)⟩
  · -- a float off the grid lies below the binade of the value, and the grid has a point between them
    have hlow := Binary.value_lt_of_q_lt hc.fits (not_le.1 hcq)
    have hhigh := hq.resolve_left (by have := hc.least; omega)
    rw [← div_mul_cancel₀ c.value hpos.ne', hscale]
    refine .inl (mul_lt_mul_of_pos_right (hround.near_of_lt (k := 2 ^ 52) ?_ ?_) hpos)
    · rwa [div_lt_iff₀ hpos, Int.cast_pow, Int.cast_ofNat]
    · rwa [Int.cast_pow, Int.cast_ofNat]

section Residue

/-- The exact value that a mantissa with its residual bits stands for. -/
def StandsFor (em : ExtendedMantissa) (r : ℚ) : Prop :=
  ∃ δ : ℚ, 0 ≤ δ ∧ δ < 1 / 2 ∧ (em.stickyBit = true ↔ δ ≠ 0) ∧
    r = em.mantissa + (if em.roundBit then 1 / 2 else 0) + δ

variable {em : ExtendedMantissa} {r : ℚ}

/-- The bit that is shifted out tells whether half a unit is left, and all others go into the sticky bit. -/
theorem StandsFor.shiftRightOne (h : StandsFor em r) : StandsFor em.shiftRightOne (r / 2) := by
  obtain ⟨δ, hnonneg, hlt, hsticky, rfl⟩ := h
  obtain ⟨m, round, sticky⟩ := em
  have hm : (m : ℚ) = 2 * (m / 2 : ℕ) + (m % 2 : ℕ) := by exact_mod_cast (Nat.div_add_mod m 2).symm
  refine ⟨((if round then 1 / 2 else 0) + δ) / 2, ?_, ?_, ?_, ?_⟩
  · split_ifs <;> linarith
  · split_ifs <;> linarith
  · cases round with
    | false => simpa [ExtendedMantissa.shiftRightOne] using hsticky
    | true => simp [ExtendedMantissa.shiftRightOne]; linarith
  · rcases Nat.mod_two_eq_zero_or_one m with hbit | hbit <;>
      simp only [ExtendedMantissa.shiftRightOne, hbit] at hm ⊢ <;> rw [hm] <;> simp <;> ring

theorem StandsFor.shiftRight (h : StandsFor em r) (k : ℕ) : StandsFor (em >>> k) (r / 2 ^ k) := by
  induction k with
  | zero =>
    rw [pow_zero, div_one]
    exact h
  | succ k ih =>
    rw [pow_succ, ← div_div]
    exact ih.shiftRightOne

theorem StandsFor.mantissa_le (h : StandsFor em r) : (em.mantissa : ℚ) ≤ r := by
  obtain ⟨δ, hnonneg, -, -, rfl⟩ := h
  split_ifs <;> linarith

theorem StandsFor.lt_mantissa_add_one (h : StandsFor em r) : r < em.mantissa + 1 := by
  obtain ⟨δ, -, hlt, -, rfl⟩ := h
  split_ifs <;> linarith

/-- The bits tell how to round. -/
theorem StandsFor.roundsTo (h : StandsFor em r) : RoundsTo r em.roundedMantissa := by
  obtain ⟨δ, hnonneg, hlt, hsticky, rfl⟩ := h
  obtain ⟨m, round, sticky⟩ := em
  have hbits : sticky = true ↔ δ ≠ 0 := hsticky
  cases round <;> cases sticky
  case false.false =>
    have hδ : δ = 0 := by simpa using hbits
    refine .of_lt (n := m) (abs_lt.2 ?_)
    simp only [hδ]
    constructor <;> norm_num
  case false.true =>
    refine .of_lt (n := m) (abs_lt.2 ?_)
    constructor <;> norm_num <;> linarith
  case true.false =>
    have hδ : δ = 0 := by simpa using hbits
    have hn : (⟨m, true, false⟩ : ExtendedMantissa).roundedMantissa = m + m % 2 := rfl
    refine ⟨?_, fun _ => by rw [hn]; omega⟩
    rcases Nat.mod_two_eq_zero_or_one m with hbit | hbit <;> rw [hn, hbit, hδ] <;> norm_num
  case true.true =>
    have hδ : 0 < δ := hnonneg.lt_of_ne (hbits.1 rfl).symm
    refine .of_lt (n := m + 1) (abs_lt.2 ?_)
    constructor <;> norm_num <;> linarith

end Residue

section Packing

theorem targetExponent_binary64 (t : ℤ) : Format.binary64.targetExponent t = max (t - 53) (-1074) := rfl

theorem toBits_injective {x y : Float} (h : x.toBits = y.toBits) : x = y := by
  obtain ⟨⟨bits, _⟩⟩ := x
  obtain ⟨⟨bits', _⟩⟩ := y
  obtain rfl : bits = bits' := h
  rfl

theorem toNat_packComponents (e : BitVec 11) (m : BitVec 52) :
    (packComponents Format.binary64 .positive e m).toNat = e.toNat * 2 ^ 52 + m.toNat := by
  have hsign : Sign.positive.toBitVec = 0#1 := rfl
  simp only [packComponents, hsign]
  rw [BitVec.toNat_append, BitVec.toNat_append, ← Nat.shiftLeft_add_eq_or_of_lt m.isLt, Nat.shiftLeft_eq]
  simp

theorem Binary.ofFloat?_of_toBits {x : Float} {e f : ℕ} (hbits : x.toBits.toNat = e * 2 ^ 52 + f)
    (he : e < 2047) (hf : f < 2 ^ 52) :
    ofFloat? x = some (if e = 0 then ⟨false, f, -1074⟩ else ⟨false, f + 2 ^ 52, e - 1075⟩) := by
  have hexponent : (e * 2 ^ 52 + f) / 2 ^ 52 % 2 ^ 11 = e := by omega
  have hfraction : (e * 2 ^ 52 + f) % 2 ^ 52 = f := by omega
  have hsign : ((e * 2 ^ 52 + f) / 2 ^ 63 == 1) = false := by
    rw [beq_eq_false_iff_ne]
    omega
  unfold ofFloat? signBit
  simp only [hbits, Nat.pow_eq, hexponent, hfraction, hsign, leastExponent]
  rw [if_neg he.ne]
  split_ifs <;> rfl

theorem pack_finite {m : ℕ} {q : ℤ} (hm : 0 < m) :
    UnpackedFloat.pack Format.binary64 (.finite .positive m q hm) =
      if 2 ^ 11 ≤ (q + 1023 + 52).toNat + 1 then packedInfinity Format.binary64 .positive
      else if m.log2 + 1 = 53 then
        packComponents Format.binary64 .positive (BitVec.ofNat 11 (q + 1023 + 52).toNat) (BitVec.ofNat 52 m)
      else packComponents Format.binary64 .positive 0#11 (BitVec.ofNat 52 m) := rfl

/-- A finite float keeps its parts when it is packed. -/
theorem Binary.ofFloat?_pack {m : ℕ} {q : ℤ} (hm : 0 < m) (h : Canonical m q) :
    ofFloat? (.ofModel (.pack (.finite .positive m q hm))) = some ⟨false, m, q⟩ := by
  obtain ⟨hlt, hleast, hmost, hnormal⟩ := h
  have hlog : m.log2 < 53 := (Nat.log2_lt hm.ne').2 hlt
  have hpack : (Float.ofModel (.pack (.finite .positive m q hm))).toBits.toNat =
    (UnpackedFloat.pack Format.binary64 (.finite .positive m q hm)).toNat := rfl
  rw [pack_finite, if_neg (by omega)] at hpack
  generalize Float.ofModel (.pack (.finite .positive m q hm)) = x at hpack ⊢
  by_cases hbig : 2 ^ 52 ≤ m
  · have hleading : 52 ≤ m.log2 := (Nat.le_log2 hm.ne').2 hbig
    have hexponent : (q + 1023 + 52).toNat % 2 ^ 11 = (q + 1075).toNat := by omega
    have hfraction : m % 2 ^ 52 = m - 2 ^ 52 := by omega
    have hm' : m - 2 ^ 52 + 2 ^ 52 = m := by omega
    have hq : ((q + 1075).toNat : ℤ) - 1075 = q := by omega
    rw [if_pos (by omega), toNat_packComponents] at hpack
    simp only [BitVec.toNat_ofNat, hexponent, hfraction] at hpack
    rw [ofFloat?_of_toBits hpack (by omega) (by omega), if_neg (by omega), hm', hq]
  · have hleading : m.log2 < 52 := (Nat.log2_lt hm.ne').2 (by omega)
    rw [if_neg (by omega), toNat_packComponents] at hpack
    simp only [BitVec.toNat_ofNat, Nat.mod_eq_of_lt (not_le.1 hbig)] at hpack
    rw [ofFloat?_of_toBits hpack (by decide) (by omega), hnormal.resolve_right hbig]
    rfl

theorem pack_eq_infinity {m : ℕ} {q : ℤ} (hm : 0 < m) (hq : 972 ≤ q) :
    Float.ofModel (.pack (.finite .positive m q hm)) = 1 / 0 := by
  have hpack : UnpackedFloat.pack Format.binary64 (.finite .positive m q hm) =
      packedInfinity Format.binary64 .positive := by
    rw [pack_finite, if_pos (by omega)]
  have hbits : (1 / 0 : Float).toBits = ⟨packedInfinity Format.binary64 .positive⟩ := by decide +kernel
  exact toBits_injective ((congrArg UInt64.ofBitVec hpack).trans hbits.symm)

end Packing

section Uniqueness

namespace Binary

theorem toBits_of_ofFloat? {x : Float} {b : Binary} (h : ofFloat? x = some b) : x.toBits.toNat =
    (if b.negative then 2 ^ 63 else 0) +
      if b.m < 2 ^ 52 then b.m else (b.q + 1075).toNat * 2 ^ 52 + (b.m - 2 ^ 52) := by
  have hbits : x.toBits.toNat < 2 ^ 64 := x.toBits.toNat_lt
  have hsign : (if signBit x then 2 ^ 63 else 0) = x.toBits.toNat / 2 ^ 63 * 2 ^ 63 := by
    unfold signBit
    simp only [Nat.pow_eq, beq_iff_eq]
    split_ifs <;> omega
  unfold ofFloat? at h
  simp only [Nat.pow_eq, leastExponent] at h
  split_ifs at h with hmax hmin
  · cases h
    simp only [hsign]
    rw [if_pos (by omega)]
    omega
  · cases h
    simp only [hsign]
    rw [if_neg (by omega)]
    omega

theorem ofFloat?_injective {x y : Float} {b : Binary} (hx : ofFloat? x = some b) (hy : ofFloat? y = some b) :
    x = y := by
  have hbits : x.toBits = y.toBits :=
    UInt64.toNat_inj.1 ((toBits_of_ofFloat? hx).trans (toBits_of_ofFloat? hy).symm)
  exact toBits_injective hbits

/-- Of two floats the larger one is a multiple of the unit of the other. -/
theorem Canonical.value_eq_natCast_mul {b c : Binary} (hb : Canonical b.m b.q) (hc : Canonical c.m c.q)
    (hbsign : b.negative = false) (hcsign : c.negative = false) (hle : b.value ≤ c.value) :
    ∃ d : ℕ, c.q = b.q + d ∧ c.value = (c.m * 2 ^ d : ℕ) * 2 ^ b.q := by
  have hq : b.q ≤ c.q := by
    by_contra hlt
    have hleast := hc.least
    have hlow := value_lt_of_q_lt hc.fits (not_le.1 hlt)
    have hbig : (2 : ℚ) ^ 52 ≤ b.m := by exact_mod_cast hb.normal.resolve_left (by omega)
    have hge : (2 : ℚ) ^ 52 * 2 ^ b.q ≤ b.m * 2 ^ b.q := by gcongr
    rw [value_of_nonneg hbsign] at hle
    linarith
  obtain ⟨d, hd⟩ := Int.eq_ofNat_of_zero_le (sub_nonneg.2 hq)
  have hd : c.q = b.q + d := by omega
  refine ⟨d, hd, ?_⟩
  rw [value_of_nonneg hcsign, hd, zpow_add₀ two_ne_zero, zpow_natCast]
  push_cast
  ring

theorem eq_of_parts {b c : Binary} (hsign : b.negative = c.negative) (hm : b.m = c.m) (hq : b.q = c.q) :
    b = c := by
  cases b
  cases c
  subst hsign hm hq
  rfl

theorem Canonical.eq_of_value_eq {b c : Binary} (hb : Canonical b.m b.q) (hc : Canonical c.m c.q)
    (hbsign : b.negative = false) (hcsign : c.negative = false) (h : b.value = c.value) : b = c := by
  obtain ⟨d, hd, _⟩ := hb.value_eq_natCast_mul hc hbsign hcsign h.le
  obtain ⟨d', hd', _⟩ := hc.value_eq_natCast_mul hb hcsign hbsign h.ge
  have hq : b.q = c.q := by omega
  rw [value_of_nonneg hbsign, value_of_nonneg hcsign, hq] at h
  have hm : b.m = c.m := by exact_mod_cast mul_right_cancel₀ (zpow_ne_zero _ two_ne_zero) h
  exact eq_of_parts (hbsign.trans hcsign.symm) hm hq

/-- Between two floats with even mantissas there is another. -/
theorem Canonical.exists_between {b c : Binary} (hb : Canonical b.m b.q) (hc : Canonical c.m c.q)
    (hbsign : b.negative = false) (hcsign : c.negative = false) (hlt : b.value < c.value)
    (hbeven : b.m % 2 = 0) (hceven : c.m % 2 = 0) :
    ∃ y d, ofFloat? y = some d ∧ b.value < d.value ∧ d.value < c.value := by
  obtain ⟨d, _, hvalue⟩ := hb.value_eq_natCast_mul hc hbsign hcsign hlt.le
  have hpos : (0 : ℚ) < 2 ^ b.q := by positivity
  have hfits := hb.fits
  have hlarger : b.m < c.m * 2 ^ d := by
    rw [hvalue, value_of_nonneg hbsign] at hlt
    exact_mod_cast lt_of_mul_lt_mul_right hlt hpos.le
  have heven : c.m * 2 ^ d % 2 = 0 := by rw [Nat.mul_mod, hceven, Nat.zero_mul, Nat.zero_mod]
  refine ⟨_, ⟨false, b.m + 1, b.q⟩, ofFloat?_pack (Nat.succ_pos _) ⟨by omega, hb.least, hb.most,
    hb.normal.imp_right fun h => h.trans (Nat.le_succ _)⟩, ?_, ?_⟩
  · rw [value_of_nonneg hbsign, value_of_nonneg rfl]
    gcongr
    exact Nat.lt_succ_self _
  · rw [hvalue, value_of_nonneg rfl]
    gcongr
    exact show b.m + 1 < c.m * 2 ^ d by omega

theorem Closest.value_le {v : ℚ} {x y : Float} {b c : Binary} (hx : ofFloat? x = some b)
    (hy : ofFloat? y = some c) (hbsign : b.negative = false) (hcsign : c.negative = false)
    (hb : b.Closest v) (hc : c.Closest v) : c.value ≤ b.value := by
  by_contra! hlt
  have hne := hlt.ne
  -- neither is nearer than the other, so that `v` is halfway and both mantissas are even
  obtain ⟨hsame, hbeven⟩ : |b.value - v| = |c.value - v| ∧ b.m % 2 = 0 := by
    rcases hb y c hy with hnear | ⟨hsame, heven⟩
    · rcases hc x b hx with hnear' | ⟨hsame, _⟩
      · exact absurd hnear' (not_lt.2 hnear.le)
      · exact absurd hsame hnear.ne'
    · exact ⟨hsame, heven.resolve_left hne.symm⟩
  have hceven : c.m % 2 = 0 := by
    rcases hc x b hx with hnear | ⟨_, heven⟩
    · exact absurd hsame hnear.ne'
    · exact heven.resolve_left hne
  have hhalf : b.value - v = -(c.value - v) := (abs_eq_abs.1 hsame).resolve_left fun h => hne (by linarith)
  obtain ⟨z, d, hz, hbd, hdc⟩ := (canonical_of_ofFloat? hx).exists_between (canonical_of_ofFloat? hy)
    hbsign hcsign hlt hbeven hceven
  have hcloser : |d.value - v| < |b.value - v| := by
    rw [hsame, abs_of_pos (show 0 < c.value - v by linarith), abs_lt]
    constructor <;> linarith
  rcases hb z d hz with hnear | ⟨hequal, _⟩
  · exact absurd hnear hcloser.not_gt
  · exact hcloser.ne' hequal

end Binary

/-- A value has one nearest float. -/
theorem Nearest.unique {v : ℚ} {x y : Float} (hx : Nearest v x) (hy : Nearest v y) : x = y := by
  cases hx with
  | infinite hv hx =>
    cases hy with
    | infinite _ hy => rw [hx, hy]
    | finite c hlt => exact absurd hv (not_le.2 hlt)
  | finite b hlt hx hbsign hb =>
    cases hy with
    | infinite hv => exact absurd hv (not_le.2 hlt)
    | finite c _ hy hcsign hc =>
      have hvalue : b.value = c.value := le_antisymm (hc.value_le hy hx hcsign hbsign hb)
        (hb.value_le hx hy hbsign hcsign hc)
      obtain rfl : b = c := (Binary.canonical_of_ofFloat? hx).eq_of_value_eq (Binary.canonical_of_ofFloat? hy)
        hbsign hcsign hvalue
      exact Binary.ofFloat?_injective hx hy

end Uniqueness

section Rounding

theorem mantissa_ofMantissaAndAccuracy (m : ℕ) (acc : Accuracy) :
    (ExtendedMantissa.ofMantissaAndAccuracy m acc).mantissa = m := by
  rcases acc with _ | _ | _ | _ <;> rfl

theorem log2_lt_of_lt {n : ℕ} (hn : n < 2 ^ 53) : n.log2 < 53 := by
  rcases eq_or_ne n 0 with rfl | hne
  · decide
  · exact (Nat.log2_lt hne).2 hn

/-- A mantissa that fits stays where it is. -/
theorem shiftToTargetExponent_of_lt {n : ℕ} {q : ℤ} (hn : n < 2 ^ 53) (hq : -1074 ≤ q) :
    shiftToTargetExponent Format.binary64 n q .exact = (⟨n, false, false⟩, q) := by
  have hlog := log2_lt_of_lt hn
  have hnone : (max ((n.log2 : ℤ) + 1 + q - 53) (-1074) - q).toNat = 0 := by omega
  simp only [shiftToTargetExponent, targetExponent_binary64, totalExponent, shiftToExponent, hnone]
  rw [Nat.cast_zero, add_zero]
  rfl

/-- A mantissa that rounding has carried into a new bit loses a zero. -/
theorem shiftToTargetExponent_carry {q : ℤ} (hq : -1074 ≤ q) :
    shiftToTargetExponent Format.binary64 (2 ^ 53) q .exact = (⟨2 ^ 52, false, false⟩, q + 1) := by
  have hone : (max (((2 ^ 53 : ℕ).log2 : ℤ) + 1 + q - 53) (-1074) - q).toNat = 1 := by
    rw [Nat.log2_two_pow]
    omega
  simp only [shiftToTargetExponent, targetExponent_binary64, totalExponent, shiftToExponent, hone]
  rfl

/-- The second shift only puts a carry right. -/
theorem roundWithAccuracy_eq {m : ℕ} {e q : ℤ} {acc : Accuracy} {em : ExtendedMantissa}
    (hshift : shiftToTargetExponent Format.binary64 m e acc = (em, q)) (hq : -1074 ≤ q)
    (hn : em.roundedMantissa ≤ 2 ^ 53) :
    roundWithAccuracy Format.binary64 .positive m e acc =
      if h : em.roundedMantissa = 0 then .zero .positive
      else if em.roundedMantissa < 2 ^ 53 then
        .finite .positive em.roundedMantissa q (Nat.pos_of_ne_zero h)
      else .finite .positive (2 ^ 52) (q + 1) (by decide) := by
  rw [roundWithAccuracy, hshift]
  dsimp only
  rcases hn.lt_or_eq with hlt | heq
  · rw [shiftToTargetExponent_of_lt hlt hq]
    by_cases hzero : em.roundedMantissa = 0
    · rw [dif_pos hzero, dif_pos hzero]
    · rw [dif_neg hzero, dif_neg hzero, if_pos hlt]
  · rw [heq, shiftToTargetExponent_carry hq]
    rfl

theorem grid_bounds {v : ℚ} {m : ℕ} {e q : ℤ} {acc : Accuracy}
    (h : StandsFor (.ofMantissaAndAccuracy m acc) (v / 2 ^ e)) (he : e ≤ q)
    (hq : q = max ((m.log2 : ℤ) + 1 + e - 53) (-1074)) :
    v / 2 ^ q < 2 ^ 53 ∧ (q = -1074 ∨ (2 : ℚ) ^ 52 ≤ v / 2 ^ q) := by
  have hscale : v / 2 ^ q = v / 2 ^ e / 2 ^ (q - e) := by
    rw [div_div, ← zpow_add₀ two_ne_zero]
    congr 2
    omega
  have hlow := h.mantissa_le
  have hhigh := h.lt_mantissa_add_one
  rw [mantissa_ofMantissaAndAccuracy] at hlow hhigh
  have hpos : (0 : ℚ) < 2 ^ (q - e) := by positivity
  rw [hscale]
  constructor
  · have hm : (m : ℚ) + 1 ≤ 2 ^ (m.log2 + 1) := by exact_mod_cast Nat.lt_log2_self
    rw [div_lt_iff₀ hpos]
    calc v / 2 ^ e < m + 1 := hhigh
      _ ≤ 2 ^ (m.log2 + 1) := hm
      _ ≤ 2 ^ 53 * 2 ^ (q - e) := by
        rw [← zpow_natCast, ← zpow_natCast, ← zpow_add₀ two_ne_zero]
        exact zpow_le_zpow_right₀ one_le_two (by push_cast; omega)
  · refine (eq_or_ne q (-1074)).imp_right fun hne => ?_
    have hlog : (m.log2 : ℤ) = 52 + (q - e) := by omega
    have hm : m ≠ 0 := by
      rintro rfl
      rw [Nat.log2_zero] at hlog
      omega
    rw [le_div_iff₀ hpos]
    calc (2 : ℚ) ^ 52 * 2 ^ (q - e) = 2 ^ m.log2 := by
          rw [← zpow_natCast, ← zpow_natCast, ← zpow_add₀ two_ne_zero, hlog]
          rfl
      _ ≤ m := by exact_mod_cast Nat.log2_self_le hm
      _ ≤ v / 2 ^ e := hlow

theorem lt_overflow {v : ℚ} {q : ℤ} (h : v / 2 ^ q < 2 ^ 53 - 1 / 2) (hq : q ≤ 971) : v < overflow := by
  have hpos : (0 : ℚ) < 2 ^ q := by positivity
  calc v < (2 ^ 53 - 1 / 2) * 2 ^ q := (div_lt_iff₀ hpos).1 h
    _ ≤ overflow := mul_le_mul_of_nonneg_left (zpow_le_zpow_right₀ one_le_two hq) (by norm_num)

theorem overflow_le {v : ℚ} {q : ℤ} (h : 2 ^ 53 - 1 / 2 ≤ v / 2 ^ q) (hq : 971 ≤ q) : overflow ≤ v := by
  have hpos : (0 : ℚ) < 2 ^ q := by positivity
  calc overflow ≤ (2 ^ 53 - 1 / 2) * 2 ^ q :=
        mul_le_mul_of_nonneg_left (zpow_le_zpow_right₀ one_le_two hq) (by norm_num)
    _ ≤ v := (le_div_iff₀ hpos).1 h

theorem div_zpow_succ (v : ℚ) (q : ℤ) : v / 2 ^ (q + 1) = v / 2 ^ q / 2 := by
  rw [zpow_add_one₀ two_ne_zero, div_div]

theorem nearest_of_roundsTo {v : ℚ} {n : ℕ} {q : ℤ} (hround : RoundsTo (v / 2 ^ q) n)
    (hq : -1074 ≤ q) (hlt : v / 2 ^ q < 2 ^ 53) (hgrid : q = -1074 ∨ (2 : ℚ) ^ 52 ≤ v / 2 ^ q) :
    Nearest v (.ofModel (.pack (if h : n = 0 then .zero .positive
      else if n < 2 ^ 53 then .finite .positive n q (Nat.pos_of_ne_zero h)
      else .finite .positive (2 ^ 52) (q + 1) (by decide)))) := by
  have hnormal : q = -1074 ∨ 2 ^ 52 ≤ n :=
    hgrid.imp_right fun h => hround.natCast_le (by exact_mod_cast h)
  by_cases hfits : n < 2 ^ 53
  · have hbelow : v / 2 ^ q < 2 ^ 53 - 1 / 2 := by exact_mod_cast hround.lt_sub_half (k := 2 ^ 53) rfl hfits
    by_cases hzero : n = 0
    · rw [dif_pos hzero]
      refine nearest_of_grid (b := ⟨false, 0, -1074⟩) (lt_overflow hbelow (by omega))
        (by decide +kernel) rfl ?_ (fun _ => rfl) hround hgrid
      simp [Binary.value, hzero]
    rw [dif_neg hzero, if_pos hfits]
    by_cases hmost : q ≤ 971
    · refine nearest_of_grid (lt_overflow hbelow hmost) (Binary.ofFloat?_pack _ ⟨hfits, hq, hmost, hnormal⟩)
        rfl ?_ id hround hgrid
      simp [Binary.value]
    · refine .infinite (overflow_le (q := q - 1) ?_ (by omega)) (pack_eq_infinity _ (by omega))
      have hlow := hgrid.resolve_left (by omega)
      rw [← sub_add_cancel q 1, div_zpow_succ] at hlow
      linarith
  · have hcarry : n = 2 ^ 53 := le_antisymm (hround.le_natCast (by exact_mod_cast hlt)) (not_lt.1 hfits)
    rw [dif_neg (by omega), if_neg hfits]
    by_cases hmost : q + 1 ≤ 971
    · refine nearest_of_grid (lt_overflow (q := q + 1) ?_ hmost)
        (Binary.ofFloat?_pack _ ⟨by decide, by omega, hmost, .inr le_rfl⟩) rfl ?_ (fun _ => by norm_num)
        hround hgrid
      · rw [div_zpow_succ]
        linarith
      · rw [Binary.value, hcarry, zpow_add_one₀ two_ne_zero]
        norm_num
        ring
    · refine .infinite (overflow_le (q := q) ?_ (by omega)) (pack_eq_infinity _ (by omega))
      have hle := hround.le_add
      rw [hcarry] at hle
      push_cast at hle
      linarith

/-- Rounding a value that is known exactly gives the nearest float. -/
theorem nearest_round {v : ℚ} {m : ℕ} {e : ℤ} {acc : Accuracy}
    (h : StandsFor (.ofMantissaAndAccuracy m acc) (v / 2 ^ e))
    (he : e ≤ max ((m.log2 : ℤ) + 1 + e - 53) (-1074)) :
    Nearest v (.ofModel (.pack (roundWithAccuracy Format.binary64 .positive m e acc))) := by
  obtain ⟨q, hq⟩ : ∃ q, q = max ((m.log2 : ℤ) + 1 + e - 53) (-1074) := ⟨_, rfl⟩
  rw [← hq] at he
  obtain ⟨k, hk⟩ := Int.eq_ofNat_of_zero_le (sub_nonneg.2 he)
  obtain ⟨em, hem⟩ : ∃ em, em = ExtendedMantissa.ofMantissaAndAccuracy m acc >>> k := ⟨_, rfl⟩
  have hshift : shiftToTargetExponent Format.binary64 m e acc = (em, q) := by
    have hamount : (max ((m.log2 : ℤ) + 1 + e - 53) (-1074) - e).toNat = k := by omega
    simp only [shiftToTargetExponent, targetExponent_binary64, totalExponent, shiftToExponent, hamount, hem]
    congr 1
    omega
  have hround : RoundsTo (v / 2 ^ q) em.roundedMantissa := by
    have hstands := (h.shiftRight k).roundsTo
    rwa [← hem, div_div, ← zpow_natCast, ← zpow_add₀ two_ne_zero, show e + k = q by omega] at hstands
  obtain ⟨hlt, hgrid⟩ := grid_bounds h he hq
  have hleast : -1074 ≤ q := hq ▸ le_max_right _ _
  rw [roundWithAccuracy_eq hshift hleast (hround.le_natCast (by exact_mod_cast hlt))]
  exact nearest_of_roundsTo hround hleast hlt hgrid

end Rounding

end Metrology.Decimal

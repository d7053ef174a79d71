import Mathlib.Tactic.FieldSimp
import Metrology.Decimal.Numeral
import Metrology.Proofs.Decimal.Rounding

/-! Decimal numerals and the floats they denote. A product and a quotient are rounded once, from their
exact value, and a decimal is a product or a quotient with a power of ten; so it denotes the float
nearest to it. -/
namespace Metrology.Decimal

open Float.Model Float.Model.UnpackedFloat

section Arithmetic

theorem standsFor_exact (m : ℕ) : StandsFor (.ofMantissaAndAccuracy m .exact) m :=
  ⟨0, le_rfl, by norm_num, by simp [ExtendedMantissa.ofMantissaAndAccuracy],
    by simp [ExtendedMantissa.ofMantissaAndAccuracy]⟩

/-- The remainder of a division tells where the quotient lies. -/
theorem standsFor_div (a : ℕ) {b : ℕ} (hb : 0 < b) :
    StandsFor (.ofMantissaAndAccuracy (a / b) (accuracyOfFraction (a % b) b)) (a / b) := by
  have hpos : (0 : ℚ) < b := by exact_mod_cast hb
  obtain ⟨f, hf⟩ : ∃ f : ℚ, f = (a % b : ℕ) / b := ⟨_, rfl⟩
  have hdiv : (a : ℚ) / b = (a / b : ℕ) + f := by
    have hab : (a : ℚ) = b * (a / b : ℕ) + (a % b : ℕ) := by exact_mod_cast (Nat.div_add_mod a b).symm
    rw [hf, div_eq_iff hpos.ne', add_mul, div_mul_cancel₀ _ hpos.ne']
    linarith
  have hlt : f < 1 := by
    rw [hf, div_lt_one hpos]
    exact_mod_cast Nat.mod_lt a hb
  rw [hdiv, accuracyOfFraction]
  by_cases hzero : a % b = 0
  · have hexact : f = 0 := by rw [hf, hzero, Nat.cast_zero, zero_div]
    rw [if_pos hzero, hexact, add_zero]
    exact standsFor_exact _
  have hrem : (0 : ℚ) < f := by
    rw [hf]
    have hpos : 0 < a % b := Nat.pos_of_ne_zero hzero
    positivity
  rw [if_neg hzero]
  rcases lt_trichotomy (2 * (a % b)) b with hhalf | hhalf | hhalf
  · have hf : f < 1 / 2 := by
      have hhalf : (2 * (a % b : ℕ) : ℚ) < b := by exact_mod_cast hhalf
      rw [hf, div_lt_iff₀ hpos]
      linarith
    rw [compare_lt_iff_lt.2 hhalf]
    exact ⟨f, hrem.le, hf, by simp [ExtendedMantissa.ofMantissaAndAccuracy, hrem.ne'],
      by simp [ExtendedMantissa.ofMantissaAndAccuracy]⟩
  · have hf : f = 1 / 2 := by
      have hhalf : (2 * (a % b : ℕ) : ℚ) = b := by exact_mod_cast hhalf
      rw [hf, div_eq_iff hpos.ne']
      linarith
    rw [compare_eq_iff_eq.2 hhalf, hf]
    exact ⟨0, le_rfl, by norm_num, by simp [ExtendedMantissa.ofMantissaAndAccuracy],
      by simp [ExtendedMantissa.ofMantissaAndAccuracy]⟩
  · have hf : 1 / 2 < f := by
      have hhalf : (b : ℚ) < (2 * (a % b : ℕ) : ℚ) := by exact_mod_cast hhalf
      rw [hf, lt_div_iff₀ hpos]
      linarith
    have hne : f - 1 / 2 ≠ 0 := by linarith
    rw [compare_gt_iff_gt.2 hhalf]
    exact ⟨f - 1 / 2, by linarith, by linarith, by simpa [ExtendedMantissa.ofMantissaAndAccuracy] using hne,
      by simp [ExtendedMantissa.ofMantissaAndAccuracy]⟩

theorem log2_mul_two_pow {n : ℕ} (hn : 0 < n) (k : ℕ) : (n * 2 ^ k).log2 = n.log2 + k := by
  induction k with
  | zero => simp
  | succ k ih =>
    rw [pow_succ', Nat.mul_left_comm, Nat.log2_two_mul (by positivity), ih, Nat.add_assoc]

theorem natCast_mul_two_pow (n k : ℕ) : ((n * 2 ^ k : ℕ) : ℚ) * 2 ^ (-k : ℤ) = n := by
  rw [Nat.cast_mul, Nat.cast_pow, Nat.cast_ofNat, zpow_neg, zpow_natCast,
    mul_inv_cancel_right₀ (by positivity)]

theorem le_log2_div {a b k : ℕ} (hb : 0 < b) (h : b.log2 + k + 1 ≤ a.log2) : k ≤ (a / b).log2 := by
  have ha : a ≠ 0 := by
    rintro rfl
    simp at h
  have hle : 2 ^ k * b ≤ a :=
    calc 2 ^ k * b ≤ 2 ^ k * 2 ^ (b.log2 + 1) := Nat.mul_le_mul_left _ Nat.lt_log2_self.le
      _ = 2 ^ (b.log2 + k + 1) := by ring
      _ ≤ 2 ^ a.log2 := Nat.pow_le_pow_right two_pos h
      _ ≤ a := Nat.log2_self_le ha
  have hquot : 2 ^ k ≤ a / b := (Nat.le_div_iff_mul_le hb).2 hle
  exact (Nat.le_log2 ((Nat.two_pow_pos k).trans_le hquot).ne').2 hquot

theorem log2_le_log2_mul {a b : ℕ} (ha : 0 < a) (hb : 0 < b) : a.log2 ≤ (a * b).log2 :=
  (Nat.le_log2 (by positivity)).2 ((Nat.log2_self_le ha.ne').trans (Nat.le_mul_of_pos_right a hb))

variable {m₁ m₂ : ℕ} {e₁ e₂ : ℤ} (h₁ : 0 < m₁) (h₂ : 0 < m₂)

theorem nearest_mul (hbits : 52 ≤ (m₁ * m₂).log2) :
    Nearest (m₁ * 2 ^ e₁ * (m₂ * 2 ^ e₂)) (.ofModel (.pack (mul Format.binary64
      (.finite .positive m₁ e₁ h₁) (.finite .positive m₂ e₂ h₂)))) := by
  refine nearest_round (e := e₁ + e₂) ?_ (by omega)
  have hvalue : (m₁ * 2 ^ e₁ * (m₂ * 2 ^ e₂) : ℚ) / 2 ^ (e₁ + e₂) = (m₁ * m₂ : ℕ) := by
    rw [zpow_add₀ two_ne_zero, div_eq_iff (by positivity)]
    push_cast
    ring
  rw [hvalue]
  exact standsFor_exact _

theorem div_finite : div Format.binary64 (.finite .positive m₁ e₁ h₁) (.finite .positive m₂ e₂ h₂) =
    let quotient := divCore Format.binary64 m₁ e₁ m₂ e₂
    roundWithAccuracy Format.binary64 .positive quotient.1 quotient.2.1 quotient.2.2 := rfl

/-- The dividend is scaled until the quotient has all the bits of a mantissa, or is subnormal. -/
theorem nearest_div :
    Nearest (m₁ * 2 ^ e₁ / (m₂ * 2 ^ e₂)) (.ofModel (.pack (div Format.binary64
      (.finite .positive m₁ e₁ h₁) (.finite .positive m₂ e₂ h₂)))) := by
  obtain ⟨q, hq⟩ : ∃ q, q = min (e₁ - e₂)
    (max ((m₁.log2 : ℤ) + 1 + e₁ - (m₂.log2 + 1 + e₂) - 53) (-1074)) := ⟨_, rfl⟩
  obtain ⟨k, hk⟩ := Int.eq_ofNat_of_zero_le (show 0 ≤ e₁ - e₂ - q by omega)
  have hdiv : div Format.binary64 (.finite .positive m₁ e₁ h₁) (.finite .positive m₂ e₂ h₂) =
      roundWithAccuracy Format.binary64 .positive (m₁ * 2 ^ k / m₂) q
        (accuracyOfFraction (m₁ * 2 ^ k % m₂) m₂) := by
    have hamount : (e₁ - e₂ - q).toNat = k := by omega
    have hcore : divCore Format.binary64 m₁ e₁ m₂ e₂ =
        (m₁ * 2 ^ k / m₂, q, accuracyOfFraction (m₁ * 2 ^ k % m₂) m₂) := by
      simp only [divCore, totalExponent, targetExponent_binary64, ← hq, hamount, Nat.shiftLeft_eq]
    rw [div_finite, hcore]
  have hvalue : (m₁ * 2 ^ e₁ / (m₂ * 2 ^ e₂) : ℚ) / 2 ^ q = (m₁ * 2 ^ k : ℕ) / m₂ := by
    have hpower : (2 : ℚ) ^ e₁ = 2 ^ k * 2 ^ e₂ * 2 ^ q := by
      rw [← zpow_natCast, ← zpow_add₀ two_ne_zero, ← zpow_add₀ two_ne_zero]
      congr 1
      omega
    rw [hpower]
    push_cast
    field_simp
  rw [hdiv]
  refine nearest_round (by rw [hvalue]; exact standsFor_div _ h₂) ?_
  have hlog : (m₁ * 2 ^ k).log2 = m₁.log2 + k := log2_mul_two_pow h₁ k
  by_cases hleast : q ≤ -1074
  · omega
  · have hquot := le_log2_div (k := 52) (a := m₁ * 2 ^ k) h₂ (by omega)
    omega

end Arithmetic

section Decimals

theorem unpack_of_ofFloat? {x : Float} {m : ℕ} {q : ℤ} (h : Binary.ofFloat? x = some ⟨false, m, q⟩)
    (hm : 0 < m) : x.toModel.unpack = .finite .positive m q hm := by
  rw [Binary.ofFloat?_eq_ofUnpacked?] at h
  cases hx : x.toModel.unpack with
  | finite sign m' q' hm' =>
    rw [hx] at h
    cases sign with
    | positive =>
      cases h
      rfl
    | negative => cases h
  | zero sign =>
    rw [hx] at h
    have hzero : 0 = m := congrArg Binary.m (Option.some.inj h)
    omega
  | infinity sign =>
    rw [hx] at h
    cases h
  | notANumber =>
    rw [hx] at h
    cases h

/-- What fits a mantissa is not rounded. -/
theorem roundWithAccuracy_of_lt {m : ℕ} {q : ℤ} (hm : 0 < m) (hlt : m < 2 ^ 53) (hq : -1074 ≤ q) :
    roundWithAccuracy Format.binary64 .positive m q .exact = .finite .positive m q hm := by
  rw [roundWithAccuracy_eq (shiftToTargetExponent_of_lt hlt hq) hq hlt.le]
  exact (dif_neg hm.ne').trans (if_pos hlt)

theorem ofFloat?_toFloat {n : ℕ} (hn : 0 < n) (hlt : n < 2 ^ 53) :
    Binary.ofFloat? n.toUInt64.toFloat = some ⟨false, n * 2 ^ (52 - n.log2), n.log2 - 52⟩ := by
  have hlog := log2_lt_of_lt hlt
  have hm : (n * 2 ^ (52 - n.log2)).log2 = 52 := by
    rw [log2_mul_two_pow hn]
    omega
  obtain ⟨hlow, hhigh⟩ := (Nat.log2_eq_iff (by positivity)).1 hm
  have hword : n.toUInt64.toNat = n := Nat.mod_eq_of_lt (by omega)
  have hround : UnpackedFloat.ofUInt64 Format.binary64 n.toUInt64 =
      roundWithAccuracy Format.binary64 .positive (n * 2 ^ (52 - n.log2)) (n.log2 - 52) .exact := by
    have hpositive : compare (n : ℤ) 0 = .gt := Int.compare_eq_gt.2 (by omega)
    have htarget : max ((n.log2 : ℤ) + 1 + 0 - 53) (-1074) = n.log2 - 52 := by omega
    have hamount : (0 - ((n.log2 : ℤ) - 52)).toNat = 52 - n.log2 := by omega
    have hexponent : (0 : ℤ) - (52 - n.log2 : ℕ) = n.log2 - 52 := by omega
    simp only [UnpackedFloat.ofUInt64, UnpackedFloat.ofNat, UnpackedFloat.ofInt, hword,
      UnpackedFloat.normalize, hpositive, UnpackedFloat.round, totalExponent, targetExponent_binary64,
      Int.toNat_natCast, htarget, decreaseExponent, hamount, hexponent, Nat.shiftLeft_eq]
  change Binary.ofFloat? (.ofModel (.pack (UnpackedFloat.ofUInt64 Format.binary64 n.toUInt64))) = _
  rw [hround, roundWithAccuracy_of_lt (by positivity) hhigh (by omega)]
  exact Binary.ofFloat?_pack _ ⟨hhigh, by omega, by omega, .inr hlow⟩

theorem all_powersOfTen : ∀ k : Fin Float.exactlyRepresentablePowersOfTen.size,
    ∃ b ∈ Binary.ofFloat? Float.exactlyRepresentablePowersOfTen[k], b.negative = false ∧
      0 < b.m ∧ b.m * 2 ^ b.q.toNat = 10 ^ k.val * 2 ^ (-b.q).toNat := by
  decide +kernel

theorem ofFloat?_powerOfTen {k : ℕ} (hk : k < Float.exactlyRepresentablePowersOfTen.size) :
    ∃ m q, Binary.ofFloat? Float.exactlyRepresentablePowersOfTen[k] = some ⟨false, m, q⟩ ∧
      0 < m ∧ (m : ℚ) * 2 ^ q = 10 ^ k := by
  obtain ⟨⟨sign, m, q⟩, hb, hsign, hm, hvalue⟩ := all_powersOfTen ⟨k, hk⟩
  obtain rfl : sign = false := hsign
  refine ⟨m, q, hb, hm, ?_⟩
  have hvalue : (m : ℚ) * 2 ^ q.toNat = 10 ^ k * 2 ^ (-q).toNat := by exact_mod_cast hvalue
  have hq : (2 : ℚ) ^ q * 2 ^ (-q).toNat = 2 ^ q.toNat := by
    rw [← zpow_natCast, ← zpow_natCast, ← zpow_add₀ two_ne_zero]
    congr 1
    omega
  refine mul_right_cancel₀ (b := (2 : ℚ) ^ (-q).toNat) (by positivity) ?_
  rw [mul_assoc, hq, hvalue]

/-- Small mantissas and powers, by one operation on floats. -/
theorem nearest_ofScientific_of_lt {n k : ℕ} (hn : 0 < n) (hlt : n < 2 ^ 53)
    (hk : k < Float.exactlyRepresentablePowersOfTen.size) :
    Nearest (n * 10 ^ k) (n.toUInt64.toFloat * Float.exactlyRepresentablePowersOfTen[k]) ∧
      Nearest (n / 10 ^ k) (n.toUInt64.toFloat / Float.exactlyRepresentablePowersOfTen[k]) := by
  have hlog := log2_lt_of_lt hlt
  obtain ⟨m, q, hpower, hm, hvalue⟩ := ofFloat?_powerOfTen hk
  have hnumber : (n : ℚ) = (n * 2 ^ (52 - n.log2) : ℕ) * 2 ^ ((n.log2 : ℤ) - 52) := by
    rw [show (n.log2 : ℤ) - 52 = -(52 - n.log2 : ℕ) by omega, natCast_mul_two_pow]
  have hx := unpack_of_ofFloat? (ofFloat?_toFloat hn hlt) (by positivity)
  have hy := unpack_of_ofFloat? hpower hm
  rw [← hvalue, hnumber]
  constructor
  · change Nearest _ (.ofModel (.pack (UnpackedFloat.mul Format.binary64 _ _)))
    rw [hx, hy]
    refine nearest_mul _ hm (le_trans ?_ (log2_le_log2_mul (by positivity) hm))
    rw [log2_mul_two_pow hn]
    omega
  · change Nearest _ (.ofModel (.pack (UnpackedFloat.div Format.binary64 _ _)))
    rw [hx, hy]
    exact nearest_div _ hm

theorem nearest_ofScientific_false {n k : ℕ} (hn : 0 < n) (hk : k ≤ 2048) :
    Nearest (n * 10 ^ k) (Float.ofScientific n false k) := by
  by_cases hsmall : n < 2 ^ 53 ∧ k ≤ 22
  · rw [Float.ofScientific, dif_pos hsmall]
    exact (nearest_ofScientific_of_lt hn hsmall.1 (Nat.lt_succ_of_le hsmall.2)).1
  · have hlimit : (2 : ℤ) ^ Format.binary64.exponentBits = 2048 := by norm_num
    have hmodel : UnpackedFloat.ofScientific Format.binary64 n k =
        UnpackedFloat.mul Format.binary64 (.finite .positive (n * 2 ^ 53) (-53) (by positivity))
          (.finite .positive (10 ^ k) 0 (by positivity)) := by
      rw [UnpackedFloat.ofScientific, dif_neg hn.ne', if_neg (by omega), if_neg (by omega),
        if_pos (by omega)]
      refine congrArg (UnpackedFloat.mul Format.binary64 · _) ?_
      rw [finite.injEq]
      exact ⟨rfl, Nat.shiftLeft_eq n 53, rfl⟩
    have hvalue : (n * 10 ^ k : ℚ) = (n * 2 ^ 53 : ℕ) * 2 ^ (-53 : ℤ) * ((10 ^ k : ℕ) * 2 ^ (0 : ℤ)) := by
      rw [zpow_zero, mul_one, Nat.cast_pow, Nat.cast_ofNat]
      rw [← natCast_mul_two_pow n 53, Nat.cast_ofNat]
    rw [Float.ofScientific, dif_neg hsmall, hvalue]
    change Nearest _ (.ofModel (.pack (UnpackedFloat.ofScientific Format.binary64 n k)))
    rw [hmodel]
    refine nearest_mul _ _ (le_trans ?_ (log2_le_log2_mul (by positivity) (by positivity)))
    rw [log2_mul_two_pow hn]
    omega

theorem nearest_ofScientific_true {n k : ℕ} (hn : 0 < n) (hpos : 0 < k) (hk : k ≤ 2048 + n.log2) :
    Nearest (n / 10 ^ k) (Float.ofScientific n true k) := by
  by_cases hsmall : n < 2 ^ 53 ∧ k ≤ 22
  · rw [Float.ofScientific, dif_pos hsmall]
    exact (nearest_ofScientific_of_lt hn hsmall.1 (Nat.lt_succ_of_le hsmall.2)).2
  · have hlimit : (2 : ℤ) ^ Format.binary64.exponentBits = 2048 := by norm_num
    have hmodel : UnpackedFloat.ofScientific Format.binary64 n (-k) =
        UnpackedFloat.div Format.binary64 (.finite .positive n 0 hn)
          (.finite .positive (10 ^ k) 0 (by positivity)) := by
      rw [UnpackedFloat.ofScientific, dif_neg hn.ne', if_neg (by omega), if_neg (by omega),
        if_neg (by omega)]
      refine congrArg (UnpackedFloat.div Format.binary64 _) ?_
      rw [finite.injEq, neg_neg, Int.toNat_natCast]
      exact ⟨rfl, rfl, rfl⟩
    have hvalue : (n / 10 ^ k : ℚ) = n * 2 ^ (0 : ℤ) / ((10 ^ k : ℕ) * 2 ^ (0 : ℤ)) := by simp
    rw [Float.ofScientific, dif_neg hsmall, hvalue]
    change Nearest _ (.ofModel (.pack (UnpackedFloat.ofScientific Format.binary64 n (Int.negOfNat k))))
    rw [Int.negOfNat_eq, Int.ofNat_eq_natCast, hmodel]
    exact nearest_div _ _

theorem digitCount_bounds {n : ℕ} (hn : 0 < n) :
    0 < digitCount n ∧ 10 ^ (digitCount n - 1) ≤ n ∧ n < 10 ^ digitCount n := by
  have hpos : 0 < digitCount n := Nat.length_toDigits_pos
  refine ⟨hpos, ?_, (Nat.length_toDigits_le_iff (by decide) hpos).1 le_rfl⟩
  rcases Nat.eq_zero_or_pos (digitCount n - 1) with hone | hmore
  · rwa [hone]
  · exact not_lt.1 fun hlt => by
      have hle : digitCount n ≤ digitCount n - 1 := (Nat.length_toDigits_le_iff (by decide) hmore).2 hlt
      omega

/-- What is less than half of the least positive float. -/
theorem nearest_zero {v : ℚ} (hv : 0 ≤ v) (hlt : v < 10 ^ (-330 : ℤ)) : Nearest v 0 := by
  have htiny : v / 2 ^ (-1074 : ℤ) < 1 / 2 := by
    have hpow : (2 : ℚ) ^ 1095 ≤ 10 ^ 330 :=
      calc (2 : ℚ) ^ 1095 = (2 ^ 219) ^ 5 := by rw [← pow_mul]
        _ ≤ (10 ^ 66) ^ 5 := by gcongr; norm_num
        _ = 10 ^ 330 := by rw [← pow_mul]
    rw [div_lt_iff₀ (by positivity)]
    calc v < 10 ^ (-330 : ℤ) := hlt
      _ = ((10 : ℚ) ^ 330)⁻¹ := by rw [zpow_neg]; rfl
      _ ≤ (2 ^ 1095)⁻¹ := inv_anti₀ (by positivity) hpow
      _ = 2 ^ (-1095 : ℤ) := by rw [zpow_neg]; rfl
      _ ≤ 2 ^ (-1 + -1074 : ℤ) := zpow_le_zpow_right₀ one_le_two (by decide)
      _ = 1 / 2 * 2 ^ (-1074 : ℤ) := by rw [zpow_add₀ two_ne_zero, zpow_neg_one, one_div]
  have hnonneg : 0 ≤ v / 2 ^ (-1074 : ℤ) := by positivity
  have hround : RoundsTo (v / 2 ^ (-1074 : ℤ)) 0 := by
    refine .of_lt ?_
    rwa [Nat.cast_zero, zero_sub, abs_neg, abs_of_nonneg hnonneg]
  have hfits : v < overflow := lt_overflow (htiny.trans (by norm_num)) (by decide)
  exact nearest_of_grid (b := ⟨false, 0, -1074⟩) hfits (by decide +kernel) rfl (by simp [Binary.value]) id
    hround (.inl rfl)

theorem overflow_le_of_le {v : ℚ} (hv : 10 ^ (310 : ℤ) ≤ v) : overflow ≤ v :=
  calc overflow ≤ 2 ^ 53 * 2 ^ (971 : ℤ) := mul_le_mul_of_nonneg_right (by norm_num) (by positivity)
    _ = 2 ^ (1024 : ℤ) := by rw [← zpow_natCast, ← zpow_add₀ two_ne_zero]; rfl
    _ ≤ 2 ^ (1025 : ℤ) := zpow_le_zpow_right₀ one_le_two (by decide)
    _ = (2 ^ 205) ^ 5 := by rw [← pow_mul]; rfl
    _ ≤ (10 ^ 62) ^ 5 := by gcongr; norm_num
    _ = 10 ^ (310 : ℤ) := by rw [← pow_mul]; rfl
    _ ≤ v := hv

/-- A decimal denotes the float nearest to it; where its first digit decides, no power of ten is computed. -/
theorem nearest_toFloat (n : ℕ) (e : ℤ) : Nearest (n * 10 ^ e) (toFloat n e) := by
  rcases Nat.eq_zero_or_pos n with rfl | hn
  · rw [toFloat, if_pos rfl, Nat.cast_zero, zero_mul]
    exact nearest_zero le_rfl (by positivity)
  obtain ⟨hpos, hlow, hhigh⟩ := digitCount_bounds hn
  have hlog : digitCount n - 1 ≤ n.log2 :=
    (Nat.le_log2 hn.ne').2 ((Nat.pow_le_pow_left (by decide) _).trans hlow)
  have hten : (10 : ℚ) ≠ 0 := by norm_num
  have hlow : (10 : ℚ) ^ (e + digitCount n - 1) ≤ n * 10 ^ e := by
    rw [show e + digitCount n - 1 = (digitCount n - 1 : ℕ) + e by omega, zpow_add₀ hten, zpow_natCast]
    exact mul_le_mul_of_nonneg_right (by exact_mod_cast hlow) (by positivity)
  have hhigh : n * 10 ^ e < (10 : ℚ) ^ (e + digitCount n) := by
    rw [add_comm, zpow_add₀ hten, zpow_natCast]
    exact mul_lt_mul_of_pos_right (by exact_mod_cast hhigh) (by positivity)
  rw [toFloat, if_neg hn.ne']
  simp only
  split_ifs with hlarge hsmall
  · exact .infinite (overflow_le_of_le ((zpow_le_zpow_right₀ (by norm_num) (by omega)).trans hlow)) rfl
  · exact nearest_zero (by positivity) (hhigh.trans_le (zpow_le_zpow_right₀ (by norm_num) (by omega)))
  · by_cases hneg : e < 0
    · rw [decide_eq_true hneg, show e = -(e.natAbs : ℤ) by omega, zpow_neg, zpow_natCast, ← div_eq_mul_inv,
        Int.natAbs_neg, Int.natAbs_natCast]
      exact nearest_ofScientific_true hn (by omega) (by omega)
    · rw [decide_eq_false hneg, show e = (e.natAbs : ℤ) by omega, zpow_natCast, Int.natAbs_natCast]
      exact nearest_ofScientific_false hn (by omega)

end Decimals

theorem foldl_digits (n : ℕ) (cs : List Char) :
    cs.foldl (fun n c => 10 * n + (c.toNat - '0'.toNat)) n = n * 10 ^ cs.length + digitsValue cs := by
  induction cs generalizing n with
  | nil => simp [digitsValue]
  | cons c cs ih =>
    rw [digitsValue, List.foldl_cons, List.foldl_cons, ih, ih, List.length_cons, pow_succ]
    ring

theorem digitsValue_append (xs ys : List Char) :
    digitsValue (xs ++ ys) = digitsValue xs * 10 ^ ys.length + digitsValue ys := by
  rw [digitsValue, List.foldl_append, foldl_digits]
  rfl

namespace Numeral

/-- What is written: the whole part and the fraction, scaled by the power of ten. -/
def value (n : Numeral) : ℚ :=
  (digitsValue n.whole + digitsValue (n.fraction.drop 1) / 10 ^ (n.fraction.drop 1).length) *
    10 ^ n.writtenPower

theorem value_eq (n : Numeral) : n.value = n.mantissa * 10 ^ n.exponent := by
  have hten : (10 : ℚ) ≠ 0 := by norm_num
  rw [value, mantissa, digitsValue_append, exponent, ← List.length_drop, zpow_sub₀ hten, zpow_natCast]
  push_cast
  field_simp

/-- A numeral denotes the float nearest to what is written. -/
theorem nearest_value (n : Numeral) : Nearest n.value n.toFloat := by
  rw [value_eq]
  exact nearest_toFloat n.mantissa n.exponent

end Numeral

end Metrology.Decimal

import Mathlib.Algebra.Order.Group.Nat
import Mathlib.Tactic.Set
import Mathlib.Tactic.SplitIfs
import Metrology.Scalar

/-! Floats by their bits and by their parts. The exact value read off the bits of a float is that of its sign,
mantissa and exponent; so floats that compare as equal to one are the whole number one. -/
namespace Metrology.Decimal

open Float.Model Float.Model.UnpackedFloat

/-- The exact value of a float that has been taken apart. -/
def Binary.ofUnpacked? : UnpackedFloat → Option Binary
  | .finite sign m q _ => some ⟨sign == .negative, m, q⟩
  | .zero sign => some ⟨sign == .negative, 0, leastExponent⟩
  | .infinity _ | .notANumber => none

section Fields

variable (bits : BitVec 64)

theorem toNat_unpackExponent :
    (@unpackExponent Format.binary64 bits).toNat = bits.toNat / Nat.pow 2 52 % Nat.pow 2 11 := by
  simp [unpackExponent, BitVec.extractLsb_toNat, Nat.shiftRight_eq_div_pow]

theorem toNat_unpackMantissa :
    (@unpackMantissa Format.binary64 bits).toNat = bits.toNat % Nat.pow 2 52 := by
  simp [unpackMantissa, BitVec.extractLsb_toNat]

theorem unpackSign_eq_negative :
    (Sign.ofBitVec (@unpackSign Format.binary64 bits) == .negative) =
      (bits.toNat / Nat.pow 2 63 == 1) := by
  have hsign : (@unpackSign Format.binary64 bits).toNat = bits.toNat / Nat.pow 2 63 := by
    have hlt := bits.isLt
    delta unpackSign
    simp only [BitVec.toNat_cast, BitVec.extractLsb_toNat, Nat.shiftRight_eq_div_pow, Nat.pow_eq]
    omega
  rw [← hsign]
  generalize @unpackSign Format.binary64 bits = sign
  revert sign
  decide

end Fields

theorem toNat_one_append (m : BitVec 52) : (1#1 ++ m).toNat = m.toNat + Nat.pow 2 52 := by
  rw [BitVec.toNat_append, ← Nat.shiftLeft_add_eq_or_of_lt m.isLt, Nat.add_comm]
  rfl

theorem Binary.ofFloat?_eq_ofUnpacked? (x : Float) : ofFloat? x = ofUnpacked? x.toModel.unpack := by
  have hexponent := toNat_unpackExponent x.toModel.toBits.toBitVec
  have hmantissa := toNat_unpackMantissa x.toModel.toBits.toBitVec
  have hsign : (Sign.ofBitVec (@unpackSign Format.binary64 x.toModel.toBits.toBitVec) ==
    .negative) = signBit x := unpackSign_eq_negative x.toModel.toBits.toBitVec
  have hbits : x.toModel.toBits.toBitVec.toNat = x.toBits.toNat := rfl
  rw [hbits] at hexponent hmantissa
  unfold ofFloat?
  simp only [← hexponent, ← hmantissa, ← hsign]
  set e := @unpackExponent Format.binary64 x.toModel.toBits.toBitVec
  set m := @unpackMantissa Format.binary64 x.toModel.toBits.toBitVec
  have hlast : e = -1#11 ↔ e.toNat = 2047 := by rw [← BitVec.toNat_inj]; rfl
  have hfirst : e = 0#11 ↔ e.toNat = 0 := by rw [← BitVec.toNat_inj]; rfl
  by_cases hmax : e.toNat = 2047
  · have hunpack : x.toModel.unpack = if m = 0#52 then .infinity _ else .notANumber := if_pos (hlast.2 hmax)
    rw [if_pos hmax, hunpack]
    split_ifs <;> rfl
  · have hfinite := mt hlast.1 hmax
    rw [if_neg hmax]
    by_cases hmin : e.toNat = 0
    · rw [if_pos hmin]
      by_cases hm : m = 0#52
      · have hunpack : x.toModel.unpack = .zero _ :=
          (if_neg hfinite).trans ((if_pos (hfirst.2 hmin)).trans (dif_pos hm))
        rw [hunpack, hm]
        rfl
      · have hunpack : x.toModel.unpack = .finite _ m.toNat (e.toNat - 1075 + 1) _ :=
          (if_neg hfinite).trans ((if_pos (hfirst.2 hmin)).trans (dif_neg hm))
        rw [hunpack, hmin]
        rfl
    · have hunpack : x.toModel.unpack = .finite _ (1#1 ++ m).toNat (e.toNat - 1075) _ :=
        (if_neg hfinite).trans (if_neg (mt hfirst.1 hmin))
      rw [if_neg hmin, hunpack, ← toNat_one_append]
      rfl

theorem unpack_one : (1 : Float).toModel.unpack = .finite .positive (Nat.pow 2 52) (-52) (by decide) := rfl

/-- Nothing but one compares as equal to one. -/
theorem unpack_eq_of_beq_one {u : UnpackedFloat}
    (h : u.beq (.finite .positive (Nat.pow 2 52) (-52) (by decide)) = true) :
    u = .finite .positive (Nat.pow 2 52) (-52) (by decide) := by
  have hcompare : u.compare (.finite .positive (Nat.pow 2 52) (-52) (by decide)) = some .eq := eq_of_beq h
  cases u with
  | notANumber => cases hcompare
  | infinity sign => cases sign <;> cases hcompare
  | zero sign => cases hcompare
  | finite sign m e hm =>
    cases sign with
    | negative => cases hcompare
    | positive =>
      have hparts : (compare e (-52)).then (compare m (Nat.pow 2 52)) = .eq := Option.some.inj hcompare
      obtain ⟨rfl, rfl⟩ : e = -52 ∧ m = Nat.pow 2 52 := by simpa using hparts
      rfl

theorem toInt?_of_eq_one {x : Float} (h : Scalar.eq x 1 = true) : toInt? x = some 1 := by
  have hbeq : x.toModel.unpack.beq (1 : Float).toModel.unpack = true := h
  rw [unpack_one] at hbeq
  rw [toInt?, Binary.ofFloat?_eq_ofUnpacked?, unpack_eq_of_beq_one hbeq]
  rfl

end Metrology.Decimal

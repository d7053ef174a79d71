/-! The exponents that dimensions are made of. Catalogs and quantities are defined over any such type: a check
runs on machine integers of 32 bits, which wrap around, and unbounded integers are the exact reading of the same
definitions. Either way arithmetic on exponents is that of the integers, brought into the type by `ofInt`. -/
namespace Metrology

class Exponent (ε : Type) extends Zero ε, One ε, Add ε, Sub ε, Mul ε, Neg ε where
  decEq : DecidableEq ε
  toInt : ε → Int
  /-- What becomes of an integer that the type cannot hold is up to the type. -/
  ofInt : Int → ε
  ofInt_toInt : ∀ n : ε, ofInt (toInt n) = n
  toInt_ofInt : ∀ n : Int, n.natAbs < 2147483648 → toInt (ofInt n) = n
  ofInt_zero : ofInt 0 = 0
  ofInt_one : ofInt 1 = 1
  ofInt_add : ∀ m n : Int, ofInt (m + n) = ofInt m + ofInt n
  ofInt_sub : ∀ m n : Int, ofInt (m - n) = ofInt m - ofInt n
  ofInt_mul : ∀ m n : Int, ofInt (m * n) = ofInt m * ofInt n
  ofInt_neg : ∀ n : Int, ofInt (-n) = -ofInt n

instance (priority := low) {ε : Type} [Exponent ε] : DecidableEq ε := Exponent.decEq

@[default_instance]
instance : Exponent Int32 where
  zero := 0
  one := 1
  decEq := inferInstance
  toInt := Int32.toInt
  ofInt := Int32.ofInt
  ofInt_toInt := Int32.ofInt_toInt
  toInt_ofInt _ h := Int32.toInt_ofInt_of_le (by omega) (by omega)
  ofInt_zero := rfl
  ofInt_one := rfl
  ofInt_add := Int32.ofInt_add
  ofInt_sub := Int32.ofInt_sub
  ofInt_mul := Int32.ofInt_mul
  ofInt_neg := Int32.ofInt_neg

instance : Exponent Int where
  zero := 0
  one := 1
  decEq := inferInstance
  toInt n := n
  ofInt n := n
  ofInt_toInt _ := rfl
  toInt_ofInt _ _ := rfl
  ofInt_zero := rfl
  ofInt_one := rfl
  ofInt_add _ _ := rfl
  ofInt_sub _ _ := rfl
  ofInt_mul _ _ := rfl
  ofInt_neg _ := rfl

namespace Exponent

@[simp] theorem ofInt_int (n : Int) : (ofInt n : Int) = n := rfl

@[simp] theorem toInt_int (n : Int) : toInt n = n := rfl

variable {ε : Type} [Exponent ε]

theorem toInt_injective {m n : ε} (h : toInt m = toInt n) : m = n := by
  rw [← ofInt_toInt m, ← ofInt_toInt n, h]

@[simp] theorem toInt_zero : toInt (0 : ε) = 0 := by rw [← ofInt_zero, toInt_ofInt 0 (by decide)]

@[simp] theorem toInt_one : toInt (1 : ε) = 1 := by rw [← ofInt_one, toInt_ofInt 1 (by decide)]

@[simp] theorem sub_self (n : ε) : n - n = 0 := by
  rw [← ofInt_toInt n, ← ofInt_sub, Int.sub_self, ofInt_zero]

@[simp] theorem neg_neg (n : ε) : -(-n) = n := by
  rw [← ofInt_toInt n, ← ofInt_neg, ← ofInt_neg, Int.neg_neg]

theorem toInt_eq_zero {n : ε} : toInt n = 0 ↔ n = 0 := by
  constructor
  · intro h
    exact toInt_injective (h.trans toInt_zero.symm)
  · rintro rfl
    exact toInt_zero

end Exponent

end Metrology

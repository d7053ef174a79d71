import Metrology.Exponent

/-! Dimensions: one exponent for each base unit. All dimensions of one catalog have the same length,
its arity. -/
namespace Metrology

structure Dimension (ε : Type := Int32) where
  exponents : List ε
deriving DecidableEq, Repr, Inhabited

namespace Dimension

open Exponent (toInt ofInt)

variable {ε : Type} [Exponent ε]

def none (arity : Nat) : Dimension ε := ⟨List.replicate arity 0⟩

/-- The dimension of the base unit that owns a slot. -/
def base (arity slot : Nat) : Dimension ε := ⟨(List.replicate arity 0).set slot 1⟩

def arity {ε : Type} (d : Dimension ε) : Nat := d.exponents.length

def isNone (d : Dimension ε) : Bool := d.exponents.all (toInt · = 0)

def mul (a b : Dimension ε) : Dimension ε := ⟨List.zipWith (· + ·) a.exponents b.exponents⟩

def div (a b : Dimension ε) : Dimension ε := ⟨List.zipWith (· - ·) a.exponents b.exponents⟩

def pow (d : Dimension ε) (n : Int) : Dimension ε := ⟨d.exponents.map (· * ofInt n)⟩

/-- A base symbol with its exponent, which is left out when it is one. -/
def term (symbol : String) (n : Int) : String := if n = 1 then symbol else s!"{symbol}^{n}"

def numerator (symbols : List String) (d : Dimension ε) : List String :=
  (symbols.zip d.exponents).filterMap fun (symbol, n) =>
    if 0 < toInt n then some (term symbol (toInt n)) else .none

/-- The terms with a negative exponent, inverted as far as the type of exponents allows. -/
def denominator (symbols : List String) (d : Dimension ε) : List String :=
  (symbols.zip d.exponents).filterMap fun (symbol, n) =>
    if toInt n < 0 then some (term symbol (toInt (-n))) else .none

/-- A dimension as a quotient of products of base symbols, such as `kg*m/s^2`. -/
def render (symbols : List String) (d : Dimension ε) : String :=
  let above := match d.numerator symbols with
    | [] => "1"
    | terms => "*".intercalate terms
  match d.denominator symbols with
  | [] => above
  | terms => above ++ "/" ++ "*".intercalate terms

@[simp] theorem arity_none (n : Nat) : (none n : Dimension ε).arity = n := by simp [none, arity]

@[simp] theorem arity_base (n slot : Nat) : (base n slot : Dimension ε).arity = n := by simp [base, arity]

@[simp] theorem arity_mul (a b : Dimension ε) : (a.mul b).arity = min a.arity b.arity := by
  simp [mul, arity]

@[simp] theorem arity_div (a b : Dimension ε) : (a.div b).arity = min a.arity b.arity := by
  simp [div, arity]

@[simp] theorem arity_pow (d : Dimension ε) (n : Int) : (d.pow n).arity = d.arity := by
  simp [pow, arity]

theorem isNone_iff (d : Dimension ε) : d.isNone = true ↔ d = none d.arity := by
  cases d with
  | mk exponents => simp [isNone, none, arity, List.eq_replicate_iff, Exponent.toInt_eq_zero]

end Dimension

end Metrology

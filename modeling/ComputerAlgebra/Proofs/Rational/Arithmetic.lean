import ComputerAlgebra.Number.Functions
import ComputerAlgebra.Proofs.Rational.Value
import ComputerAlgebra.Proofs.Semantics.Ring
import Mathlib.Algebra.GroupWithZero.Basic

/-!
Arithmetic of the number tower on fractions and NaN. It is exact, leaves the float unit alone and
never fails; NaN is the outcome when an operand is NaN.
-/

namespace ComputerAlgebra

theorem RealNumber.neg_rational (q : Rat) : (RealNumber.rational q).neg = pure (.rational (-q)) := by
  funext u
  rfl

namespace Number

variable (c : Config)

def ofValue : Option Rat → Number
  | some q => ofRat q
  | none => nan

theorem ofRat_isZero {q : Rat} : (ofRat q).isZero = true ↔ q = 0 := by
  simp [ofRat, isZero, RealNumber.isZero]

theorem ofRat_injective {p q : Rat} (same : ofRat p = ofRat q) : p = q := by
  simpa [ofRat] using same

theorem ofInt_injective {m n : Int} (same : ofInt m = ofInt n) : m = n := by
  have casts : (m : Rat) = n := ofRat_injective same
  exact_mod_cast casts

theorem neg_ofRat (q : Rat) : neg c (ofRat q) = pure (ofRat (-q)) := by
  funext u
  rfl

theorem add_ofValue (x y : Option Rat) :
    add c (ofValue x) (ofValue y) = pure (ofValue (x.bind fun p => y.map fun q => p + q)) := by
  cases x <;> cases y <;> rfl

theorem sub_ofValue (x y : Option Rat) :
    sub c (ofValue x) (ofValue y) = pure (ofValue (x.bind fun p => y.map fun q => p - q)) := by
  cases y with
  | none => cases x <;> rfl
  | some q =>
    cases x with
    | none => rfl
    | some p =>
      change (neg c (ofRat q) >>= fun n => add c (ofRat p) n) = _
      rw [neg_ofRat, pure_bind]
      refine (add_ofValue c (some p) (some (-q))).trans ?_
      simp [sub_eq_add_neg]

theorem mul_ofValue (x y : Option Rat) :
    mul c (ofValue x) (ofValue y) = pure (ofValue (x.bind fun p => y.map fun q => p * q)) := by
  cases x <;> cases y <;> rfl

theorem div_ofRat (p : Rat) {q : Rat} (nonzero : q ≠ 0) :
    div c (ofRat p) (ofRat q) = pure (ofRat (p / q)) := by
  have apart : (ofRat q).isZero = false := by
    rw [Bool.eq_false_iff]
    exact fun zero => nonzero (ofRat_isZero.mp zero)
  have apart' : (RealNumber.rational q).isZero = false := apart
  simp only [div, apart]
  simp [ofRat, isNaN, RealNumber.isNaN, RealNumber.div, apart']

theorem div_nan_right (z : Number) : div c z nan = pure nan := by
  simp [div, nan, isNaN, RealNumber.isNaN]

theorem powInt_ofRat {x : Rat} {n : Int} (defined : n < 0 → x ≠ 0) (apart : n ≠ 0) :
    powInt c (ofRat x) n = pure (ofRat (x ^ n)) := by
  by_cases zero : x = 0
  · subst zero
    have positive : 0 < n := by
      rcases lt_trichotomy n 0 with below | same | above
      · exact absurd rfl (defined below)
      · exact absurd same apart
      · exact above
    simp only [powInt, ofRat_isZero.mpr rfl, if_true, if_pos positive]
    rw [zero_zpow n apart]
    rfl
  · have regular : (ofRat x).isZero = false := by
      simpa using fun found => zero (ofRat_isZero.mp found)
    have fraction : (ofRat x).rational? = some x := rfl
    simp only [powInt, regular, Bool.false_eq_true, if_false, fraction, ratPow_eq]
    congr 2
    by_cases below : n < 0
    · rw [if_pos below]
      obtain ⟨m, rfl⟩ := Int.eq_negSucc_of_lt_zero below
      rw [zpow_negSucc]
      rfl
    · rw [if_neg below]
      obtain ⟨m, rfl⟩ := Int.eq_ofNat_of_zero_le (not_lt.mp below)
      simp

theorem pow_ofRat {x : Rat} {n : Int} (defined : n < 0 → x ≠ 0) :
    pow c (ofRat x) (ofInt n) = pure (ofRat (x ^ n)) := by
  have whole : (ofInt n).integer? = some n := integer?_eq_some.mpr rfl
  by_cases zero : n = 0
  · subst zero
    rw [zpow_zero]
    rfl
  · have apart : (ofInt n).isZero = false := by
      simpa [ofInt, isZero, RealNumber.isZero] using zero
    simp only [pow, apart, whole]
    exact powInt_ofRat c defined zero

theorem ofRat_numerals : Numerals ofRat where
  injective _ _ := ofRat_injective
  zero := rfl
  one := rfl
  minusOne := rfl
  isZero := ofRat_isZero
  neg := neg_ofRat
  add c p q := add_ofValue c (some p) (some q)
  mul c p q := mul_ofValue c (some p) (some q)

end Number

/-- The values at an assignment are a reading in the ring of fractions. -/
theorem Expr.valueAt?_ring (ρ : Assignment) :
    RingReading Number.ofRat (.id Rat) fun e v => valueAt? ρ e = some v where
  numerals := Number.ofRat_numerals
  num := by simp
  sum := valueAt?_sum
  minus := valueAt?_minus
  mul := valueAt?_mul

end ComputerAlgebra

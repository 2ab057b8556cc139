import ComputerAlgebra.Number.Functions
import ComputerAlgebra.Proofs.Integer.Root
import ComputerAlgebra.Proofs.Rational.Arithmetic
import Mathlib.Algebra.Order.Ring.Abs

/-!
Fractional powers of perfect powers are exact. A fraction in lowest terms is a power exactly if its
numerator and its denominator are, so both roots are found; the root of a negative number is the real one,
for odd degrees.
-/

namespace ComputerAlgebra.Number

variable {q : Nat}

theorem exactRoot?_perfect (r : Rat) (degree : 0 < q) (tried : q ≤ 64) (sign : Even q → 0 ≤ r) :
    exactRoot? (r ^ q) q = some r := by
  have below : r ^ q < 0 ↔ r < 0 := by
    rcases Nat.even_or_odd q with even | odd
    · have nonneg := sign even
      have power : 0 ≤ r ^ q := pow_nonneg nonneg q
      exact ⟨fun negative => absurd power (not_le.mpr negative),
        fun negative => absurd nonneg (not_le.mpr negative)⟩
    · exact odd.pow_neg_iff
  have refused : (maxRootDegree < q || (r ^ q < 0 && q % 2 == 0)) = false := by
    have small : ¬ maxRootDegree < q := not_lt.mpr tried
    simp only [small, decide_false, Bool.false_or, Bool.and_eq_false_iff, decide_eq_false_iff_not]
    rcases Nat.even_or_odd q with even | odd
    · exact .inl (not_lt.mpr (pow_nonneg (sign even) q))
    · exact .inr (by simp [Nat.odd_iff.mp odd])
  have numerator : (r ^ q).num.natAbs = r.num.natAbs ^ q := by rw [Rat.num_pow, Int.natAbs_pow]
  have denominator : (r ^ q).den = r.den ^ q := Rat.den_pow r q
  have signed : (if r ^ q < 0 then -(r.num.natAbs : Int) else r.num.natAbs) = r.num := by
    split
    · next negative =>
      have num := Rat.num_neg.mpr (below.mp negative)
      omega
    · next positive =>
      have num := Rat.num_nonneg.mpr (not_lt.mp (mt below.mpr positive))
      omega
  rw [exactRoot?, refused, numerator, denominator]
  simp only [Bool.false_eq_true, if_false, exactRoot?_pow degree]
  rw [signed, Int.toNat_natCast, Rat.mkRat_self]

/-- A fraction in lowest terms with a denominator above one is no integer, and none of its parts is lost. -/
theorem parts_lowest {p : Int} (least : 2 ≤ q) (lowest : p.natAbs.Coprime q) :
    ((p : Rat) / q).num = p ∧ ((p : Rat) / q).den = q := by
  have positive : (0 : Int) < q := by omega
  have num := Rat.num_div_eq_of_coprime positive lowest
  have den := Rat.den_div_eq_of_coprime positive lowest
  exact ⟨by exact_mod_cast num, by exact_mod_cast den⟩

/-- For degrees up to the largest that is tried, a fractional power of a perfect power is the power of the
root, an integer or a fraction, whatever the settings, and it leaves the float unit alone. The base may be
negative where the degree is odd. A negative power of zero is infinite. -/
theorem perfect_power_exact (c : Config) (r : Rat) (least : 2 ≤ q) (tried : q ≤ 64) {p : Int}
    (lowest : p.natAbs.Coprime q) (sign : Even q → 0 ≤ r) :
    pow c (ofRat (r ^ q)) (ofRat (p / q)) =
      pure (if r = 0 ∧ p < 0 then positiveInfinity else ofRat (r ^ p)) := by
  obtain ⟨num, den⟩ := parts_lowest least lowest
  have apart : p ≠ 0 := by
    rintro rfl
    rw [Int.natAbs_zero, Nat.coprime_zero_left] at lowest
    omega
  have nonzero : (ofRat (p / q)).isZero = false := by
    rw [Bool.eq_false_iff, Ne, ofRat_isZero, ← Rat.num_eq_zero, num]
    exact apart
  have broken : (ofRat (p / q)).integer? = none := by
    change (if ((p : Rat) / q).den = 1 then some ((p : Rat) / q).num else none) = none
    rw [den, if_neg (by omega)]
  have root : rootOf? (ofRat (r ^ q)) (ofRat (p / q)) = some (r, p) := by
    change (exactRoot? (r ^ q) ((p : Rat) / q).den).map (·, ((p : Rat) / q).num) = some (r, p)
    rw [num, den, exactRoot?_perfect r (by omega) tried sign]
    rfl
  have same : pow c (ofRat (r ^ q)) (ofRat (p / q)) = powInt c (ofRat r) p := by
    simp only [pow, nonzero, broken, root]
    rfl
  rw [same]
  split
  · next pole =>
    have zero : (ofRat r).isZero = true := ofRat_isZero.mpr pole.1
    simp only [powInt, zero, if_true, if_neg pole.2.le.not_gt]
  · next regular => exact powInt_ofRat c (fun negative zero => regular ⟨zero, negative⟩) apart

/-- The power of `-8/27` to `-2/3` is that of the cube root, and infinite at zero. -/
theorem perfect_power_exact_cube :
    pow .default (ofRat ((-2 / 3) ^ 3)) (ofRat ((-2 : Int) / (3 : Nat))) = pure (ofRat (9 / 4)) ∧
      pow .default (ofRat (0 ^ 3)) (ofRat ((-2 : Int) / (3 : Nat))) = pure positiveInfinity := by
  have odd : ¬ Even 3 := by decide
  have cube := perfect_power_exact .default (-2 / 3) (q := 3) (by decide) (by decide) (p := -2) (by decide)
    fun even => absurd even odd
  have pole := perfect_power_exact .default 0 (q := 3) (by decide) (by decide) (p := -2) (by decide)
    fun even => absurd even odd
  refine ⟨cube.trans ?_, pole.trans ?_⟩
  · rw [if_neg (by norm_num)]
    norm_num
  · rw [if_pos (by decide)]

end ComputerAlgebra.Number

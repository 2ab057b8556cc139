import ComputerAlgebra.Expr.Kind
import ComputerAlgebra.Proofs.Rational.Arithmetic
import Mathlib.Algebra.QuadraticAlgebra.Basic
import Mathlib.Tactic.FieldSimp
import Mathlib.Tactic.Ring

/-!
The numbers with fractions for both parts are the field `ℚ(i)`. Each value of the field has one
number that stands for it: a fraction when its imaginary part is zero, a complex number otherwise.
On these numbers the arithmetic is that of the field under every setting; no operation fails or looks
at the float unit. Powers are exact for every whole exponent of a fraction, and for the exponents that
are multiplied out when the base is not real.
-/

namespace ComputerAlgebra

/-- The Gaussian rationals, `ℚ` with a square root of minus one. -/
abbrev Gaussian := QuadraticAlgebra Rat (-1) 0

instance Gaussian.noRealRoot : Fact (∀ r : Rat, r ^ 2 ≠ -1 + 0 * r) :=
  ⟨fun r root => by linarith [sq_nonneg r]⟩

theorem Gaussian.norm_ne_zero {w : Gaussian} (nonzero : w ≠ 0) : w.re * w.re + w.im * w.im ≠ 0 := by
  have apart := mt QuadraticAlgebra.norm_eq_zero_iff_eq_zero.mp nonzero
  simpa [QuadraticAlgebra.norm_def] using apart

theorem Gaussian.div_parts (z w : Gaussian) :
    z / w = ⟨(z.re * w.re + z.im * w.im) / (w.re * w.re + w.im * w.im),
      (z.im * w.re - z.re * w.im) / (w.re * w.re + w.im * w.im)⟩ := by
  rw [div_eq_mul_inv]
  ext
  · simp [QuadraticAlgebra.inv_def, QuadraticAlgebra.norm_def]
    ring
  · simp [QuadraticAlgebra.inv_def, QuadraticAlgebra.norm_def]
    ring

namespace Number

variable (c : Config)

def ofGaussian (z : Gaussian) : Number :=
  if z.im = 0 then ofRat z.re else .complex (.rational z.re) (.rational z.im)

/-- The Gaussian rational that a number stands for: it has fractions for its parts, and the imaginary
part of a complex number is not zero. -/
def gaussian? : Number → Option Gaussian
  | .real (.rational q) => some ⟨q, 0⟩
  | .complex (.rational p) (.rational q) => if q = 0 then none else some ⟨p, q⟩
  | _ => none

theorem ofGaussian_real {z : Gaussian} (real : z.im = 0) : ofGaussian z = ofRat z.re := if_pos real

theorem ofGaussian_complex {z : Gaussian} (apart : z.im ≠ 0) :
    ofGaussian z = .complex (.rational z.re) (.rational z.im) := if_neg apart

theorem gaussian?_eq_some {a : Number} {z : Gaussian} : a.gaussian? = some z ↔ a = ofGaussian z := by
  constructor
  · intro found
    unfold gaussian? at found
    split at found
    · next q => cases found; rfl
    · next p q =>
      split at found
      · cases found
      · next apart =>
        cases found
        exact (ofGaussian_complex (z := ⟨p, q⟩) apart).symm
    · cases found
  · rintro rfl
    obtain ⟨re, im⟩ := z
    by_cases real : im = 0
    · subst real
      rfl
    · rw [ofGaussian_complex real]
      exact if_neg real

theorem ofGaussian_kindName (z : Gaussian) :
    (ofGaussian z).kindName =
      if z.im ≠ 0 then "Complex" else if z.re.den = 1 then "Integer" else "Rational" := by
  by_cases real : z.im = 0
  · simp [ofGaussian_real real, real, ofRat, kindName, RealNumber.kindName]
  · simp [ofGaussian_complex real, real, kindName]

@[simp]
theorem ofGaussian_re (z : Gaussian) : (ofGaussian z).re = .rational z.re := by
  unfold ofGaussian
  split <;> rfl

@[simp]
theorem ofGaussian_im (z : Gaussian) : (ofGaussian z).im = .rational z.im := by
  unfold ofGaussian
  split
  · next real => rw [real]; rfl
  · rfl

@[simp]
theorem ofGaussian_isNaN (z : Gaussian) : (ofGaussian z).isNaN = false := by
  unfold ofGaussian
  split <;> rfl

theorem ofGaussian_isZero (z : Gaussian) : (ofGaussian z).isZero = decide (z = 0) := by
  obtain ⟨re, im⟩ := z
  by_cases real : im = 0
  · subst real
    simp [ofGaussian, ofRat, isZero, RealNumber.isZero, QuadraticAlgebra.ext_iff]
  · simp [ofGaussian, isZero, QuadraticAlgebra.ext_iff, real]

theorem ofParts_rational (p q : Rat) :
    ofParts c (.rational p) (.rational q) = pure (ofGaussian ⟨p, q⟩) := by
  by_cases real : q = 0
  · simp [ofParts, RealNumber.isNaN, RealNumber.isZero, ofGaussian, real, ofRat]
  · simp [ofParts, RealNumber.isNaN, RealNumber.isZero, ofGaussian, real, isNegligible]

theorem mulParts_rational (p q : Rat) :
    mulParts c (.rational p) (.rational q) = pure (.rational (p * q)) := by
  unfold mulParts
  split
  · next zero =>
    have vanishes : p * q = 0 := by
      simpa [RealNumber.isZero] using zero
    rw [vanishes]
  · rfl

theorem sub_rational (p q : Rat) :
    RealNumber.sub c (.rational p) (.rational q) = pure (.rational (p - q)) := by
  rw [sub_eq_add_neg]
  rfl

theorem div_rational (p : Rat) {q : Rat} (nonzero : q ≠ 0) :
    RealNumber.div c (.rational p) (.rational q) = pure (.rational (p / q)) := by
  simp [RealNumber.div, RealNumber.isNaN, RealNumber.isZero, nonzero]

theorem add_ofGaussian (z w : Gaussian) :
    add c (ofGaussian z) (ofGaussian w) = pure (ofGaussian (z + w)) := by
  have parts : ofParts c (.rational (z.re + w.re)) (.rational (z.im + w.im)) =
      pure (ofGaussian (z + w)) := ofParts_rational c _ _
  by_cases left : z.im = 0
  · by_cases right : w.im = 0
    · have sum : (z + w).im = 0 := by simp [left, right]
      rw [ofGaussian_real left, ofGaussian_real right, ofGaussian_real sum]
      rfl
    · rw [← parts, left, ofGaussian_real left, ofGaussian_complex right]
      rfl
  · by_cases right : w.im = 0
    · rw [← parts, right, ofGaussian_complex left, ofGaussian_real right]
      rfl
    · rw [← parts, ofGaussian_complex left, ofGaussian_complex right]
      rfl

theorem neg_ofGaussian (z : Gaussian) : neg c (ofGaussian z) = pure (ofGaussian (-z)) := by
  by_cases real : z.im = 0
  · have opposite : (-z).im = 0 := by simp [real]
    rw [ofGaussian_real real, ofGaussian_real opposite]
    exact neg_ofRat c z.re
  · rw [ofGaussian_complex real]
    exact ofParts_rational c (-z.re) (-z.im)

theorem sub_ofGaussian (z w : Gaussian) :
    sub c (ofGaussian z) (ofGaussian w) = pure (ofGaussian (z - w)) := by
  rw [sub, neg_ofGaussian, pure_bind, add_ofGaussian, sub_eq_add_neg]

theorem mul_parts (z w : Gaussian) :
    (do
      let rr ← mulParts c (.rational z.re) (.rational w.re)
      let re ← rr.sub c (← mulParts c (.rational z.im) (.rational w.im))
      let ri ← mulParts c (.rational z.re) (.rational w.im)
      ofParts c re (← ri.add c (← mulParts c (.rational z.im) (.rational w.re)))) =
      pure (ofGaussian (z * w)) := by
  have sum (p q : Rat) : RealNumber.add c (.rational p) (.rational q) = pure (.rational (p + q)) := rfl
  simp only [mulParts_rational, pure_bind, sub_rational, sum, ofParts_rational]
  congr 2
  ext
  · simp
    ring
  · simp

theorem mul_ofGaussian (z w : Gaussian) :
    mul c (ofGaussian z) (ofGaussian w) = pure (ofGaussian (z * w)) := by
  have parts := mul_parts c z w
  by_cases left : z.im = 0
  · by_cases right : w.im = 0
    · have product : (z * w).im = 0 := by simp [left, right]
      have whole : (z * w).re = z.re * w.re := by simp [left]
      rw [ofGaussian_real left, ofGaussian_real right, ofGaussian_real product, whole]
      rfl
    · rw [← parts, left, ofGaussian_real left, ofGaussian_complex right]
      rfl
  · by_cases right : w.im = 0
    · rw [← parts, right, ofGaussian_complex left, ofGaussian_real right]
      rfl
    · rw [← parts, ofGaussian_complex left, ofGaussian_complex right]
      rfl

theorem div_ofGaussian (z : Gaussian) {w : Gaussian} (nonzero : w ≠ 0) :
    div c (ofGaussian z) (ofGaussian w) = pure (ofGaussian (z / w)) := by
  have apart : (ofGaussian w).isZero = false := by simp [ofGaussian_isZero, nonzero]
  have sum (p q : Rat) : RealNumber.add c (.rational p) (.rational q) = pure (.rational (p + q)) := rfl
  have product (p q : Rat) :
      RealNumber.mul c (.rational p) (.rational q) = pure (.rational (p * q)) := rfl
  have norm := Gaussian.norm_ne_zero nonzero
  rw [Gaussian.div_parts]
  by_cases right : w.im = 0
  · have divisor : w.re ≠ 0 := fun zero => nonzero (QuadraticAlgebra.ext zero right)
    have simpler (p : Rat) : p * w.re / (w.re * w.re) = p / w.re := by field_simp
    simp only [right, mul_zero, add_zero, sub_zero, simpler]
    by_cases left : z.im = 0
    · rw [ofGaussian_real left, ofGaussian_real right, div_ofRat c z.re divisor, left, zero_div]
      rfl
    · rw [ofGaussian_real right] at apart ⊢
      rw [ofGaussian_complex left]
      simp only [div, apart]
      simp [isNaN, RealNumber.isNaN, ofRat, div_rational, divisor, ofParts_rational]
  · rw [ofGaussian_complex right] at apart ⊢
    simp only [div, apart, ofGaussian_isNaN, ofGaussian_re, ofGaussian_im]
    simp [isNaN, sum, product, sub_rational, div_rational, norm, ofParts_rational]

/-- Binary powering multiplies the result by the power that is left. -/
theorem powLoop_ofGaussian (n : Nat) (result square : Gaussian) :
    powLoop c (ofGaussian result) (ofGaussian square) n = pure (ofGaussian (result * square ^ n)) := by
  induction n using Nat.strongRecOn generalizing result square with
  | _ n ih =>
    unfold powLoop
    split
    · next none => simp [none]
    · next some =>
      have halves : square ^ n = square ^ (n % 2) * (square * square) ^ (n / 2) := by
        rw [← pow_two, ← pow_mul, ← pow_add, Nat.mod_add_div]
      have rest (next : Gaussian) : (do
          if n / 2 = 0 then return ofGaussian next
          powLoop c (ofGaussian next) (← mul c (ofGaussian square) (ofGaussian square)) (n / 2)) =
          pure (ofGaussian (next * (square * square) ^ (n / 2))) := by
        split
        · next last => simp [last]
        · rw [mul_ofGaussian, pure_bind]
          exact ih (n / 2) (by omega) next (square * square)
      rcases Nat.mod_two_eq_zero_or_one n with even | odd
      · rw [halves, even, pow_zero, one_mul, ← rest result]
        simp
      · rw [halves, odd, pow_one, ← mul_assoc, ← rest (result * square)]
        simp [mul_ofGaussian]

/-- The powers that are multiplied out, of a base that is not real. -/
theorem powInt_ofGaussian {z : Gaussian} {n : Int} (apart : z.im ≠ 0)
    (small : n.natAbs ≤ maxExactPower) :
    powInt c (ofGaussian z) n = pure (ofGaussian (z ^ n)) := by
  have nonzero : z ≠ 0 := fun zero => apart (by simp [zero])
  have regular : (ofGaussian z).isZero = false := by simp [ofGaussian_isZero, nonzero]
  have fraction : (ofGaussian z).rational? = none := by
    rw [ofGaussian_complex apart]
    rfl
  have exact : (ofGaussian z).isExact = true := by
    rw [ofGaussian_complex apart]
    rfl
  have one : (1 : Number) = ofGaussian 1 := rfl
  have loop := powLoop_ofGaussian c n.natAbs 1 z
  rw [one_mul] at loop
  simp only [powInt, regular, fraction, exact, small, decide_true, Bool.and_true, if_true,
    Bool.false_eq_true, if_false, one, loop, pure_bind]
  by_cases below : n < 0
  · obtain ⟨m, rfl⟩ := Int.eq_negSucc_of_lt_zero below
    rw [if_pos below, zpow_negSucc, Int.natAbs_negSucc, div_ofGaussian c 1 (pow_ne_zero _ nonzero),
      one_div]
  · obtain ⟨m, rfl⟩ := Int.eq_ofNat_of_zero_le (not_lt.mp below)
    rw [if_neg below]
    simp

theorem pow_ofGaussian {z : Gaussian} {n : Int} (defined : n < 0 → z ≠ 0)
    (small : z.im = 0 ∨ n.natAbs ≤ maxExactPower) :
    pow c (ofGaussian z) (ofInt n) = pure (ofGaussian (z ^ n)) := by
  by_cases real : z.im = 0
  · obtain ⟨q, rfl⟩ : ∃ q : Rat, algebraMap Rat Gaussian q = z :=
      ⟨z.re, QuadraticAlgebra.ext rfl real.symm⟩
    have defined' : n < 0 → q ≠ 0 := fun below zero => defined below (by simp [zero])
    have fraction (p : Rat) : ofGaussian (algebraMap Rat Gaussian p) = ofRat p := ofGaussian_real rfl
    rw [← map_zpow₀, fraction, fraction]
    exact pow_ofRat c defined'
  · have whole : (ofInt n).integer? = some n := integer?_eq_some.mpr rfl
    by_cases none : n = 0
    · subst none
      rw [zpow_zero, ofGaussian_complex real]
      rfl
    · have apart : (ofInt n).isZero = false := by simpa [ofInt, isZero, RealNumber.isZero] using none
      have same : pow c (ofGaussian z) (ofInt n) = powInt c (ofGaussian z) n := by
        simp only [pow, ofGaussian_isNaN, apart, whole]
        rfl
      rw [same]
      exact powInt_ofGaussian c real (small.resolve_left real)

/-- Exact complex arithmetic is the field of the Gaussian rationals: on numbers that stand for `z` and
`w`, every operation returns from every unit, which it leaves alone, the number for the result in the
field. That number is an integer when the result is whole, a fraction when it is real, and a complex
number otherwise. -/
theorem gaussian_arithmetic {a b : Number} {z w : Gaussian} (left : a.gaussian? = some z)
    (right : b.gaussian? = some w) :
    add c a b = pure (ofGaussian (z + w)) ∧
    sub c a b = pure (ofGaussian (z - w)) ∧
    neg c a = pure (ofGaussian (-z)) ∧
    mul c a b = pure (ofGaussian (z * w)) ∧
    (w ≠ 0 → div c a b = pure (ofGaussian (z / w))) ∧
    (∀ n : Int, (n < 0 → z ≠ 0) → (z.im = 0 ∨ n.natAbs ≤ 4096) →
      pow c a (ofInt n) = pure (ofGaussian (z ^ n))) ∧
    (∀ r : Gaussian, (ofGaussian r).gaussian? = some r ∧
      (ofGaussian r).kindName =
        if r.im ≠ 0 then "Complex" else if r.re.den = 1 then "Integer" else "Rational") := by
  rw [gaussian?_eq_some] at left right
  subst left right
  refine ⟨add_ofGaussian c z w, sub_ofGaussian c z w, neg_ofGaussian c z, mul_ofGaussian c z w,
    fun nonzero => div_ofGaussian c z nonzero, fun n defined small => pow_ofGaussian c defined small,
    fun r => ⟨gaussian?_eq_some.mpr rfl, ofGaussian_kindName r⟩⟩

/-- For `1/2 + i` and `2`: the quotient has the parts `1/4` and `1/2`, and the inverse of the square of
the first has the parts `-12/25` and `-16/25`. -/
theorem gaussian_arithmetic_half :
    div Config.default (.complex (.rational (1 / 2)) (.rational 1)) (ofRat 2) =
      pure (.complex (.rational (1 / 4)) (.rational (1 / 2))) ∧
    pow Config.default (.complex (.rational (1 / 2)) (.rational 1)) (ofInt (-2)) =
      pure (.complex (.rational (-12 / 25)) (.rational (-16 / 25))) := by
  obtain ⟨-, -, -, -, quotient, power, -⟩ :=
    gaussian_arithmetic Config.default (a := .complex (.rational (1 / 2)) (.rational 1)) (b := ofRat 2)
      (z := ⟨1 / 2, 1⟩) (w := ⟨2, 0⟩) rfl rfl
  have first : (⟨1 / 2, 1⟩ / ⟨2, 0⟩ : Gaussian) = ⟨1 / 4, 1 / 2⟩ := by
    rw [Gaussian.div_parts]
    norm_num
  have square : (⟨1 / 2, 1⟩ : Gaussian) ^ 2 = ⟨-3 / 4, 1⟩ := by
    ext
    · norm_num [pow_two]
    · norm_num [pow_two]
  have second : (⟨1 / 2, 1⟩ : Gaussian) ^ (-2 : Int) = ⟨-12 / 25, -16 / 25⟩ := by
    rw [zpow_neg, zpow_ofNat, square, ← one_div, Gaussian.div_parts]
    norm_num [QuadraticAlgebra.re_one, QuadraticAlgebra.im_one]
  have nonzero : (⟨2, 0⟩ : Gaussian) ≠ 0 := by simp [QuadraticAlgebra.ext_iff]
  have nonzero' : (⟨1 / 2, 1⟩ : Gaussian) ≠ 0 := by simp [QuadraticAlgebra.ext_iff]
  constructor
  · rw [quotient nonzero, first, ofGaussian_complex (by norm_num)]
  · rw [power (-2) (fun _ => nonzero') (.inr (by decide)), second, ofGaussian_complex (by norm_num)]

end Number
end ComputerAlgebra

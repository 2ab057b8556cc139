import ComputerAlgebra.BigFloat.Basic
import ComputerAlgebra.Integer.RoundingLemmas
import Mathlib.Algebra.Order.Field.Power
import Mathlib.Algebra.Order.Floor.Ring
import Mathlib.Data.Rat.Floor
import Mathlib.Tactic.Linarith
import Mathlib.Tactic.Positivity

/-!
Bounds of rounded values. In every direction a quotient of integers stays on its side of each
integer, so rounding keeps a value between the two powers of two that its magnitude names, and never
makes a zero of what is not zero.
-/

namespace ComputerAlgebra

namespace Direction

variable {m n : Int} {d : Nat}

theorem le_quotient (r : Direction) (pos : 0 < d) (below : m * d ≤ n) : m ≤ r.quotient n d := by
  have divisor : (0 : Int) < d := by omega
  have floor : m ≤ n / d := Int.le_ediv_of_mul_le divisor below
  have upper : -n / d ≤ -m := by
    apply Int.ediv_le_of_le_mul divisor
    linarith
  cases r with
  | nearest =>
    have parity := Int.emod_nonneg (n / d) (show (2 : Int) ≠ 0 by decide)
    simp only [quotient, nearestEven]
    split
    · exact floor
    split <;> omega
  | towardZero =>
    simp only [quotient]
    split <;> omega
  | awayFromZero =>
    simp only [quotient]
    split <;> omega

theorem quotient_le (r : Direction) (pos : 0 < d) (above : n ≤ m * d) : r.quotient n d ≤ m := by
  have divisor : (0 : Int) < d := by omega
  have floor : n / d ≤ m := Int.ediv_le_of_le_mul divisor above
  have upper : -m ≤ -n / d := by
    apply Int.le_ediv_of_mul_le divisor
    linarith
  cases r with
  | nearest =>
    have split_rest := Int.emod_add_mul_ediv n d
    have rest := Int.emod_nonneg n divisor.ne'
    have parity := Int.emod_lt_of_pos (n / d) (show (0 : Int) < 2 by decide)
    simp only [quotient, nearestEven]
    rcases floor.lt_or_eq with short | exact
    · split
      · exact floor
      split <;> omega
    · rw [exact] at split_rest
      rw [if_pos (by linarith), exact]
  | towardZero =>
    simp only [quotient]
    split <;> omega
  | awayFromZero =>
    simp only [quotient]
    split <;> omega

theorem quotient_near (r : Direction) (pos : 0 < d) : |n - r.quotient n d * d| ≤ d := by
  have whole := Int.emod_add_mul_ediv n d
  have low := Int.emod_nonneg n (by omega : (d : Int) ≠ 0)
  have high := Int.emod_lt_of_pos n (by omega : (0 : Int) < d)
  have floor := le_quotient r pos (show n / d * d ≤ n by linarith)
  have ceiling := quotient_le r pos (show n ≤ (n / d + 1) * d by linarith)
  have divisor : (0 : Int) ≤ d := by omega
  rw [abs_le]
  constructor
  · linarith [mul_le_mul_of_nonneg_right ceiling divisor]
  · linarith [mul_le_mul_of_nonneg_right floor divisor]

/-- A quotient keeps its sign and at least the whole part of its size. -/
theorem le_natAbs_quotient (r : Direction) {k : Nat} (pos : 0 < d) (positive : 0 < k)
    (below : k * d ≤ n.natAbs) : k ≤ (r.quotient n d).natAbs ∧ (0 < n ↔ 0 < r.quotient n d) := by
  have size : (k : Int) * d ≤ n.natAbs := by exact_mod_cast below
  rcases lt_or_ge 0 n with above | negative
  · rw [Int.natAbs_of_nonneg above.le] at size
    have lower := le_quotient r pos size
    omega
  · rw [Int.ofNat_natAbs_of_nonpos negative] at size
    have upper := quotient_le r pos (show n ≤ -(k : Int) * d by linarith)
    omega

theorem natAbs_quotient_le (r : Direction) {k : Nat} (pos : 0 < d) (above : n.natAbs ≤ k * d) :
    (r.quotient n d).natAbs ≤ k := by
  have size : (n.natAbs : Int) ≤ k * d := by exact_mod_cast above
  have upper := quotient_le r pos (show n ≤ (k : Int) * d by omega)
  have lower := le_quotient r pos (show -(k : Int) * d ≤ n by rw [neg_mul]; omega)
  omega

end Direction

namespace BigFloat

theorem two_pow_le_abs {n : Int} (nonzero : n ≠ 0) :
    (2 : ℚ) ^ ((bitLength n.natAbs : Int) - 1) ≤ |(n : ℚ)| := by
  have low := two_pow_bitLength_le (n := n.natAbs) (by omega)
  have positive := bitLength_pos (n := n.natAbs) (by omega)
  have exponent : (bitLength n.natAbs : Int) - 1 = (bitLength n.natAbs - 1 : Nat) := by omega
  rw [exponent, zpow_natCast, ← Int.cast_abs, Int.abs_eq_natAbs]
  exact_mod_cast low

theorem abs_lt_two_pow (n : Int) : |(n : ℚ)| < (2 : ℚ) ^ (bitLength n.natAbs : Int) := by
  have high := lt_two_pow_bitLength n.natAbs
  rw [zpow_natCast, ← Int.cast_abs, Int.abs_eq_natAbs]
  exact_mod_cast high

theorem abs_toRat_ofIntWithPrec (n k : Int) :
    |(Dyadic.ofIntWithPrec n k).toRat| = |(n : ℚ)| * 2 ^ (-k) := by
  rw [Dyadic.toRat_ofIntWithPrec_eq_mul_two_pow, abs_mul, abs_of_pos (a := (2 : ℚ) ^ (-k))]
  positivity

theorem abs_toRat_ofOdd (n k : Int) (odd : n % 2 = 1) :
    |(Dyadic.ofOdd n k odd).toRat| = |(n : ℚ)| * 2 ^ (-k) := by
  rw [Dyadic.ofOdd_eq_ofIntWithPrec, abs_toRat_ofIntWithPrec]

theorem magnitude_bounds {x : Dyadic} (nonzero : x ≠ 0) :
    (2 : ℚ) ^ (magnitude x - 1) ≤ |x.toRat| ∧ |x.toRat| < (2 : ℚ) ^ magnitude x := by
  cases x with
  | zero => exact absurd rfl nonzero
  | ofOdd n k odd =>
    have unit : (0 : ℚ) < 2 ^ (-k) := by positivity
    rw [abs_toRat_ofOdd, magnitude]
    constructor
    · calc (2 : ℚ) ^ ((bitLength n.natAbs : Int) - k - 1)
          = 2 ^ ((bitLength n.natAbs : Int) - 1) * 2 ^ (-k) := by
            rw [← zpow_add₀ two_ne_zero]
            congr 1
            omega
        _ ≤ |(n : ℚ)| * 2 ^ (-k) :=
            mul_le_mul_of_nonneg_right (two_pow_le_abs (by omega)) unit.le
    · calc |(n : ℚ)| * 2 ^ (-k) < 2 ^ (bitLength n.natAbs : Int) * 2 ^ (-k) :=
            mul_lt_mul_of_pos_right (abs_lt_two_pow n) unit
        _ = 2 ^ ((bitLength n.natAbs : Int) - k) := by
            rw [← zpow_add₀ two_ne_zero]
            congr 1

/-- The digits that are kept of an integer that has more of them. -/
theorem quotient_bounds (r : Rounding) (wide : 0 < r.bits) {n : Int}
    (long : r.bits < bitLength n.natAbs) :
    let q := r.direction.quotient n (2 ^ (bitLength n.natAbs - r.bits))
    2 ^ (r.bits - 1) ≤ q.natAbs ∧ q.natAbs ≤ 2 ^ r.bits ∧ (0 < n ↔ 0 < q) := by
  intro q
  have pos : 0 < 2 ^ (bitLength n.natAbs - r.bits) := Nat.two_pow_pos _
  have low : 2 ^ (r.bits - 1) * 2 ^ (bitLength n.natAbs - r.bits) ≤ n.natAbs := by
    calc 2 ^ (r.bits - 1) * 2 ^ (bitLength n.natAbs - r.bits) = 2 ^ (bitLength n.natAbs - 1) := by
          rw [← Nat.pow_add]
          congr 1
          omega
      _ ≤ n.natAbs := two_pow_bitLength_le (by rintro zero; simp [zero] at long)
  have high : n.natAbs ≤ 2 ^ r.bits * 2 ^ (bitLength n.natAbs - r.bits) := by
    calc n.natAbs ≤ 2 ^ bitLength n.natAbs := (lt_two_pow_bitLength n.natAbs).le
      _ = 2 ^ r.bits * 2 ^ (bitLength n.natAbs - r.bits) := by
          rw [← Nat.pow_add]
          congr 1
          omega
  obtain ⟨least, sign⟩ := r.direction.le_natAbs_quotient pos (Nat.two_pow_pos _) low
  exact ⟨least, r.direction.natAbs_quotient_le pos high, sign⟩

theorem toRat_shiftRight (x : Dyadic) (k : Int) : (x >>> k).toRat = x.toRat * 2 ^ (-k) := by
  cases x with
  | zero => exact (zero_mul _).symm
  | ofOdd n l odd =>
    change (Dyadic.ofOdd n (l + k) odd).toRat = _
    rw [Dyadic.toRat_ofOdd_eq_mul_two_pow, Dyadic.toRat_ofOdd_eq_mul_two_pow, mul_assoc,
      ← zpow_add₀ two_ne_zero, neg_add]

theorem toRat_ofIntWithPrec_pos (n k : Int) : 0 < (Dyadic.ofIntWithPrec n k).toRat ↔ 0 < n := by
  have unit : (0 : ℚ) < 2 ^ (-k) := by positivity
  rw [Dyadic.toRat_ofIntWithPrec_eq_mul_two_pow, mul_pos_iff_of_pos_right unit, Int.cast_pos]

/-- Rounding keeps the sign of a value and the powers of two around it. -/
theorem round_bounds (r : Rounding) (wide : 0 < r.bits) {x : Dyadic} (nonzero : x ≠ 0) :
    (2 : ℚ) ^ (magnitude x - 1) ≤ |(roundDyadic r x).toRat| ∧
      |(roundDyadic r x).toRat| ≤ (2 : ℚ) ^ magnitude x ∧
      (0 < x.toRat ↔ 0 < (roundDyadic r x).toRat) := by
  cases x with
  | zero => exact absurd rfl nonzero
  | ofOdd n k odd =>
    obtain ⟨low, high⟩ := magnitude_bounds nonzero
    by_cases short : bitLength n.natAbs - r.bits = 0
    · rw [roundDyadic]
      simp only [if_pos short]
      exact ⟨low, high.le, trivial⟩
    · obtain ⟨least, most, sign⟩ := quotient_bounds r wide (n := n) (by omega)
      rw [roundDyadic]
      simp only [if_neg short, Nat.one_shiftLeft]
      generalize r.direction.quotient n (2 ^ (bitLength n.natAbs - r.bits)) = q at least most sign ⊢
      have unit : (0 : ℚ) < 2 ^ (-(k - ((bitLength n.natAbs - r.bits : Nat) : Int))) := by
        positivity
      have size : |(q : ℚ)| = (q.natAbs : ℚ) := by
        rw [← Int.cast_abs, Int.abs_eq_natAbs, Int.cast_natCast]
      rw [abs_toRat_ofIntWithPrec, size]
      refine ⟨?_, ?_, ?_⟩
      · calc (2 : ℚ) ^ (magnitude (.ofOdd n k odd) - 1)
            = ((2 ^ (r.bits - 1) : Nat) : ℚ) *
                2 ^ (-(k - ((bitLength n.natAbs - r.bits : Nat) : Int))) := by
              rw [Nat.cast_pow, Nat.cast_ofNat, ← zpow_natCast, ← zpow_add₀ two_ne_zero, magnitude]
              congr 1
              omega
          _ ≤ _ := mul_le_mul_of_nonneg_right (by exact_mod_cast least) unit.le
      · calc (q.natAbs : ℚ) * 2 ^ (-(k - ((bitLength n.natAbs - r.bits : Nat) : Int)))
            ≤ ((2 ^ r.bits : Nat) : ℚ) * 2 ^ (-(k - ((bitLength n.natAbs - r.bits : Nat) : Int))) :=
              mul_le_mul_of_nonneg_right (by exact_mod_cast most) unit.le
          _ = 2 ^ magnitude (.ofOdd n k odd) := by
              rw [Nat.cast_pow, Nat.cast_ofNat, ← zpow_natCast, ← zpow_add₀ two_ne_zero, magnitude]
              congr 1
              omega
      · rw [Dyadic.ofOdd_eq_ofIntWithPrec, toRat_ofIntWithPrec_pos, toRat_ofIntWithPrec_pos, sign]

theorem round_ne_zero (r : Rounding) (wide : 0 < r.bits) {x : Dyadic} (nonzero : x ≠ 0) :
    roundDyadic r x ≠ 0 := by
  intro vanishes
  have low := (round_bounds r wide nonzero).1
  have unit : (0 : ℚ) < 2 ^ (magnitude x - 1) := by positivity
  rw [vanishes, Dyadic.toRat_zero, abs_zero] at low
  exact absurd low (not_le.mpr unit)

/-- Rounding changes a value by less than a factor of two. -/
theorem round_near (r : Rounding) (wide : 0 < r.bits) (x : Dyadic) :
    |x.toRat| ≤ 2 * |(roundDyadic r x).toRat| ∧ |(roundDyadic r x).toRat| ≤ 2 * |x.toRat| := by
  by_cases zero : x = 0
  · have same : roundDyadic r 0 = 0 := rfl
    simp [zero, same]
  · obtain ⟨low, high⟩ := magnitude_bounds zero
    obtain ⟨least, most, -⟩ := round_bounds r wide zero
    have double : (2 : ℚ) ^ magnitude x = 2 * 2 ^ (magnitude x - 1) := by
      rw [← zpow_one_add₀ two_ne_zero, add_sub_cancel]
    constructor <;> linarith

theorem round_le_one (r : Rounding) (wide : 0 < r.bits) {x : Dyadic} (low : 0 ≤ x.toRat)
    (high : x.toRat < 1) : 0 ≤ (roundDyadic r x).toRat ∧ (roundDyadic r x).toRat ≤ 1 := by
  by_cases zero : x = 0
  · rw [zero]
    exact ⟨le_refl _, zero_le_one⟩
  · have positive : 0 < x.toRat :=
      lt_of_le_of_ne low fun same => zero (Dyadic.toRat_eq_zero_iff.mp same.symm)
    obtain ⟨-, upper, sign⟩ := round_bounds r wide zero
    have kept := sign.mp positive
    have small : magnitude x - 1 < 0 := by
      have lower := (magnitude_bounds zero).1
      rw [abs_of_pos positive] at lower
      have below : (2 : ℚ) ^ (magnitude x - 1) < 2 ^ (0 : Int) := by
        rw [zpow_zero]
        exact lower.trans_lt high
      exact (zpow_lt_zpow_iff_right₀ one_lt_two).mp below
    rw [abs_of_pos kept] at upper
    refine ⟨kept.le, upper.trans ?_⟩
    exact zpow_le_one_of_nonpos₀ one_le_two (by omega)

private theorem two_zpow (z : Int) : (2 : ℚ) ^ z * 2 ^ (-z).toNat = 2 ^ z.toNat := by
  rw [← zpow_natCast, ← zpow_natCast, ← zpow_add₀ two_ne_zero]
  congr 1
  omega

theorem quotientMagnitude_bounds {n : Int} (nonzero : n ≠ 0) {d : Nat} (pos : 0 < d) :
    (2 : ℚ) ^ (quotientMagnitude n d - 1) * d ≤ |(n : ℚ)| ∧
      |(n : ℚ)| < (2 : ℚ) ^ quotientMagnitude n d * d := by
  have low : (2 : ℚ) ^ ((bitLength d : Int) - 1) ≤ d := by
    simpa using two_pow_le_abs (n := (d : Int)) (by omega)
  have high : (d : ℚ) < 2 ^ (bitLength d : Int) := by
    simpa using abs_lt_two_pow (d : Int)
  simp only [quotientMagnitude]
  generalize guessed : (bitLength n.natAbs : Int) - bitLength d = guess
  have unit : (0 : ℚ) < 2 ^ (-guess).toNat := by positivity
  have moved : (2 : ℚ) ^ guess * d * 2 ^ (-guess).toNat = d * 2 ^ guess.toNat := by
    rw [mul_right_comm, two_zpow, mul_comm]
  have size : |(n : ℚ)| = n.natAbs := by
    rw [← Int.cast_abs, Int.abs_eq_natAbs, Int.cast_natCast]
  split
  · next fits =>
    rw [Nat.shiftLeft_eq, Nat.shiftLeft_eq] at fits
    rw [add_sub_cancel_right]
    constructor
    · refine le_of_mul_le_mul_right ?_ unit
      rw [moved, size]
      exact_mod_cast fits
    · calc |(n : ℚ)| < 2 ^ (bitLength n.natAbs : Int) := abs_lt_two_pow n
        _ = 2 ^ (guess + 1) * 2 ^ ((bitLength d : Int) - 1) := by
            rw [← zpow_add₀ two_ne_zero]
            congr 1
            omega
        _ ≤ 2 ^ (guess + 1) * d := mul_le_mul_of_nonneg_left low (by positivity)
  · next wide =>
    rw [Nat.shiftLeft_eq, Nat.shiftLeft_eq, not_le] at wide
    constructor
    · calc (2 : ℚ) ^ (guess - 1) * d ≤ 2 ^ (guess - 1) * 2 ^ (bitLength d : Int) :=
            mul_le_mul_of_nonneg_left high.le (by positivity)
        _ = 2 ^ ((bitLength n.natAbs : Int) - 1) := by
            rw [← zpow_add₀ two_ne_zero]
            congr 1
            omega
        _ ≤ |(n : ℚ)| := two_pow_le_abs nonzero
    · refine lt_of_mul_lt_mul_right ?_ unit.le
      rw [moved, size]
      exact_mod_cast wide

/-- A rounded quotient keeps its sign and does not fall below the power of two that its magnitude
names. -/
theorem roundQuotient_bounds (r : Rounding) (wide : 0 < r.bits) {n : Int} (nonzero : n ≠ 0)
    {d : Nat} (pos : 0 < d) :
    (2 : ℚ) ^ (quotientMagnitude n d - 1) ≤ |(roundQuotient r n d).toRat| ∧
      (0 < n ↔ 0 < (roundQuotient r n d).toRat) := by
  have bound := (quotientMagnitude_bounds nonzero pos).1
  simp only [roundQuotient, if_neg nonzero]
  generalize quotientMagnitude n d = e at bound ⊢
  generalize scaled : (r.bits : Int) - e = scale
  have divisor : 0 < d <<< (-scale).toNat := by
    rw [Nat.shiftLeft_eq]
    positivity
  have digits : 2 ^ (r.bits - 1) * (d <<< (-scale).toNat) ≤ n.natAbs * 2 ^ scale.toNat := by
    have unit : (0 : ℚ) < 2 ^ scale.toNat := by positivity
    have moved :
        (2 : ℚ) ^ (r.bits - 1) * (d * 2 ^ (-scale).toNat) ≤ n.natAbs * 2 ^ scale.toNat := by
      calc (2 : ℚ) ^ (r.bits - 1) * (d * 2 ^ (-scale).toNat)
          = (2 ^ (e - 1) * d) * (2 ^ scale * 2 ^ (-scale).toNat) := by
            have split_bits : (2 : ℚ) ^ (r.bits - 1) = 2 ^ (e - 1) * 2 ^ scale := by
              rw [← zpow_natCast, ← zpow_add₀ two_ne_zero]
              congr 1
              omega
            rw [split_bits]
            ring
        _ = (2 ^ (e - 1) * d) * 2 ^ scale.toNat := by rw [two_zpow]
        _ ≤ |(n : ℚ)| * 2 ^ scale.toNat := mul_le_mul_of_nonneg_right bound unit.le
        _ = n.natAbs * 2 ^ scale.toNat := by
            rw [← Int.cast_abs, Int.abs_eq_natAbs, Int.cast_natCast]
    rw [Nat.shiftLeft_eq]
    exact_mod_cast moved
  have shifted : (n <<< scale.toNat).natAbs = n.natAbs * 2 ^ scale.toNat := by
    rw [Int.shiftLeft_eq, Int.natAbs_mul, Int.natAbs_pow]
    rfl
  obtain ⟨least, sign⟩ := r.direction.le_natAbs_quotient divisor (Nat.two_pow_pos (r.bits - 1))
    (digits.trans_eq shifted.symm)
  rw [shiftLeft_pos_iff] at sign
  have unit : (0 : ℚ) < 2 ^ (-scale) := by positivity
  refine ⟨?_, ?_⟩
  · rw [abs_toRat_ofIntWithPrec, ← Int.cast_abs, Int.abs_eq_natAbs, Int.cast_natCast]
    calc (2 : ℚ) ^ (e - 1) = ((2 ^ (r.bits - 1) : Nat) : ℚ) * 2 ^ (-scale) := by
          rw [Nat.cast_pow, Nat.cast_ofNat, ← zpow_natCast, ← zpow_add₀ two_ne_zero]
          congr 1
          omega
      _ ≤ _ := mul_le_mul_of_nonneg_right (by exact_mod_cast least) unit.le
  · rw [toRat_ofIntWithPrec_pos]
    exact sign

/-- A rounded quotient does not exceed the power of two that its magnitude names. -/
theorem roundQuotient_le (r : Rounding) {n : Int} (nonzero : n ≠ 0) {d : Nat} (pos : 0 < d) :
    |(roundQuotient r n d).toRat| ≤ (2 : ℚ) ^ quotientMagnitude n d := by
  have bound := (quotientMagnitude_bounds nonzero pos).2.le
  simp only [roundQuotient, if_neg nonzero]
  generalize quotientMagnitude n d = e at bound ⊢
  generalize scaled : (r.bits : Int) - e = scale
  have divisor : 0 < d <<< (-scale).toNat := by
    rw [Nat.shiftLeft_eq]
    positivity
  have digits : (n <<< scale.toNat).natAbs ≤ 2 ^ r.bits * (d <<< (-scale).toNat) := by
    have moved : (n.natAbs : ℚ) * 2 ^ scale.toNat ≤ 2 ^ r.bits * (d * 2 ^ (-scale).toNat) := by
      calc (n.natAbs : ℚ) * 2 ^ scale.toNat = |(n : ℚ)| * 2 ^ scale.toNat := by
            rw [← Int.cast_abs, Int.abs_eq_natAbs, Int.cast_natCast]
        _ ≤ 2 ^ e * d * 2 ^ scale.toNat := mul_le_mul_of_nonneg_right bound (by positivity)
        _ = 2 ^ e * 2 ^ scale * (d * 2 ^ (-scale).toNat) := by
            rw [← two_zpow]
            ring
        _ = _ := by
            rw [← zpow_add₀ two_ne_zero, ← scaled, add_sub_cancel, zpow_natCast]
    rw [Int.shiftLeft_eq, Int.natAbs_mul, Int.natAbs_pow, Nat.shiftLeft_eq]
    exact_mod_cast moved
  have most := r.direction.natAbs_quotient_le divisor digits
  rw [abs_toRat_ofIntWithPrec, ← Int.cast_abs, Int.abs_eq_natAbs, Int.cast_natCast]
  calc _ ≤ ((2 ^ r.bits : Nat) : ℚ) * 2 ^ (-scale) :=
        mul_le_mul_of_nonneg_right (by exact_mod_cast most) (by positivity)
    _ = 2 ^ e := by
        rw [Nat.cast_pow, Nat.cast_ofNat, ← zpow_natCast, ← zpow_add₀ two_ne_zero]
        congr 1
        omega

theorem ofRat_sign {bits : Nat} (wide : 0 < bits) {q : Rat} (nonzero : q ≠ 0) :
    ofRat bits q ≠ 0 ∧ (0 < q ↔ 0 < (ofRat bits q).toRat) := by
  have numerator : ((q.num : Int) : Dyadic) ≠ 0 := by
    intro zero
    have vanishes : (q.num : ℚ) = 0 := by
      rw [← Dyadic.toRat_intCast, zero, Dyadic.toRat_zero]
    exact nonzero (Rat.num_eq_zero.mp (by exact_mod_cast vanishes))
  obtain ⟨-, -, sign⟩ := round_bounds (bits : Rounding) wide numerator
  have kept := round_ne_zero (bits : Rounding) wide numerator
  rw [Dyadic.toRat_intCast, Int.cast_pos, Rat.num_pos] at sign
  rw [ofRat, sign]
  cases rounded : roundDyadic (bits : Rounding) q.num with
  | zero => exact absurd rounded kept
  | ofOdd n k odd =>
    obtain ⟨low, sign'⟩ := roundQuotient_bounds (bits : Rounding) wide (n := n) (by omega) q.den_pos
    have unit : (0 : ℚ) < 2 ^ (-k) := by positivity
    change roundQuotient bits n q.den >>> k ≠ 0 ∧ (_ ↔ 0 < (roundQuotient bits n q.den >>> k).toRat)
    rw [Ne, ← Dyadic.toRat_eq_zero_iff, toRat_shiftRight, mul_pos_iff_of_pos_right unit,
      Dyadic.ofOdd_eq_ofIntWithPrec, toRat_ofIntWithPrec_pos, sign']
    refine ⟨?_, Iff.rfl⟩
    intro zero
    rw [(mul_eq_zero.mp zero).resolve_right unit.ne', abs_zero] at low
    exact absurd low (not_le.mpr (by positivity))

/-- A fraction as a float is at most four times as large: numerator and quotient are rounded. -/
theorem ofRat_le {bits : Nat} (wide : 0 < bits) (q : Rat) : |(ofRat bits q).toRat| ≤ 4 * |q| := by
  have near := (round_near (bits : Rounding) wide (q.num : Int)).2
  rw [Dyadic.toRat_intCast] at near
  rw [ofRat]
  cases rounded : roundDyadic (bits : Rounding) q.num with
  | zero =>
    change |(roundQuotient bits 0 q.den >>> (0 : Int)).toRat| ≤ _
    rw [toRat_shiftRight]
    simp [roundQuotient]
  | ofOdd n k odd =>
    change |(roundQuotient bits n q.den >>> k).toRat| ≤ _
    have nonzero : n ≠ 0 := by omega
    have most := roundQuotient_le (bits : Rounding) nonzero q.den_pos
    have double : (2 : ℚ) ^ quotientMagnitude n q.den = 2 * 2 ^ (quotientMagnitude n q.den - 1) := by
      rw [← zpow_one_add₀ two_ne_zero, add_sub_cancel]
    have least := (quotientMagnitude_bounds nonzero q.den_pos).1
    have divisor : (0 : ℚ) < q.den := by exact_mod_cast q.den_pos
    have unit : (0 : ℚ) < 2 ^ (-k) := by positivity
    rw [rounded, abs_toRat_ofOdd] at near
    rw [toRat_shiftRight, abs_mul, abs_of_pos unit]
    have size : |q| * q.den = |(q.num : ℚ)| := by
      rw [← Nat.abs_cast q.den, ← abs_mul, Rat.mul_den_eq_num]
    refine le_of_mul_le_mul_right ?_ divisor
    calc |(roundQuotient bits n q.den).toRat| * 2 ^ (-k) * q.den
        ≤ 2 * 2 ^ (quotientMagnitude n q.den - 1) * 2 ^ (-k) * q.den := by
          rw [← double]
          gcongr
      _ = 2 * (2 ^ (quotientMagnitude n q.den - 1) * q.den) * 2 ^ (-k) := by ring
      _ ≤ 2 * |(n : ℚ)| * 2 ^ (-k) := by gcongr
      _ ≤ 4 * |(q.num : ℚ)| := by linarith
      _ = 4 * |q| * q.den := by rw [mul_assoc, size]

end BigFloat
end ComputerAlgebra

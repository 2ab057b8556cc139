import ComputerAlgebra.Proofs.BigFloat.Digits
import Mathlib.Tactic.FieldSimp

/-!
The integer nearest to a floating-point number. It is at most one half away, no integer is closer, and
the distance takes no more digits than the number itself.
-/

namespace ComputerAlgebra

/-- A quotient is at most one half away from what it is rounded to. -/
theorem nearestEven_near (n : Int) {d : Nat} (pos : 0 < d) :
    2 * |n - d * nearestEven n d| ≤ d := by
  have whole := Int.emod_add_mul_ediv n d
  have low := Int.emod_nonneg n (by omega : (d : Int) ≠ 0)
  have high := Int.emod_lt_of_pos n (by omega : (0 : Int) < d)
  simp only [nearestEven]
  split
  · rw [show n - d * (n / d) = n % d by omega, abs_of_nonneg low]
    omega
  split
  · rw [mul_add, mul_one, show n - (d * (n / d) + d) = n % d - d by omega, abs_of_neg (by omega)]
    omega
  · rcases Int.emod_two_eq (n / d) with even | odd
    · rw [even, add_zero, show n - d * (n / d) = n % d by omega, abs_of_nonneg low]
      omega
    · rw [odd, mul_add, mul_one, show n - (d * (n / d) + d) = n % d - d by omega,
        abs_of_neg (by omega)]
      omega

namespace BigFloat

theorem nearestInt_near (x : Dyadic) : |x.toRat - nearestInt x| ≤ 1 / 2 := by
  cases x with
  | zero =>
    change |(0 : ℚ) - ((0 : Int) : ℚ)| ≤ 1 / 2
    norm_num
  | ofOdd n k odd =>
    simp only [nearestInt]
    split
    · next small =>
      rw [Int.cast_zero, sub_zero, abs_toRat_ofOdd]
      calc |(n : ℚ)| * 2 ^ (-k) ≤ 2 ^ (bitLength n.natAbs : Int) * 2 ^ (-k) :=
            mul_le_mul_of_nonneg_right (abs_lt_two_pow n).le (by positivity)
        _ = 2 ^ ((bitLength n.natAbs : Int) - k) := by
            rw [← zpow_add₀ two_ne_zero]
            congr 1
        _ ≤ 2 ^ (-1 : Int) := zpow_le_zpow_right₀ one_le_two (by omega)
        _ = 1 / 2 := by norm_num
    · rw [Dyadic.toRat_ofOdd_eq_mul_two_pow]
      unfold scaleNearest
      split
      · next above =>
        have exact_value : ((n <<< (-k).toNat : Int) : ℚ) = n * 2 ^ (-k) := by
          rw [Int.shiftLeft_eq, Int.cast_mul, Int.cast_pow, ← zpow_natCast,
            Int.toNat_of_nonneg above]
          rfl
        rw [exact_value, sub_self, abs_zero]
        norm_num
      · next below =>
        rw [neg_neg, Nat.one_shiftLeft]
        have scale : (2 : ℚ) ^ (-k) = ((2 ^ k.toNat : Nat) : ℚ)⁻¹ := by
          rw [zpow_neg, Nat.cast_pow, Nat.cast_ofNat, ← zpow_natCast, Int.toNat_of_nonneg (by omega)]
        have near := nearestEven_near n (Nat.two_pow_pos k.toNat)
        have positive : (0 : ℚ) < ((2 ^ k.toNat : Nat) : ℚ) := by
          exact_mod_cast Nat.two_pow_pos k.toNat
        generalize 2 ^ k.toNat = d at scale near positive ⊢
        have bound : 2 * |(n : ℚ) - d * nearestEven n d| ≤ d := by exact_mod_cast near
        have split_out : (n : ℚ) * 2 ^ (-k) - nearestEven n d = (n - d * nearestEven n d) / d := by
          rw [scale]
          field_simp
        rw [split_out, abs_div, abs_of_pos positive, div_le_div_iff₀ positive two_pos]
        linarith

theorem nearestInt_least (x : Dyadic) (m : Int) :
    |x.toRat - nearestInt x| ≤ |x.toRat - m| := by
  by_contra closer
  have near := nearestInt_near x
  have apart : |(nearestInt x : ℚ) - m| < 1 := by
    calc |(nearestInt x : ℚ) - m| = |(x.toRat - m) - (x.toRat - nearestInt x)| := by
          congr 1
          ring
      _ ≤ |x.toRat - m| + |x.toRat - nearestInt x| := abs_sub _ _
      _ < 1 := by linarith
  have same : nearestInt x = m := by
    have whole : |nearestInt x - m| < 1 := by exact_mod_cast apart
    have zero := Int.abs_lt_one_iff.mp whole
    omega
  exact closer (le_of_eq (by rw [same]))

theorem nearestInt_eq {x : Dyadic} {m : Int} (near : |x.toRat - m| < 1 / 2) : nearestInt x = m := by
  have least := nearestInt_least x m
  have apart : |((nearestInt x - m : Int) : ℚ)| < 1 := by
    push_cast
    have triangle := abs_sub_le (nearestInt x : ℚ) x.toRat m
    rw [abs_sub_comm (nearestInt x : ℚ) x.toRat] at triangle
    linarith
  have zero := Int.abs_lt_one_iff.mp (show |nearestInt x - m| < 1 by exact_mod_cast apart)
  omega

theorem short_distance {bits : Nat} {x : Dyadic} (short : Short bits x) :
    Short bits (x - (nearestInt x : Dyadic)) := by
  have near := nearestInt_near x
  generalize nearestInt x = m at near ⊢
  obtain ⟨n, k, bound, rfl⟩ := short
  rw [Dyadic.toRat_ofIntWithPrec_eq_mul_two_pow] at near
  have unit : (0 : ℚ) < 2 ^ (-k) := by positivity
  have size : |(n : ℚ)| ≤ 2 ^ (bits : Int) := by
    rw [← Int.cast_abs, Int.abs_eq_natAbs, zpow_natCast]
    exact_mod_cast bound
  by_cases tiny : (bits : Int) + 1 < k
  · -- A number below one quarter is closest to zero.
    have quarter : |(n : ℚ) * 2 ^ (-k)| ≤ 1 / 4 := by
      rw [abs_mul, abs_of_pos unit]
      calc |(n : ℚ)| * 2 ^ (-k) ≤ 2 ^ (bits : Int) * 2 ^ (-k) :=
            mul_le_mul_of_nonneg_right size unit.le
        _ = 2 ^ ((bits : Int) - k) := by
            rw [← zpow_add₀ two_ne_zero]
            congr 1
        _ ≤ 2 ^ (-2 : Int) := zpow_le_zpow_right₀ one_le_two (by omega)
        _ = 1 / 4 := by norm_num
    have zero : m = 0 := by
      have below : |(m : ℚ)| < 1 := by
        calc |(m : ℚ)| = |(n : ℚ) * 2 ^ (-k) - ((n : ℚ) * 2 ^ (-k) - m)| := by
              congr 1
              ring
          _ ≤ |(n : ℚ) * 2 ^ (-k)| + |(n : ℚ) * 2 ^ (-k) - m| := abs_sub _ _
          _ < 1 := by linarith
      have whole : |m| < 1 := by exact_mod_cast below
      exact Int.abs_lt_one_iff.mp whole
    refine ⟨n, k, bound, ?_⟩
    rw [zero, ← Dyadic.toRat_inj, Dyadic.toRat_sub, Dyadic.toRat_intCast, Int.cast_zero, sub_zero]
  by_cases fraction : 0 < k
  · -- Over the power of two of the number, the distance has a smaller numerator.
    have scale : (2 : ℚ) ^ k.toNat * 2 ^ (-k) = 1 := by
      rw [← zpow_natCast, Int.toNat_of_nonneg fraction.le, ← zpow_add₀ two_ne_zero, add_neg_cancel,
        zpow_zero]
    have distance : ((n - m * 2 ^ k.toNat : Int) : ℚ) * 2 ^ (-k) = n * 2 ^ (-k) - m := by
      push_cast
      rw [sub_mul, mul_assoc, scale, mul_one]
    refine ⟨n - m * 2 ^ k.toNat, k, ?_, ?_⟩
    · have numerator : |((n - m * 2 ^ k.toNat : Int) : ℚ)| ≤ 2 ^ bits := by
        rw [← distance, abs_mul, abs_of_pos unit] at near
        calc |((n - m * 2 ^ k.toNat : Int) : ℚ)|
            = |((n - m * 2 ^ k.toNat : Int) : ℚ)| * 2 ^ (-k) * 2 ^ k := by
              rw [mul_assoc, ← zpow_add₀ two_ne_zero, neg_add_cancel, zpow_zero, mul_one]
          _ ≤ 1 / 2 * 2 ^ k := mul_le_mul_of_nonneg_right near (by positivity)
          _ = 2 ^ (k - 1) := by
              rw [zpow_sub_one₀ two_ne_zero]
              ring
          _ ≤ 2 ^ (bits : Int) := zpow_le_zpow_right₀ one_le_two (by omega)
          _ = 2 ^ bits := zpow_natCast _ _
      rw [← Int.cast_abs, Int.abs_eq_natAbs] at numerator
      exact_mod_cast numerator
    · rw [← Dyadic.toRat_inj, Dyadic.toRat_sub, Dyadic.toRat_intCast,
        Dyadic.toRat_ofIntWithPrec_eq_mul_two_pow, Dyadic.toRat_ofIntWithPrec_eq_mul_two_pow,
        distance]
  · -- An integer is its own nearest one.
    obtain ⟨d, rfl⟩ : ∃ d : Nat, k = -d := ⟨(-k).toNat, by omega⟩
    have whole : (n : ℚ) * 2 ^ (-(-(d : Int))) = ((n * 2 ^ d : Int) : ℚ) := by
      push_cast
      rw [neg_neg, zpow_natCast]
    have same : n * 2 ^ d = m := by
      rw [whole] at near
      have close : |((n * 2 ^ d - m : Int) : ℚ)| ≤ 1 / 2 := by
        push_cast at near ⊢
        exact near
      have below : |((n * 2 ^ d - m : Int) : ℚ)| < 1 := close.trans_lt (by norm_num)
      have zero : |n * 2 ^ d - m| < 1 := by exact_mod_cast below
      have difference := Int.abs_lt_one_iff.mp zero
      omega
    have vanishes : Dyadic.ofIntWithPrec n (-(d : Int)) - (m : Dyadic) = 0 := by
      rw [← Dyadic.toRat_inj, Dyadic.toRat_sub, Dyadic.toRat_intCast,
        Dyadic.toRat_ofIntWithPrec_eq_mul_two_pow, whole, same, sub_self, Dyadic.toRat_zero]
    rw [vanishes]
    exact short_zero bits

end BigFloat
end ComputerAlgebra

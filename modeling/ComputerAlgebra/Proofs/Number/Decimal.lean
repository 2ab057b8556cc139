import ComputerAlgebra.Number.Conversion
import ComputerAlgebra.Proofs.Binary64.Text
import ComputerAlgebra.Proofs.Fraction.Closest

/-!
Decimals that are typed as doubles. From 10⁻⁴ on the text of the double is the decimal, which is taken as it
is written. A smaller double has an exponent in its text and is exchanged for the closest fraction with up
to 10¹² for a denominator, which is the decimal as long as no other fraction comes between: always if its
numerator is small.
-/

namespace ComputerAlgebra
open Binary64 (RoundsTo shortest_of_short render_positional render_scientific ofQuotient_rounds)

theorem Binary64.toRat?_finite (negative : Bool) (m : Nat) (e : Int) :
    (finite negative m e).toRat? = some (if negative then -(m * 2 ^ e : ℚ) else m * 2 ^ e) := by
  have size : (if 0 ≤ e then ((m <<< e.toNat : Nat) : ℚ) else mkRat m (1 <<< (-e).toNat)) = m * 2 ^ e := by
    have two := zpow_mul_toNat (b := 2) two_ne_zero e
    split
    · next above =>
      rw [show (-e).toNat = 0 by omega, pow_zero, mul_one] at two
      rw [Nat.shiftLeft_eq, two]
      push_cast
      rfl
    · next below =>
      rw [show e.toNat = 0 by omega, pow_zero] at two
      rw [Rat.mkRat_eq_div, Nat.one_shiftLeft, div_eq_iff (by positivity)]
      push_cast
      rw [mul_assoc, two, mul_one]
  rw [toRat?, size]

namespace Fraction

/-- The double nearest to a decimal: with its sign, rounded, and at hand to be printed. -/
structure DecimalDouble (d : ℚ) (m : Nat) (e : Int) : Prop where
  full : 2 ^ 52 ≤ m
  rounds : RoundsTo m e |d|
  nonzero : d ≠ 0
  below : |d| < 10 ^ 15
  printed : ∃ (n : Nat) (power : Int), 0 < n ∧ (n * 10 ^ power : ℚ) = |d| ∧
    Binary64.shortest m e = (Binary64.keptDigits n, power + (Nat.toDigits 10 n).length)

section Decimal
variable {m : Int} {k : Nat} (size : |m| < 10 ^ 15) (places : k ≤ 12)
include size places

omit size places in
theorem abs_decimal : |(m : ℚ) / 10 ^ k| = |m|.toNat * 10 ^ (-(k : Int)) := by
  have cast : ((|m|.toNat : Int) : ℚ) = |(m : ℚ)| := by
    rw [Int.toNat_of_nonneg (abs_nonneg m), Int.cast_abs]
  rw [abs_div, abs_of_pos (by positivity : (0 : ℚ) < 10 ^ k), zpow_neg, zpow_natCast, div_eq_mul_inv, ← cast,
    Int.cast_natCast]

theorem decimal_bounds (nonzero : m ≠ 0) : 1 / 10 ^ 12 ≤ |(m : ℚ) / 10 ^ k| ∧ |(m : ℚ) / 10 ^ k| < 10 ^ 15 := by
  have tens : (10 : ℚ) ^ k ≤ 10 ^ 12 := pow_le_pow_right₀ (by norm_num) places
  have unit : (1 : ℚ) ≤ 10 ^ k := one_le_pow₀ (by norm_num)
  have least : (1 : ℚ) ≤ |(m : ℚ)| := by exact_mod_cast Int.one_le_abs nonzero
  have most : |(m : ℚ)| < 10 ^ 15 := by exact_mod_cast size
  rw [abs_div, abs_of_pos (by positivity : (0 : ℚ) < 10 ^ k)]
  constructor
  · gcongr
  · rw [div_lt_iff₀ (by positivity)]
    nlinarith

theorem ofRat_decimal (nonzero : m ≠ 0) : ∃ n e, Binary64.ofRat (m / 10 ^ k) =
    .finite ((m : ℚ) / 10 ^ k < 0) n e ∧ DecimalDouble (m / 10 ^ k) n e := by
  have short : |m|.toNat < 10 ^ 15 := by
    have cast : ((10 ^ 15 : Nat) : Int) = 10 ^ 15 := by norm_num
    omega
  have absolute := abs_decimal (m := m) (k := k)
  obtain ⟨low, high⟩ := decimal_bounds size places nonzero
  generalize (m : ℚ) / 10 ^ k = d at *
  have other : d ≠ 0 := by
    rintro rfl
    norm_num at low
  have quotient : (d.num.natAbs : ℚ) / d.den = |d| := by
    calc (d.num.natAbs : ℚ) / d.den = |(d.num : ℚ)| / |(d.den : ℚ)| := by
          rw [Nat.abs_cast, Nat.cast_natAbs, Int.cast_abs]
      _ = |d| := by rw [← abs_div, Rat.num_div_den]
  -- All of it is far within the range of the doubles with a full mantissa.
  have bottom : (2 : ℚ) ^ (-1022 : Int) ≤ 1 / 10 ^ 13 := by
    calc (2 : ℚ) ^ (-1022 : Int) ≤ 2 ^ (-44 : Int) := zpow_le_zpow_right₀ one_le_two (by norm_num)
      _ ≤ 1 / 10 ^ 13 := by norm_num
  have top : (10 : ℚ) ^ 16 ≤ 2 ^ (1023 : Int) := by
    calc (10 : ℚ) ^ 16 ≤ 2 ^ (54 : Int) := by norm_num
      _ ≤ 2 ^ (1023 : Int) := zpow_le_zpow_right₀ one_le_two (by norm_num)
  have range {x : ℚ} (low : 1 / 10 ^ 13 ≤ x) (high : x < 10 ^ 16) :
      (2 : ℚ) ^ (-1022 : Int) ≤ x ∧ x < 2 ^ (1023 : Int) := ⟨bottom.trans low, high.trans_le top⟩
  have given := range (x := (d.num.natAbs : ℚ) / d.den) (by rw [quotient]; linarith) (by rw [quotient]; linarith)
  obtain ⟨n, e, made, full, rounds⟩ :=
    ofQuotient_rounds (Int.natAbs_pos.mpr (Rat.num_ne_zero.mpr other)) d.den_pos given.1 given.2 (d < 0)
  rw [quotient] at rounds
  obtain ⟨lower, upper⟩ := abs_le.mp (rounds.near full)
  have kept := range (x := n * 2 ^ e) (by linarith) (by linarith)
  obtain ⟨digits, power, value, found⟩ := shortest_of_short full kept.1 kept.2 short (absolute ▸ rounds)
  rw [← absolute] at value
  refine ⟨n, e, made, full, rounds, other, high, digits, power, Nat.pos_of_ne_zero ?_, value, found⟩
  rintro rfl
  rw [Nat.cast_zero, zero_mul] at value
  exact abs_ne_zero.mpr other value.symm

omit size in
theorem den_decimal : ((m : ℚ) / 10 ^ k).den ≤ 10 ^ 12 := by
  have written : (m : ℚ) / 10 ^ k = m / (10 ^ k : Nat) := by rw [Nat.cast_pow, Nat.cast_ofNat]
  exact (parts_le (Nat.pow_pos (by decide)) written).1.trans (Nat.pow_le_pow_right (by decide) places)

omit places in
/-- A whole number that is the nearest double of a decimal is the decimal. -/
theorem DecimalDouble.whole {n : Nat} {e z : Int} (double : DecimalDouble (m / 10 ^ k) n e)
    (whole : (n : ℚ) * 2 ^ e = z) : |(m : ℚ) / 10 ^ k| = z := by
  have near := double.rounds.near double.full
  have unit : (0 : ℚ) < 10 ^ k := by positivity
  rw [whole, abs_div, abs_of_pos unit] at near
  rw [abs_div, abs_of_pos unit, div_eq_iff unit.ne']
  have upper := (abs_le.mp near).2
  have most : |(m : ℚ)| < 10 ^ 15 := by exact_mod_cast size
  -- In units of the last place of the decimal the distance is less than one.
  have scaled : |(z : ℚ) * 10 ^ k - (|(m : ℚ)|)| ≤ z * 10 ^ k / 2 ^ 53 := by
    have factor : (z : ℚ) * 10 ^ k - |(m : ℚ)| = (z - |(m : ℚ)| / 10 ^ k) * 10 ^ k := by
      rw [sub_mul, div_mul_cancel₀ _ unit.ne']
    rw [factor, abs_mul, abs_of_pos unit, mul_div_right_comm]
    exact mul_le_mul_of_nonneg_right near unit.le
  have bounded : (z : ℚ) * 10 ^ k ≤ 2 * 10 ^ 15 := by
    have upper' := (abs_le.mp scaled).2
    linarith
  have less : |(z : ℚ) * 10 ^ k - (|(m : ℚ)|)| < 1 := by linarith
  have integer : |z * 10 ^ k - (|m|)| < 1 := by exact_mod_cast less
  have same := Int.abs_lt_one_iff.mp integer
  have equal : z * 10 ^ k = |m| := by omega
  exact_mod_cast equal.symm

end Decimal

section Signs
variable {d : ℚ} {n : Nat} {e : Int}

/-- The value of a double with the sign of the decimal is as far from it as their sizes are. -/
theorem signed_distance (x : ℚ) : |d - if decide (d < 0) = true then -x else x| = |x - (|d|)| := by
  rcases lt_or_ge d 0 with negative | positive
  · rw [if_pos (decide_eq_true negative), abs_of_neg negative]
    congr 1
    ring
  · rw [if_neg (by simpa using positive), abs_of_nonneg positive, abs_sub_comm]

theorem signed_abs (d : ℚ) : (if decide (d < 0) = true then -|d| else |d|) = d := by
  rcases lt_or_ge d 0 with negative | positive
  · rw [if_pos (decide_eq_true negative), abs_of_neg negative, neg_neg]
  · rw [if_neg (by simpa using positive), abs_of_nonneg positive]

/-- No other fraction with a denominator up to 10¹² is as close to the double as a decimal with a small
numerator. -/
theorem DecimalDouble.isOnlyClosest (double : DecimalDouble d n e) (small : |d.num| ≤ 4503) :
    IsOnlyClosest (10 ^ 12) (if decide (d < 0) = true then -(n * 2 ^ e : ℚ) else n * 2 ^ e) d := by
  refine isOnlyClosest_of_near (by norm_num) ?_
  rw [signed_distance]
  have near := double.rounds.near double.full
  have upper := (abs_le.mp near).2
  have unit : (0 : ℚ) < d.den := by exact_mod_cast d.den_pos
  have numerator : |d| * d.den ≤ 4503 := by
    rw [← abs_of_pos unit, ← abs_mul, Rat.mul_den_eq_num]
    exact_mod_cast small
  have size : (n * 2 ^ e : ℚ) * d.den ≤ 4503 + n * 2 ^ e * d.den / 2 ^ 53 := by
    have scaled := mul_le_mul_of_nonneg_right upper unit.le
    rw [sub_mul, div_mul_eq_mul_div] at scaled
    linarith
  have scaled := mul_le_mul_of_nonneg_right near unit.le
  rw [div_mul_eq_mul_div] at scaled
  push_cast
  linarith

section Meaning
variable {q : ℚ} (double : DecimalDouble d n e)
  (value : (Binary64.finite (d < 0) n e).toRat? = some q) (broken : q.den ≠ 1)
include double value broken

/-- From 10⁻⁴ on the text of the double is read. -/
theorem DecimalDouble.ofDouble_large (within : d.den ≤ 10 ^ 12) (large : 1 / 10 ^ 4 ≤ |d|) :
    ofDouble defaultBound (.finite (d < 0) n e) = .ok d := by
  obtain ⟨digits, power, positive, size, found⟩ := double.printed
  have nonzero : n ≠ 0 := by
    have full := double.full
    omega
  obtain ⟨plain, w, read, meaning⟩ := render_positional nonzero found positive (by rwa [size])
    (by rw [size]; exact double.below.trans (by norm_num)) (d < 0)
  rw [size, signed_abs] at meaning
  unfold ofDouble
  rw [value]
  dsimp only
  rw [if_neg broken, String.contains_char_eq, decide_eq_false plain, read]
  dsimp only
  rw [meaning, if_neg Bool.false_ne_true]
  exact if_pos (Int.ofNat_le.mpr within)

/-- Below 10⁻⁴ the closest fraction is taken. -/
theorem DecimalDouble.ofDouble_tiny (tiny : |d| < 1 / 10 ^ 4) :
    ofDouble defaultBound (.finite (d < 0) n e) = .ok (closest (10 ^ 12) q) := by
  obtain ⟨digits, power, positive, size, found⟩ := double.printed
  have nonzero : n ≠ 0 := by
    have full := double.full
    omega
  have scientific := render_scientific nonzero found positive (by rwa [size]) (d < 0)
  unfold ofDouble
  rw [value]
  dsimp only
  rw [if_neg broken, String.contains_char_eq, decide_eq_true scientific, if_pos rfl]
  rfl

end Meaning
end Signs

/-- The fraction that is found for the double nearest to a decimal is the decimal: from 10⁻⁴ on; below, if its
numerator is small or at least no other fraction with a denominator up to 10¹² is as close to the double. -/
theorem ofDouble_decimal {m : Int} {k : Nat} (size : |m| < 10 ^ 15) (places : k ≤ 12)
    (kept : 1 / 10 ^ 4 ≤ |(m : ℚ) / 10 ^ k| ∨ |((m : ℚ) / 10 ^ k).num| ≤ 4503 ∨
      ∀ q, (Binary64.ofRat (m / 10 ^ k)).toRat? = some q → IsOnlyClosest (10 ^ 12) q (m / 10 ^ k)) :
    ofDouble defaultBound (Binary64.ofRat (m / 10 ^ k)) = .ok (m / 10 ^ k) := by
  by_cases zero : m = 0
  · rw [zero, Int.cast_zero, zero_div]
    rfl
  obtain ⟨n, e, made, double⟩ := ofRat_decimal size places zero
  have within := den_decimal (m := m) places
  have wholes {z : Int} (value : (n : ℚ) * 2 ^ e = z) := double.whole size value
  generalize (m : ℚ) / 10 ^ k = d at *
  rw [made] at kept ⊢
  have value := Binary64.toRat?_finite (d < 0) n e
  by_cases whole : (if decide (d < 0) = true then -(n * 2 ^ e : ℚ) else n * 2 ^ e).den = 1
  · obtain ⟨z, same⟩ : ∃ z : Int, (n : ℚ) * 2 ^ e = z := by
      have integer := Rat.coe_int_num_of_den_eq_one whole
      split at integer
      · exact ⟨-_, by rw [Int.cast_neg, integer, neg_neg]⟩
      · exact ⟨_, integer.symm⟩
    unfold ofDouble
    rw [value]
    dsimp only
    rw [if_pos whole, same, ← wholes same, signed_abs]
  rcases le_or_gt (1 / 10 ^ 4) |d| with large | tiny
  · exact double.ofDouble_large value whole within large
  · rw [double.ofDouble_tiny value whole tiny]
    refine congrArg Except.ok (IsOnlyClosest.eq ?_ within (closest_isClosest (by norm_num) _))
    rcases kept with large | small | only
    · exact absurd large (not_le.mpr tiny)
    · exact double.isOnlyClosest small
    · exact only _ value

end Fraction

namespace Number

/-- A double stands for the fraction that it was meant to denote, whatever the settings. -/
theorem ofLiteral_double (c : Config) {x : Binary64} {d : ℚ}
    (meant : Fraction.ofDouble Fraction.defaultBound x = .ok d) :
    ofLiteral c (.double x) = pure (.ofRat d) := by
  have real : RealNumber.ofDouble x = .ok (.rational d) := by
    cases x with
    | finite s m e =>
      rw [RealNumber.ofDouble, meant]
      · rfl
      · nofun
      · nofun
    | infinity s => cases meant
    | nan => cases meant
  change (do return Number.real (← (liftM (RealNumber.ofDouble x) : Computation RealNumber))) = _
  rw [real]
  rfl

/-- A decimal with fifteen digits at most, and twelve of them after the point, is meant by the double nearest
to it, as a fraction and as a number. From 10⁻⁴ on that is always so; below, where its numerator is small, and
wherever no other fraction with a denominator up to 10¹² is as close to the double. -/
theorem decimal_meant (c : Config) {m : Int} {k : Nat} (size : |m| < 10 ^ 15) (places : k ≤ 12)
    (kept : 1 / 10 ^ 4 ≤ |(m : ℚ) / 10 ^ k| ∨ |((m : ℚ) / 10 ^ k).num| ≤ 4503 ∨
      ∀ q, (Binary64.ofRat (m / 10 ^ k)).toRat? = some q → Fraction.IsOnlyClosest (10 ^ 12) q (m / 10 ^ k)) :
    let d : ℚ := m / 10 ^ k
    let typed := Literal.double (Binary64.ofRat d)
    typed.toFraction Fraction.defaultBound = .ok d ∧ ofLiteral c typed = pure (.ofRat d) := by
  have meant := Fraction.ofDouble_decimal size places kept
  exact ⟨meant, ofLiteral_double c meant⟩

/-- The decimals 0.1, and -2.5 · 10⁻⁷, which is written with an exponent. -/
theorem decimal_meant_tenth :
    let tenth : ℚ := (1 : Int) / 10 ^ 1
    let tiny : ℚ := (-25 : Int) / 10 ^ 8
    |(1 : Int)| < 10 ^ 15 ∧ 1 / 10 ^ 4 ≤ |tenth| ∧
      ofLiteral .default (.double (Binary64.ofRat tenth)) = pure (.ofRat tenth) ∧
      |(-25 : Int)| < 10 ^ 15 ∧ |tiny| < 1 / 10 ^ 4 ∧ |tiny.num| ≤ 4503 ∧
      ofLiteral .default (.double (Binary64.ofRat tiny)) = pure (.ofRat tiny) := by
  intro tenth tiny
  have size : |(1 : Int)| < 10 ^ 15 := by decide
  have large : 1 / 10 ^ 4 ≤ |tenth| := by norm_num [tenth]
  have size' : |(-25 : Int)| < 10 ^ 15 := by decide
  have small : |tiny.num| ≤ 4503 := by decide +kernel
  have tiny' : |tiny| < 1 / 10 ^ 4 := by norm_num [tiny, abs_of_neg]
  exact ⟨size, large, (decimal_meant .default size (by decide) (.inl large)).2, size', tiny', small,
    (decimal_meant .default size' (by decide) (.inr (.inl small))).2⟩

/-- For 1.2345679 · 10⁻⁵ another fraction is closer to the double. -/
theorem decimal_missed :
    let d : ℚ := (12345679 : Int) / 10 ^ 12
    ∃ r, (Literal.double (Binary64.ofRat d)).toFraction Fraction.defaultBound = .ok r ∧ r ≠ d := by
  intro d
  obtain ⟨n, e, made, double⟩ :=
    Fraction.ofRat_decimal (m := 12345679) (k := 12) (by decide) (by decide) (by decide)
  change Binary64.ofRat d = .finite (d < 0) n e at made
  have written : d = 12345679 / 1000000000000 := by norm_num [d]
  have value : (Binary64.ofRat d).toRat? = some (7287602589733455 / 590295810358705651712) := by
    rw [written]
    decide +kernel
  rw [made] at value ⊢
  have tiny : |d| < 1 / 10 ^ 4 := by
    rw [written]
    norm_num [abs_of_pos]
  refine ⟨_, double.ofDouble_tiny value (by decide +kernel) tiny, fun same => ?_⟩
  have closer := (Fraction.closest_isClosest (by norm_num : 0 < 10 ^ 12)
    (7287602589733455 / 590295810358705651712)).closest (11740741 / 951000021951) (by decide +kernel)
  rw [same, written] at closer
  revert closer
  decide +kernel

end Number
end ComputerAlgebra

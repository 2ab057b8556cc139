import ComputerAlgebra.Binary64.Text
import ComputerAlgebra.Proofs.BigFloat.Nearest
import Mathlib.Tactic.FieldSimp
import Mathlib.Tactic.NormNum

/-!
The shortest decimal of a double. The decimals that read back are those in the interval of the values that are
rounded to the double. The search goes from coarse grids of decimals to finer ones, and on each it looks at
the two neighbours of the double; so it ends on a grid that meets the interval, and where the interval is
shorter than the grid it finds the one decimal on it.
-/

namespace ComputerAlgebra.Binary64
open BigFloat (quotientMagnitude quotientMagnitude_bounds)

variable {m : Nat} {e : Int} {x y : ℚ}

theorem zpow_mul_toNat {b : ℚ} (nonzero : b ≠ 0) (z : Int) : b ^ z * b ^ (-z).toNat = b ^ z.toNat := by
  rw [← zpow_natCast, ← zpow_natCast, ← zpow_add₀ nonzero]
  congr 1
  omega

/-- How far below a double a value may lie that is rounded to it, in units of its last digit. The doubles
below a power of two are half as far apart. -/
def reach (m : Nat) (e : Int) : ℚ := if m = 2 ^ 52 ∧ minExponent < e then 1 / 4 else 1 / 2

/-- The values that are rounded to `m * 2^e`. Both ends belong to an even mantissa. -/
def RoundsTo (m : Nat) (e : Int) (x : ℚ) : Prop :=
  if m % 2 = 0 then (m - reach m e) * 2 ^ e ≤ x ∧ x ≤ (m + 1 / 2) * 2 ^ e
  else (m - reach m e) * 2 ^ e < x ∧ x < (m + 1 / 2) * 2 ^ e

theorem reach_bounds (m : Nat) (e : Int) : 1 / 4 ≤ reach m e ∧ reach m e ≤ 1 / 2 := by
  unfold reach
  split <;> norm_num

theorem RoundsTo.bounds (rounds : RoundsTo m e x) :
    (m - reach m e) * 2 ^ e ≤ x ∧ x ≤ (m + 1 / 2) * 2 ^ e := by
  unfold RoundsTo at rounds
  split at rounds
  · exact rounds
  · exact ⟨rounds.1.le, rounds.2.le⟩

/-- A full mantissa is far larger than the distance. -/
theorem RoundsTo.near (rounds : RoundsTo m e x) (full : 2 ^ 52 ≤ m) :
    |m * 2 ^ e - x| ≤ m * 2 ^ e / 2 ^ 53 := by
  have unit : (0 : ℚ) < 2 ^ e := by positivity
  have most := (reach_bounds m e).2
  obtain ⟨low, high⟩ := rounds.bounds
  have many : (2 : ℚ) ^ 52 ≤ m := by exact_mod_cast full
  have half : (2 : ℚ) ^ e / 2 ≤ m * 2 ^ e / 2 ^ 53 := by
    rw [div_le_div_iff₀ two_pos (by positivity)]
    nlinarith
  rw [abs_le]
  constructor <;> nlinarith

/-- Every value inside is rounded to the double. -/
theorem roundsTo_of_inside (low : (m - reach m e) * 2 ^ e < x) (high : x < (m + 1 / 2) * 2 ^ e) :
    RoundsTo m e x := by
  unfold RoundsTo
  split
  · exact ⟨low.le, high.le⟩
  · exact ⟨low, high⟩

theorem roundsTo_even (even : m % 2 = 0) (low : (m - reach m e) * 2 ^ e ≤ x)
    (high : x ≤ (m + 1 / 2) * 2 ^ e) : RoundsTo m e x := by
  rw [RoundsTo, if_pos even]
  exact ⟨low, high⟩

theorem RoundsTo.value (m : Nat) (e : Int) : RoundsTo m e (m * 2 ^ e) := by
  have unit : (0 : ℚ) < 2 ^ e := by positivity
  have least := (reach_bounds m e).1
  exact roundsTo_of_inside (by nlinarith) (by nlinarith)

theorem RoundsTo.convex {z : ℚ} (low : RoundsTo m e x) (high : RoundsTo m e z) (above : x ≤ y)
    (below : y ≤ z) : RoundsTo m e y := by
  unfold RoundsTo at *
  split
  · next even =>
    rw [if_pos even] at low high
    exact ⟨low.1.trans above, below.trans high.2⟩
  · next odd =>
    rw [if_neg odd] at low high
    exact ⟨low.1.trans_le above, below.trans_lt high.2⟩

theorem RoundsTo.distance (first : RoundsTo m e x) (second : RoundsTo m e y) : |x - y| ≤ 2 ^ e := by
  have unit : (0 : ℚ) < 2 ^ e := by positivity
  have most := (reach_bounds m e).2
  obtain ⟨low, high⟩ := first.bounds
  obtain ⟨low', high'⟩ := second.bounds
  rw [abs_le]
  constructor <;> nlinarith

theorem scaled_order {s : ℚ} {i j : Nat} (positive : 0 < s) (left : x * s = i) (right : y * s = j) :
    (x ≤ y ↔ i ≤ j) ∧ (x < y ↔ i < j) := by
  constructor
  · rw [← mul_le_mul_iff_of_pos_right positive, left, right, Nat.cast_le]
  · rw [← mul_lt_mul_iff_of_pos_right positive, left, right, Nat.cast_lt]

/-- What is tested of a decimal is that it is rounded to the double. -/
theorem readsBack_iff (positive : 0 < m) (digits : Nat) (power : Int) :
    readsBack m e digits power = true ↔ RoundsTo m e (digits * 10 ^ power) := by
  have ten := zpow_mul_toNat (b := 10) (by norm_num) power
  have two := zpow_mul_toNat (b := 2) (by norm_num) e
  -- Both sides are compared over one denominator, with a quarter of the last digit for the unit.
  have scale : (0 : ℚ) < 10 ^ (-power).toNat * 2 ^ (-e).toNat * 4 := by positivity
  unfold readsBack
  dsimp only
  generalize given_value : (digits * tenTo power.toNat) <<< (-e).toNat * 4 = value
  generalize given_unit : tenTo (-power).toNat <<< e.toNat = unit
  have value_eq : (digits * 10 ^ power : ℚ) * (10 ^ (-power).toNat * 2 ^ (-e).toNat * 4) = value := by
    rw [← given_value, Nat.shiftLeft_eq]
    change _ = ((digits * 10 ^ power.toNat * 2 ^ (-e).toNat * 4 : Nat) : ℚ)
    push_cast
    rw [← ten]
    ring
  have unit_eq : (2 : ℚ) ^ e * (10 ^ (-power).toNat * 2 ^ (-e).toNat) = unit := by
    rw [← given_unit, Nat.shiftLeft_eq]
    change _ = ((10 ^ (-power).toNat * 2 ^ e.toNat : Nat) : ℚ)
    push_cast
    rw [← two]
    ring
  have high_eq : (m + 1 / 2) * 2 ^ e * (10 ^ (-power).toNat * 2 ^ (-e).toNat * 4) =
      (((4 * m + 2) * unit : Nat) : ℚ) := by
    push_cast
    rw [← unit_eq]
    ring
  have low_eq : (m - reach m e) * 2 ^ e * (10 ^ (-power).toNat * 2 ^ (-e).toNat * 4) =
      (((4 * m - if (m == 1 <<< 52 && decide (minExponent < e)) = true then 1 else 2) * unit : Nat) : ℚ) := by
    have narrow : (m == 1 <<< 52 && decide (minExponent < e)) = true ↔ m = 2 ^ 52 ∧ minExponent < e := by
      rw [Nat.one_shiftLeft, Bool.and_eq_true, beq_iff_eq, decide_eq_true_iff]
    unfold reach
    simp only [narrow]
    split
    · rw [Nat.cast_mul, Nat.cast_sub (by omega), ← unit_eq]
      push_cast
      ring
    · rw [Nat.cast_mul, Nat.cast_sub (by omega), ← unit_eq]
      push_cast
      ring
  obtain ⟨low_le, low_lt⟩ := scaled_order scale low_eq value_eq
  obtain ⟨le_high, lt_high⟩ := scaled_order scale value_eq high_eq
  unfold RoundsTo
  rw [low_le, low_lt, le_high, lt_high]
  split <;> simp

theorem nearestEven_odd {n : Int} {d : Nat} (positive : 0 < d) (odd : nearestEven n d % 2 = 1) :
    2 * |n - d * nearestEven n d| < d := by
  have near := nearestEven_near n positive
  refine lt_of_le_of_ne near fun tie => ?_
  have whole := Int.emod_add_mul_ediv n d
  have low := Int.emod_nonneg n (by omega : (d : Int) ≠ 0)
  have high := Int.emod_lt_of_pos n (by omega : (0 : Int) < d)
  simp only [nearestEven] at tie odd
  split at tie
  · rw [show n - d * (n / d) = n % d by omega, abs_of_nonneg low] at tie
    omega
  split at tie
  · rw [mul_add, mul_one, show n - (d * (n / d) + d) = n % d - d by omega, abs_of_neg (by omega)] at tie
    omega
  · rw [if_neg (by assumption), if_neg (by assumption)] at odd
    omega

/-- The integer that a quotient is rounded to, as its distance from the quotient. -/
theorem nearestEven_distance (n : Nat) {d : Nat} (positive : 0 < d) :
    |(n : ℚ) / d - nearestEven n d| ≤ 1 / 2 ∧
      (nearestEven n d % 2 = 1 → |(n : ℚ) / d - nearestEven n d| < 1 / 2) := by
  have unit : (0 : ℚ) < d := by exact_mod_cast positive
  have scaled : |(n : ℚ) / d - nearestEven n d| = ((|n - d * nearestEven n d| : Int) : ℚ) / d := by
    rw [Int.cast_abs]
    push_cast
    rw [← abs_of_pos unit, ← abs_div, abs_of_pos unit]
    congr 1
    field_simp
  rw [scaled]
  constructor
  · have near : (2 * |n - d * nearestEven n d| : Int) ≤ d := nearestEven_near n positive
    rw [div_le_div_iff₀ unit two_pos]
    have cast : ((2 * |n - d * nearestEven n d| : Int) : ℚ) ≤ d := by exact_mod_cast near
    push_cast at cast ⊢
    linarith
  · intro odd
    have near : (2 * |n - d * nearestEven n d| : Int) < d := nearestEven_odd positive odd
    rw [div_lt_div_iff₀ unit two_pos]
    have cast : ((2 * |n - d * nearestEven n d| : Int) : ℚ) < d := by exact_mod_cast near
    push_cast at cast ⊢
    linarith

theorem quotientMagnitude_range {n d : Nat} (numerator : 0 < n) (denominator : 0 < d) :
    (2 : ℚ) ^ (quotientMagnitude n d - 1) ≤ n / d ∧ (n : ℚ) / d < 2 ^ quotientMagnitude n d := by
  have unit : (0 : ℚ) < d := by exact_mod_cast denominator
  obtain ⟨low, high⟩ := quotientMagnitude_bounds (n := n) (by omega) denominator
  rw [Int.cast_natCast, Nat.abs_cast] at low high
  exact ⟨(le_div_iff₀ unit).mpr low, (div_lt_iff₀ unit).mpr high⟩

/-- The magnitude of a quotient in the range of the doubles with a full mantissa. -/
theorem quotientMagnitude_full {n d : Nat} (numerator : 0 < n) (denominator : 0 < d)
    (low : (2 : ℚ) ^ (-1022 : Int) ≤ n / d) (high : (n : ℚ) / d < 2 ^ (1023 : Int)) :
    -1022 < quotientMagnitude n d ∧ quotientMagnitude n d - 1 < 1023 := by
  obtain ⟨least, most⟩ := quotientMagnitude_range numerator denominator
  exact ⟨(zpow_lt_zpow_iff_right₀ one_lt_two).mp (low.trans_lt most),
    (zpow_lt_zpow_iff_right₀ one_lt_two).mp (least.trans_lt high)⟩

/-- A quotient in units of a power, as the quotient of two whole numbers. -/
theorem scaled_quotient {b : Nat} (base : 0 < b) (n : Nat) {d : Nat} (denominator : 0 < d) (z : Int) :
    ((n * b ^ (-z).toNat : Nat) : ℚ) / (d * b ^ z.toNat : Nat) * b ^ z = n / d := by
  have unit : (0 : ℚ) < b := by exact_mod_cast base
  have moved := zpow_mul_toNat unit.ne' z
  have divisor : (0 : ℚ) < d := by exact_mod_cast denominator
  push_cast
  rw [← moved]
  field_simp

/-- A value is rounded to the nearest mantissa; the value itself has no smaller binary magnitude. -/
theorem roundsTo_of_nearest {s : ℚ} (least : 2 ^ 52 ≤ s) (near : |s - m| ≤ 1 / 2)
    (nearer : m % 2 = 1 → |s - m| < 1 / 2) : RoundsTo m e (s * 2 ^ e) := by
  have unit : (0 : ℚ) < 2 ^ e := by positivity
  -- A power of two is not above the value, and below another double the reach is one half.
  have reached : m - reach m e < s ∨ reach m e = 1 / 2 := by
    by_cases two : m = 2 ^ 52
    · have positive := (reach_bounds m e).1
      rw [two] at positive ⊢
      push_cast at least ⊢
      exact .inl (by linarith)
    · exact .inr (if_neg fun narrow => two narrow.1)
  rcases Nat.mod_two_eq_zero_or_one m with even | odd
  · obtain ⟨lower, upper⟩ := abs_le.mp near
    refine roundsTo_even even (mul_le_mul_of_nonneg_right ?_ unit.le)
      (mul_le_mul_of_nonneg_right (by linarith) unit.le)
    rcases reached with inside | half
    · exact inside.le
    · linarith
  · obtain ⟨lower, upper⟩ := abs_lt.mp (nearer odd)
    refine roundsTo_of_inside (mul_lt_mul_of_pos_right ?_ unit) (mul_lt_mul_of_pos_right (by linarith) unit)
    rcases reached with inside | half
    · exact inside
    · linarith

/-- A value that is rounded up to the next power of two. -/
theorem roundsTo_of_carry {s : ℚ} (near : |s - (2 ^ 53 : Nat)| ≤ 1 / 2) (above : minExponent ≤ e) :
    RoundsTo (2 ^ 52) (e + 1) (s * 2 ^ e) := by
  have unit : (0 : ℚ) < 2 ^ e := by positivity
  have narrow : reach (2 ^ 52) (e + 1) = 1 / 4 := if_pos ⟨rfl, by omega⟩
  have double : (2 : ℚ) ^ (e + 1) = 2 * 2 ^ e := by rw [zpow_add_one₀ two_ne_zero, mul_comm]
  obtain ⟨lower, upper⟩ := abs_le.mp near
  push_cast at lower upper
  refine roundsTo_even (by norm_num) ?_ ?_
  · rw [narrow, double]
    push_cast
    nlinarith
  · rw [double]
    push_cast
    nlinarith

/-- A quotient in the range of the doubles with a full mantissa is rounded to one of them. -/
theorem ofQuotient_rounds {n d : Nat} (numerator : 0 < n) (denominator : 0 < d)
    (low : (2 : ℚ) ^ (-1022 : Int) ≤ n / d) (high : (n : ℚ) / d < 2 ^ (1023 : Int)) (negative : Bool) :
    ∃ m e, ofQuotient negative n d = .finite negative m e ∧ 2 ^ 52 ≤ m ∧ RoundsTo m e (n / d) := by
  obtain ⟨least, most⟩ := quotientMagnitude_range numerator denominator
  obtain ⟨above, below⟩ := quotientMagnitude_full numerator denominator low high
  have exponent : max (quotientMagnitude n d - 53) minExponent = quotientMagnitude n d - 53 := by
    unfold minExponent
    omega
  unfold ofQuotient
  rw [if_neg numerator.ne', exponent]
  dsimp only
  generalize given : quotientMagnitude n d - 53 = e
  have unit : (0 : ℚ) < 2 ^ e := by positivity
  have divisor : 0 < d <<< e.toNat := by
    rw [Nat.shiftLeft_eq]
    positivity
  -- In units of the last digit the quotient lies between two powers of two, and so does its rounding.
  have scaled : ((n <<< (-e).toNat : Nat) : ℚ) / (d <<< e.toNat : Nat) * 2 ^ e = n / d := by
    rw [Nat.shiftLeft_eq, Nat.shiftLeft_eq]
    exact scaled_quotient two_pos n denominator e
  have power (k : Nat) : (2 : ℚ) ^ (e + k) = 2 ^ k * 2 ^ e := by
    rw [add_comm, zpow_add₀ two_ne_zero, zpow_natCast]
  rw [show quotientMagnitude n d - 1 = e + (52 : Nat) by omega, power, ← scaled] at least
  rw [show quotientMagnitude n d = e + (53 : Nat) by omega, power, ← scaled] at most
  have least := le_of_mul_le_mul_right least unit
  have most := lt_of_mul_lt_mul_right most unit.le
  obtain ⟨near, nearer⟩ := nearestEven_distance (n <<< (-e).toNat) divisor
  rw [← scaled]
  generalize ((n <<< (-e).toNat : Nat) : ℚ) / (d <<< e.toNat : Nat) = s at least most near nearer ⊢
  generalize nearestEven ((n <<< (-e).toNat : Nat) : Int) (d <<< e.toNat) = r at near nearer ⊢
  obtain ⟨lower, upper⟩ := abs_le.mp near
  have first : 2 ^ 52 - 1 < r := by
    have real : ((2 ^ 52 - 1 : Int) : ℚ) < r := by
      push_cast
      linarith
    exact_mod_cast real
  have last : r < 2 ^ 53 + 1 := by
    have real : (r : ℚ) < ((2 ^ 53 + 1 : Int) : ℚ) := by
      push_cast
      linarith
    exact_mod_cast real
  obtain ⟨k, rfl⟩ := Int.eq_ofNat_of_zero_le (show 0 ≤ r by omega)
  rw [Int.toNat_natCast, Nat.one_shiftLeft, Nat.one_shiftLeft]
  rw [Int.cast_natCast] at near nearer
  by_cases carry : k = 2 ^ 53
  · rw [if_pos carry]
    dsimp only
    rw [if_neg (by unfold maxExponent; omega)]
    refine ⟨_, _, rfl, le_rfl, roundsTo_of_carry (carry ▸ near) ?_⟩
    unfold minExponent
    omega
  · rw [if_neg carry]
    dsimp only
    rw [if_neg (by unfold maxExponent; omega)]
    exact ⟨k, e, rfl, by omega, roundsTo_of_nearest least near fun odd => nearer (by omega)⟩

/-- The guess at the decimal magnitude, from the binary one. -/
def decimalGuess (k : Int) : Int := (k - 1) * 30103 / 100000

/-- Powers of two around powers of ten, for the exponents of doubles above zero and below it. -/
theorem guess_table : (List.range 1100).all fun j =>
    (10 ^ (j * 30103 / 100000)).ble (2 ^ j * 10) && (2 ^ j).ble (10 ^ (j * 30103 / 100000) * 50) &&
      (2 ^ j).ble (10 ^ ((j * 30103 + 99999) / 100000) * 10) &&
      (10 ^ ((j * 30103 + 99999) / 100000)).ble (2 ^ j * 50) := by
  decide +kernel

/-- Up to the exponents of doubles the guess is at most two too small and one too large. -/
theorem guess_bounds {k : Int} (low : -1090 ≤ k) (high : k < 1090) :
    (10 : ℚ) ^ (decimalGuess k - 1) ≤ 2 ^ (k - 1) ∧ (2 : ℚ) ^ k ≤ 10 ^ (decimalGuess k + 2) := by
  have small : (k - 1).natAbs < 1100 := by omega
  have entry := List.all_eq_true.mp guess_table (k - 1).natAbs (List.mem_range.mpr small)
  simp only [Bool.and_eq_true, Nat.ble_eq] at entry
  obtain ⟨⟨⟨first, second⟩, third⟩, fourth⟩ := entry
  have two (z : Int) : (2 : ℚ) ^ (z + 1) = 2 ^ z * 2 := zpow_add_one₀ two_ne_zero z
  rcases Int.natAbs_eq (k - 1) with above | below
  · generalize (k - 1).natAbs = j at *
    have exponent : decimalGuess k = (j * 30103 / 100000 : Nat) := by
      unfold decimalGuess
      omega
    rw [exponent, show k = j + 1 by omega, add_sub_cancel_right, two, zpow_sub_one₀ (by norm_num),
      zpow_add₀ (by norm_num), zpow_natCast, zpow_natCast, ← div_eq_mul_inv, div_le_iff₀ (by norm_num)]
    have first' : (10 : ℚ) ^ (j * 30103 / 100000) ≤ 2 ^ j * 10 := by exact_mod_cast first
    have second' : (2 : ℚ) ^ j ≤ 10 ^ (j * 30103 / 100000) * 50 := by exact_mod_cast second
    refine ⟨first', ?_⟩
    norm_num
    linarith
  · generalize (k - 1).natAbs = j at *
    have exponent : decimalGuess k = -((j * 30103 + 99999) / 100000 : Nat) := by
      unfold decimalGuess
      omega
    rw [exponent, show k = -j + 1 by omega, add_sub_cancel_right, two, zpow_sub_one₀ (by norm_num),
      zpow_add₀ (by norm_num), zpow_neg, zpow_neg, zpow_natCast, zpow_natCast, ← mul_inv]
    have third' : (2 : ℚ) ^ j ≤ 10 ^ ((j * 30103 + 99999) / 100000) * 10 := by exact_mod_cast third
    have fourth' : (10 : ℚ) ^ ((j * 30103 + 99999) / 100000) ≤ 2 ^ j * 50 := by exact_mod_cast fourth
    refine ⟨inv_anti₀ (by positivity) third', ?_⟩
    rw [inv_mul_eq_div, inv_mul_eq_div, div_le_div_iff₀ (by positivity) (by positivity)]
    norm_num
    linarith

/-- The power of ten just above a quotient. -/
theorem decimalMagnitude_bounds {n d : Nat} (numerator : 0 < n) (denominator : 0 < d)
    (low : (2 : ℚ) ^ (-1022 : Int) ≤ n / d) (high : (n : ℚ) / d < 2 ^ (1023 : Int)) :
    (10 : ℚ) ^ (decimalMagnitude n d - 1) ≤ n / d ∧ (n : ℚ) / d < 10 ^ decimalMagnitude n d := by
  obtain ⟨least, most⟩ := quotientMagnitude_range numerator denominator
  obtain ⟨above, below⟩ := quotientMagnitude_full numerator denominator low high
  obtain ⟨under, beyond⟩ := guess_bounds (k := quotientMagnitude n d) (by omega) (by omega)
  have less (p : Int) : n * tenTo (-p).toNat < d * tenTo p.toNat ↔ (n : ℚ) / d < 10 ^ p := by
    have unit : (0 : ℚ) < 10 ^ p := by positivity
    have divisor : (0 : ℚ) < (d * 10 ^ p.toNat : Nat) := by
      exact_mod_cast Nat.mul_pos denominator (Nat.pow_pos (by decide))
    have scaled := scaled_quotient (b := 10) (by decide) n denominator p
    rw [Nat.cast_ofNat] at scaled
    rw [← scaled, mul_lt_iff_lt_one_left unit, div_lt_one divisor, Nat.cast_lt]
    rfl
  rcases lt_or_ge ((n : ℚ) / d) (10 ^ decimalGuess (quotientMagnitude n d)) with first | later
  · have same : decimalMagnitude n d = decimalGuess (quotientMagnitude n d) := if_pos ((less _).mpr first)
    rw [same]
    exact ⟨under.trans least, first⟩
  have refused := mt (less _).mp (not_lt.mpr later)
  rcases lt_or_ge ((n : ℚ) / d) (10 ^ (decimalGuess (quotientMagnitude n d) + 1)) with first | last
  · have same : decimalMagnitude n d = decimalGuess (quotientMagnitude n d) + 1 :=
      (if_neg refused).trans (if_pos ((less _).mpr first))
    rw [same, add_sub_cancel_right]
    exact ⟨later, first⟩
  · have same : decimalMagnitude n d = decimalGuess (quotientMagnitude n d) + 2 :=
      (if_neg refused).trans (if_neg (mt (less _).mp (not_lt.mpr last)))
    rw [same, show decimalGuess (quotientMagnitude n d) + 2 - 1 = decimalGuess (quotientMagnitude n d) + 1 by omega]
    exact ⟨last, most.trans_le beyond⟩

/-- The two neighbours of a value on a grid. -/
theorem nearestEven_neighbour (n d : Nat) :
    (nearestEven n d).toNat = n / d ∨ (nearestEven n d).toNat = n / d + 1 := by
  have quotient : (n : Int) / d = (n / d : Nat) := rfl
  unfold nearestEven
  rw [quotient]
  generalize n / d = q
  dsimp only
  split
  · exact .inl (Int.toNat_natCast _)
  split
  · exact .inr (by omega)
  · omega

/-- Where a grid has a decimal that reads back, one of the two neighbours of the double on it does. -/
theorem neighbour_rounds {p : Int} {low c : Nat} (below : (low : ℚ) * 10 ^ p ≤ m * 2 ^ e)
    (above : (m : ℚ) * 2 ^ e ≤ (low + 1 : Nat) * 10 ^ p) (rounds : RoundsTo m e (c * 10 ^ p)) :
    RoundsTo m e (low * 10 ^ p) ∨ RoundsTo m e ((low + 1 : Nat) * 10 ^ p) := by
  have unit : (0 : ℚ) < 10 ^ p := by positivity
  rcases Nat.lt_or_ge low c with after | before
  · refine .inr (.convex (.value m e) rounds above (mul_le_mul_of_nonneg_right ?_ unit.le))
    exact_mod_cast after
  · refine .inl (.convex rounds (.value m e) (mul_le_mul_of_nonneg_right ?_ unit.le) below)
    exact_mod_cast before

section Search
variable {n d : Nat} (denominator : 0 < d) (value : (n : ℚ) / d = m * 2 ^ e)
include denominator value

theorem floor_neighbours (p : Int) :
    ((n * tenTo (-p).toNat / (d * tenTo p.toNat) : Nat) : ℚ) * 10 ^ p ≤ m * 2 ^ e ∧
      (m : ℚ) * 2 ^ e ≤ (n * tenTo (-p).toNat / (d * tenTo p.toNat) + 1 : Nat) * 10 ^ p := by
  have unit : (0 : ℚ) < 10 ^ p := by positivity
  have scaled := scaled_quotient (b := 10) (by decide) n denominator p
  have divisor : 0 < d * tenTo p.toNat := Nat.mul_pos denominator (Nat.pow_pos (by decide))
  have positive : (0 : ℚ) < (d * tenTo p.toNat : Nat) := by exact_mod_cast divisor
  rw [Nat.cast_ofNat, value] at scaled
  change ((n * tenTo (-p).toNat : Nat) : ℚ) / (d * tenTo p.toNat : Nat) * 10 ^ p = _ at scaled
  rw [← scaled]
  constructor
  · exact mul_le_mul_of_nonneg_right Nat.cast_div_le unit.le
  · refine mul_le_mul_of_nonneg_right ?_ unit.le
    rw [div_le_iff₀ positive]
    exact_mod_cast (Nat.lt_mul_of_div_lt (Nat.lt_succ_self _) divisor).le

/-- The search ends with a decimal that reads back, on no finer grid than the first that has one. -/
theorem shortestFrom_rounds (positive : 0 < m) (top : Int) {C : Nat} {c : Nat}
    (rounds : RoundsTo m e (c * 10 ^ (top - C))) (fuel : Nat) : ∀ count, count ≤ C → C < count + fuel →
    ∃ digits power, shortestFrom m e n d top fuel count = (digits, power) ∧ top - C ≤ power ∧
      RoundsTo m e (digits * 10 ^ power) := by
  induction fuel with
  | zero => exact fun count low high => absurd high (by omega)
  | succ fuel ih =>
    intro count low high
    rw [shortestFrom]
    obtain ⟨below, above⟩ := floor_neighbours denominator value (top - count)
    have neighbour := nearestEven_neighbour (n * tenTo (-(top - count)).toNat) (d * tenTo (top - count).toNat)
    generalize (nearestEven _ (d * tenTo (top - count).toNat)).toNat = near at neighbour ⊢
    generalize n * tenTo (-(top - count)).toNat / (d * tenTo (top - count).toNat) = first
      at below above neighbour ⊢
    generalize chosen : (if near = first then first + 1 else first) = far
    have both : first = near ∧ first + 1 = far ∨ first + 1 = near ∧ first = far := by
      rw [← chosen]
      rcases neighbour with same | next
      · exact .inl ⟨same.symm, (if_pos same).symm⟩
      · exact .inr ⟨next.symm, (if_neg (by omega)).symm⟩
    split
    · next reads => exact ⟨near, top - count, rfl, by omega, (readsBack_iff positive _ _).mp reads⟩
    split
    · next reads => exact ⟨far, top - count, rfl, by omega, (readsBack_iff positive _ _).mp reads⟩
    · next missed missed' =>
      rw [readsBack_iff positive] at missed missed'
      rcases Nat.lt_or_ge count C with more | last
      · exact ih (count + 1) more (by omega)
      · obtain rfl : count = C := by omega
        have found := neighbour_rounds below above rounds
        rcases both with ⟨rfl, rfl⟩ | ⟨rfl, rfl⟩
        · exact absurd found (not_or.mpr ⟨missed, missed'⟩)
        · exact absurd found (not_or.mpr ⟨missed', missed⟩)

end Search

/-- A grid that is wider than the interval has one decimal in it at most. -/
theorem RoundsTo.eq_of_grid {p : Int} {a b : Nat} (wide : (2 : ℚ) ^ e < 10 ^ p)
    (first : RoundsTo m e (a * 10 ^ p)) (second : RoundsTo m e (b * 10 ^ p)) : a = b := by
  have unit : (0 : ℚ) < 10 ^ p := by positivity
  have near := (first.distance second).trans_lt wide
  rw [← sub_mul, abs_mul, abs_of_pos unit, mul_lt_iff_lt_one_left unit] at near
  have integer : |(a : Int) - b| < 1 := by exact_mod_cast near
  have same := Int.abs_lt_one_iff.mp integer
  omega

def keptDigits (n : Nat) : List Char := ((Nat.toDigits 10 n).reverse.dropWhile (· = '0')).reverse

/-- A decimal with up to fifteen digits is printed of the double that it is rounded to. -/
theorem shortest_of_short (full : 2 ^ 52 ≤ m) (low : (2 : ℚ) ^ (-1022 : Int) ≤ m * 2 ^ e)
    (high : (m : ℚ) * 2 ^ e < 2 ^ (1023 : Int)) {a : Nat} (short : a < 10 ^ 15) {p : Int}
    (rounds : RoundsTo m e (a * 10 ^ p)) :
    ∃ (digits : Nat) (power : Int), (digits * 10 ^ power : ℚ) = a * 10 ^ p ∧
      shortest m e = (keptDigits digits, power + (Nat.toDigits 10 digits).length) := by
  have unit : (0 : ℚ) < 2 ^ e := by positivity
  have positive : 0 < m := by omega
  have many : (2 : ℚ) ^ 52 ≤ m := by exact_mod_cast full
  have numerator : 0 < m <<< e.toNat := by
    rw [Nat.shiftLeft_eq]
    positivity
  have denominator : 0 < 1 <<< (-e).toNat := by
    rw [Nat.shiftLeft_eq]
    positivity
  have value : ((m <<< e.toNat : Nat) : ℚ) / (1 <<< (-e).toNat : Nat) = m * 2 ^ e := by
    have two := zpow_mul_toNat (b := 2) (by norm_num) e
    rw [Nat.shiftLeft_eq, Nat.one_shiftLeft]
    push_cast
    rw [← two]
    field_simp
  obtain ⟨least, most⟩ := decimalMagnitude_bounds numerator denominator (by rwa [value]) (by rwa [value])
  unfold shortest
  generalize m <<< e.toNat = n at value least most ⊢
  generalize 1 <<< (-e).toNat = d at value least most denominator ⊢
  dsimp only
  rw [value] at least most
  generalize decimalMagnitude n d = top at least most ⊢
  -- The decimal stands on the grid of fifteen digits, which is wider than the interval.
  have coarse : top ≤ 15 + p := by
    have below : (m : ℚ) * 2 ^ e < 10 ^ (15 + p) := by
      have near := (abs_le.mp ((RoundsTo.value m e).distance rounds)).2
      have tens : (0 : ℚ) < 10 ^ p := by positivity
      have size : (a : ℚ) + 1 ≤ 10 ^ 15 := by exact_mod_cast short
      rw [zpow_add₀ (by norm_num)]
      norm_num at size ⊢
      nlinarith
    have order := (zpow_lt_zpow_iff_right₀ (by norm_num : (1 : ℚ) < 10)).mp (least.trans_lt below)
    omega
  have wide : (2 : ℚ) ^ e < 10 ^ (top - (15 : Nat)) := by
    have fifteen : (10 : ℚ) ^ top = 10 ^ (top - (15 : Nat)) * 10 ^ 15 := by
      rw [← zpow_natCast, ← zpow_add₀ (by norm_num)]
      congr 1
      omega
    rw [fifteen] at most
    have size := mul_le_mul_of_nonneg_right many unit.le
    norm_num at size most ⊢
    linarith
  have grid : (a * 10 ^ p : ℚ) = (a * 10 ^ (15 + p - top).toNat : Nat) * 10 ^ (top - (15 : Nat)) := by
    push_cast
    rw [mul_assoc, ← zpow_natCast, ← zpow_add₀ (by norm_num)]
    congr 2
    omega
  rw [grid] at rounds ⊢
  obtain ⟨digits, power, found, coarser, reads⟩ :=
    shortestFrom_rounds denominator value positive top rounds 17 1 (by omega) (by omega)
  rw [found]
  refine ⟨digits, power, ?_, rfl⟩
  have moved : (digits * 10 ^ power : ℚ) = (digits * 10 ^ (power - (top - (15 : Nat))).toNat : Nat) *
      10 ^ (top - (15 : Nat)) := by
    push_cast
    rw [mul_assoc, ← zpow_natCast, ← zpow_add₀ (by norm_num)]
    congr 2
    push_cast at coarser ⊢
    omega
  rw [moved] at reads ⊢
  rw [reads.eq_of_grid wide rounds]

end ComputerAlgebra.Binary64

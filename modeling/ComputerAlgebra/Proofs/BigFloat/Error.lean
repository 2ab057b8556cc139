import ComputerAlgebra.BigFloat.Lemmas
import ComputerAlgebra.Proofs.BigFloat.Nearest

/-!
Errors of values rounded to nearest. What is rounded once is off by at most one part in `2 ^ bits`; a
fraction as a float is rounded twice, in its numerator and in its quotient. Numbers that have no more
digits than are asked for are kept, and rounding does not pass them.
-/

namespace ComputerAlgebra.BigFloat

variable {bits : Nat}

section Error

/-- A number with more digits than are asked for, over the last digit that is kept. -/
theorem roundDyadic_long {n k : Int} (odd : n % 2 = 1) (long : bitLength n.natAbs - bits ≠ 0) :
    roundDyadic bits (.ofOdd n k odd) =
      .ofIntWithPrec (Direction.nearest.quotient n (2 ^ (bitLength n.natAbs - bits)))
        (k - (bitLength n.natAbs - bits : Nat)) := by
  change (if bitLength n.natAbs - bits = 0 then _ else _) = _
  rw [if_neg long, Nat.one_shiftLeft]

/-- What is rounded is off by at most half of the last digit that is kept. -/
theorem round_error (x : Dyadic) :
    |(roundDyadic bits x).toRat - x.toRat| ≤ |x.toRat| / 2 ^ bits := by
  cases x with
  | zero =>
    change |(0 : Dyadic).toRat - (0 : Dyadic).toRat| ≤ |(0 : Dyadic).toRat| / 2 ^ bits
    simp
  | ofOdd n k odd =>
    by_cases short : bitLength n.natAbs - bits = 0
    · have kept : roundDyadic bits (.ofOdd n k odd) = .ofOdd n k odd := if_pos short
      rw [kept, sub_self, abs_zero]
      positivity
    have nonzero : n ≠ 0 := by omega
    have value := roundDyadic_long (k := k) odd short
    generalize cut : bitLength n.natAbs - bits = excess at short value
    change _ = Dyadic.ofIntWithPrec (nearestEven n (2 ^ excess)) (k - excess) at value
    have near : 2 * |(n : ℚ) - 2 ^ excess * nearestEven n (2 ^ excess)| ≤ 2 ^ excess := by
      exact_mod_cast nearestEven_near n (Nat.two_pow_pos excess)
    have large : (2 : ℚ) ^ bits * 2 ^ excess ≤ 2 * |(n : ℚ)| := by
      have least := two_pow_le_abs nonzero
      have digits : (2 : ℚ) * 2 ^ ((bitLength n.natAbs : Int) - 1) = 2 ^ bits * 2 ^ excess := by
        rw [← zpow_one_add₀ two_ne_zero, ← pow_add, ← zpow_natCast]
        congr 1
        omega
      linarith
    have unit : (0 : ℚ) < 2 ^ (-k) := by positivity
    have power : (2 : ℚ) ^ (-(k - (excess : Int))) = 2 ^ excess * 2 ^ (-k) := by
      rw [← zpow_natCast, ← zpow_add₀ two_ne_zero]
      congr 1
      omega
    rw [value, Dyadic.toRat_ofIntWithPrec_eq_mul_two_pow, Dyadic.toRat_ofOdd_eq_mul_two_pow, power,
      abs_mul, abs_of_pos unit, le_div_iff₀ (by positivity)]
    have apart : (nearestEven n (2 ^ excess) : ℚ) * (2 ^ excess * 2 ^ (-k)) - n * 2 ^ (-k) =
        -((n - 2 ^ excess * nearestEven n (2 ^ excess)) * 2 ^ (-k)) := by ring
    rw [apart, abs_neg, abs_mul, abs_of_pos unit]
    calc |(n : ℚ) - 2 ^ excess * nearestEven n (2 ^ excess)| * 2 ^ (-k) * 2 ^ bits
        ≤ 2 ^ excess / 2 * 2 ^ (-k) * 2 ^ bits := by gcongr; linarith
      _ = 2 ^ bits * 2 ^ excess / 2 * 2 ^ (-k) := by ring
      _ ≤ |(n : ℚ)| * 2 ^ (-k) := by gcongr; linarith

theorem roundQuotient_error (n : Int) {d : Nat} (pos : 0 < d) :
    |(roundQuotient bits n d).toRat - n / d| ≤ |(n : ℚ) / d| / 2 ^ bits := by
  by_cases zero : n = 0
  · subst zero
    simp [roundQuotient]
  have low := (quotientMagnitude_bounds zero pos).1
  have divisor : (0 : ℚ) < d := by exact_mod_cast pos
  have value : roundQuotient bits n d =
      .ofIntWithPrec (nearestEven (n <<< (bits - quotientMagnitude n d : Int).toNat)
        (d <<< (-(bits - quotientMagnitude n d : Int)).toNat)) (bits - quotientMagnitude n d) :=
    if_neg zero
  rw [value, Dyadic.toRat_ofIntWithPrec_eq_mul_two_pow]
  generalize quotientMagnitude n d = e at low ⊢
  generalize scaled : (bits : Int) - e = scale
  rw [Int.shiftLeft_eq, Nat.shiftLeft_eq]
  have positive : 0 < d * 2 ^ (-scale).toNat := by positivity
  have near := nearestEven_near (n * 2 ^ scale.toNat) positive
  generalize nearestEven (n * 2 ^ scale.toNat) (d * 2 ^ (-scale).toNat) = m at near ⊢
  have within : 2 * |(n : ℚ) * 2 ^ scale.toNat - d * 2 ^ (-scale).toNat * m| ≤ d * 2 ^ (-scale).toNat := by
    exact_mod_cast near
  have power : (2 : ℚ) ^ scale.toNat = 2 ^ scale * 2 ^ (-scale).toNat := by
    rw [← zpow_natCast, ← zpow_natCast, ← zpow_add₀ two_ne_zero]
    congr 1
    omega
  have unit : (0 : ℚ) < 2 ^ (-scale).toNat := by positivity
  -- Over the power of two that both sides are scaled by, the quotient is one half away.
  have half : |(n : ℚ) / d * 2 ^ scale - m| ≤ 1 / 2 := by
    have split_out : (n : ℚ) * 2 ^ scale.toNat - d * 2 ^ (-scale).toNat * m =
        (n / d * 2 ^ scale - m) * (d * 2 ^ (-scale).toNat) := by
      rw [power]
      field_simp
    rw [split_out, abs_mul, abs_of_pos (mul_pos divisor unit)] at within
    refine le_of_mul_le_mul_right ?_ (mul_pos divisor unit)
    linarith
  have least : (2 : ℚ) ^ (e - 1) ≤ |(n : ℚ) / d| := by
    rw [abs_div, abs_of_pos divisor, le_div_iff₀ divisor]
    exact low
  have back : (0 : ℚ) < 2 ^ (-scale) := by positivity
  have moved : (m : ℚ) * 2 ^ (-scale) - n / d = -((n / d * 2 ^ scale - m) * 2 ^ (-scale)) := by
    rw [sub_mul, mul_assoc, ← zpow_add₀ two_ne_zero, add_neg_cancel, zpow_zero]
    ring
  rw [moved, abs_neg, abs_mul, abs_of_pos back, le_div_iff₀ (by positivity)]
  calc |(n : ℚ) / d * 2 ^ scale - m| * 2 ^ (-scale) * 2 ^ bits
      ≤ 1 / 2 * 2 ^ (-scale) * 2 ^ bits := by gcongr
    _ = 2 ^ (e - 1) := by
        rw [← zpow_natCast, mul_assoc, ← zpow_add₀ two_ne_zero, zpow_sub₀ two_ne_zero]
        rw [show -scale + (bits : Int) = e by omega, zpow_one]
        ring
    _ ≤ |(n : ℚ) / d| := least

theorem toRat_parts (x : Dyadic) : x.toRat = (parts x).1 * 2 ^ (-(parts x).2) := by
  cases x with
  | zero => exact (zero_mul _).symm
  | ofOdd n k odd => exact Dyadic.toRat_ofOdd_eq_mul_two_pow

theorem quotient?_error {x y q : Dyadic} (found : quotient? bits x y = some q) :
    |q.toRat - x.toRat / y.toRat| ≤ |x.toRat / y.toRat| / 2 ^ bits := by
  rw [toRat_parts x, toRat_parts y]
  unfold quotient? at found
  generalize parts x = a at found ⊢
  generalize parts y = b at found ⊢
  obtain ⟨n, k⟩ := a
  obtain ⟨d, l⟩ := b
  obtain ⟨nonzero, same⟩ := Option.ite_none_left_eq_some.mp found
  obtain rfl := Option.some.inj same
  dsimp only
  have divisor : (d : ℚ) ≠ 0 := Int.cast_ne_zero.mpr nonzero
  have unit : (0 : ℚ) < 2 ^ (-(k - l)) := by positivity
  have error := @roundQuotient_error bits (if d < 0 then -n else n) d.natAbs (Int.natAbs_pos.mpr nonzero)
  have signed : (((if d < 0 then -n else n : Int) : ℚ)) / d.natAbs = n / d := by
    have size : ((d.natAbs : Nat) : ℚ) = |(d : ℚ)| := by
      rw [← Int.cast_abs, Int.abs_eq_natAbs, Int.cast_natCast]
    rw [size]
    split
    · next negative =>
      rw [abs_of_neg (by exact_mod_cast negative), Int.cast_neg, neg_div_neg_eq]
    · next positive =>
      rw [abs_of_nonneg (by exact_mod_cast not_lt.mp positive)]
  rw [signed] at error
  have value : (n : ℚ) * 2 ^ (-k) / (d * 2 ^ (-l)) = n / d * 2 ^ (-(k - l)) := by
    rw [show -(k - l) = -k - -l by ring, zpow_sub₀ two_ne_zero]
    field_simp
  rw [value, toRat_shiftRight, ← sub_mul, abs_mul, abs_mul, abs_of_pos unit, mul_div_right_comm]
  exact mul_le_mul_of_nonneg_right error unit.le

/-- A fraction as a float: the errors of its numerator and of the quotient. -/
theorem ofRat_error (q : Rat) : |(ofRat bits q).toRat - q| ≤ 3 * |q| / 2 ^ bits := by
  have first := @round_error bits (q.num : Int)
  rw [Dyadic.toRat_intCast] at first
  rw [toRat_parts] at first
  unfold ofRat
  generalize parts (roundDyadic bits (q.num : Int)) = a at first ⊢
  obtain ⟨n, k⟩ := a
  dsimp only at first ⊢
  have divisor : (0 : ℚ) < q.den := by exact_mod_cast q.den_pos
  have unit : (0 : ℚ) < 2 ^ (-k) := by positivity
  have second := @roundQuotient_error bits n q.den q.den_pos
  have value : (q.num : ℚ) / q.den = q := Rat.num_div_den q
  rw [toRat_shiftRight]
  have power : (1 : ℚ) ≤ 2 ^ bits := one_le_pow₀ one_le_two
  -- The quotient is that of the rounded numerator.
  have moved : |(roundQuotient bits n q.den).toRat * 2 ^ (-k) - n * 2 ^ (-k) / q.den| ≤
      |(n : ℚ) * 2 ^ (-k) / q.den| / 2 ^ bits := by
    rw [mul_div_right_comm, ← sub_mul, abs_mul, abs_mul, abs_of_pos unit, mul_div_right_comm]
    exact mul_le_mul_of_nonneg_right second unit.le
  have numerator : |(n : ℚ) * 2 ^ (-k) / q.den - q| ≤ |q| / 2 ^ bits := by
    have difference : (n : ℚ) * 2 ^ (-k) / q.den - q = (n * 2 ^ (-k) - q.num) / q.den := by
      rw [sub_div, value]
    have size : |q| * q.den = |(q.num : ℚ)| := by
      rw [← Nat.abs_cast q.den, ← abs_mul, Rat.mul_den_eq_num]
    rw [difference, abs_div, abs_of_pos divisor, div_le_iff₀ divisor, div_mul_eq_mul_div, size]
    exact first
  generalize (n : ℚ) * 2 ^ (-k) / q.den = m at moved numerator
  have larger : |m| ≤ 2 * |q| := by
    have small : |q| / 2 ^ bits ≤ |q| := div_le_self (abs_nonneg q) power
    have apart := abs_sub_abs_le_abs_sub m q
    linarith
  calc |(roundQuotient bits n q.den).toRat * 2 ^ (-k) - q|
      ≤ |(roundQuotient bits n q.den).toRat * 2 ^ (-k) - m| + |m - q| := abs_sub_le _ _ _
    _ ≤ 2 * |q| / 2 ^ bits + |q| / 2 ^ bits := by
        refine add_le_add (moved.trans ?_) numerator
        gcongr
    _ = 3 * |q| / 2 ^ bits := by ring

end Error

section Exact

variable (wide : 0 < bits)
include wide

theorem round_nonneg {x : Dyadic} (nonneg : 0 ≤ x.toRat) : 0 ≤ (roundDyadic bits x).toRat := by
  by_cases zero : x = 0
  · rw [zero]
    exact le_refl _
  · have positive : 0 < x.toRat :=
      lt_of_le_of_ne nonneg fun same => zero (Dyadic.toRat_eq_zero_iff.mp same.symm)
    exact ((round_bounds (bits : Rounding) wide zero).2.2.mp positive).le

/-- Rounding does not pass a number that has no more digits than are asked for. -/
theorem le_round {t x : Dyadic} (short : Short bits t) (positive : 0 < t.toRat)
    (below : t.toRat ≤ x.toRat) : t.toRat ≤ (roundDyadic bits x).toRat := by
  cases x with
  | zero => exact absurd (positive.trans_le below) (lt_irrefl _)
  | ofOdd n k odd =>
    by_cases fits : bitLength n.natAbs - bits = 0
    · have kept : roundDyadic bits (.ofOdd n k odd) = .ofOdd n k odd := if_pos fits
      rwa [kept]
    have above : 0 < n := by
      have value := positive.trans_le below
      rwa [Dyadic.ofOdd_eq_ofIntWithPrec, toRat_ofIntWithPrec_pos] at value
    obtain ⟨least, -, sign⟩ := quotient_bounds (bits : Rounding) wide (n := n)
      (show bits < bitLength n.natAbs by omega)
    change 2 ^ (bits - 1) ≤ _ at least
    rw [roundDyadic_long odd fits, Dyadic.toRat_ofIntWithPrec_eq_mul_two_pow]
    change 0 < n ↔ 0 < Direction.nearest.quotient n (2 ^ (bitLength n.natAbs - bits)) at sign
    change _ ≤ (Direction.nearest.quotient n (2 ^ (bitLength n.natAbs - bits))).natAbs at least
    generalize bitLength n.natAbs - bits = cut at least sign
    have kept := sign.mp above
    have unit : (0 : ℚ) < 2 ^ (-(k - (cut : Int))) := by positivity
    cases t with
    | zero => exact absurd positive (lt_irrefl _)
    | ofOdd j l odd' =>
      have numerator := short.numerator wide
      rw [Dyadic.toRat_ofOdd_eq_mul_two_pow] at below ⊢
      rw [Dyadic.toRat_ofOdd_eq_mul_two_pow] at below
      by_cases coarse : l ≤ k - cut
      · -- The number is a multiple of the last digit that is kept.
        obtain ⟨m, whole⟩ : ∃ m : Nat, k - cut - l = m := ⟨(k - cut - l).toNat, by omega⟩
        have scaled : (j : ℚ) * 2 ^ (-l) = (j * 2 ^ m : Int) * 2 ^ (-(k - (cut : Int))) := by
          push_cast
          rw [mul_assoc, ← zpow_natCast, ← zpow_add₀ two_ne_zero]
          congr 2
          omega
        have bound : (j * 2 ^ m) * ((2 ^ cut : Nat) : Int) ≤ n := by
          have spread : (2 : ℚ) ^ (-(k - (cut : Int))) = 2 ^ cut * 2 ^ (-k) := by
            rw [← zpow_natCast, ← zpow_add₀ two_ne_zero]
            congr 1
            omega
          rw [scaled, spread, ← mul_assoc] at below
          have cleared := le_of_mul_le_mul_right below (by positivity : (0 : ℚ) < 2 ^ (-k))
          exact_mod_cast cleared
        rw [scaled]
        refine mul_le_mul_of_nonneg_right ?_ unit.le
        exact_mod_cast Direction.le_quotient .nearest (Nat.two_pow_pos cut) bound
      · -- It is smaller than every number with so many digits over the last one.
        have size : (j : ℚ) ≤ 2 ^ bits := by
          have natural : (j : Int) ≤ (2 ^ bits : Nat) := by omega
          exact_mod_cast natural
        have digits : (2 : ℚ) ^ (bits - 1) ≤ Direction.nearest.quotient n (2 ^ cut) := by
          have integer : ((2 ^ (bits - 1) : Nat) : Int) ≤ Direction.nearest.quotient n (2 ^ cut) := by
            omega
          exact_mod_cast integer
        calc (j : ℚ) * 2 ^ (-l) ≤ 2 ^ bits * 2 ^ (-l) := by gcongr
          _ ≤ 2 ^ (bits - 1) * 2 ^ (-(k - (cut : Int))) := by
            rw [← zpow_natCast, ← zpow_natCast, ← zpow_add₀ two_ne_zero, ← zpow_add₀ two_ne_zero]
            exact zpow_le_zpow_right₀ one_le_two (by omega)
          _ ≤ _ := mul_le_mul_of_nonneg_right digits unit.le

theorem roundQuotient_short {n : Int} {d : Nat} (pos : 0 < d) {y : Dyadic}
    (short : Short bits y) (same : (n : ℚ) / d = y.toRat) : roundQuotient bits n d = y := by
  have divisor : (0 : ℚ) < d := by exact_mod_cast pos
  cases y with
  | zero =>
    have zero : (n : ℚ) = 0 := (div_eq_zero_iff.mp same).resolve_right divisor.ne'
    exact if_pos (by exact_mod_cast zero)
  | ofOdd j l odd =>
    have digits := bitLength_le (short.numerator wide)
    have apart : (Dyadic.ofOdd j l odd) ≠ 0 := nofun
    have nonzero : n ≠ 0 := by
      rintro rfl
      rw [Int.cast_zero, zero_div] at same
      exact apart (Dyadic.toRat_eq_zero_iff.mp same.symm)
    have exponent : quotientMagnitude n d = bitLength j.natAbs - l := by
      obtain ⟨low, high⟩ := quotientMagnitude_bounds nonzero pos
      obtain ⟨low', high'⟩ := magnitude_bounds apart
      rw [← same, abs_div, abs_of_pos divisor] at low' high'
      rw [← le_div_iff₀ divisor] at low
      rw [← div_lt_iff₀ divisor] at high
      have below := (zpow_lt_zpow_iff_right₀ (one_lt_two (α := ℚ))).mp (low.trans_lt high')
      have above := (zpow_lt_zpow_iff_right₀ (one_lt_two (α := ℚ))).mp (low'.trans_lt high)
      have length : magnitude (.ofOdd j l odd) = bitLength j.natAbs - l := rfl
      omega
    have value : roundQuotient bits n d =
        .ofIntWithPrec (Direction.nearest.quotient (n <<< (bits - quotientMagnitude n d : Int).toNat)
          (d <<< (-(bits - quotientMagnitude n d : Int)).toNat)) (bits - quotientMagnitude n d) :=
      if_neg nonzero
    obtain ⟨spare, room⟩ : ∃ spare : Nat, bits = bitLength j.natAbs + spare :=
      ⟨bits - bitLength j.natAbs, by omega⟩
    have scale : (bits : Int) - (bitLength j.natAbs - l) = l + spare := by omega
    rw [value, exponent, scale, Int.shiftLeft_eq, Nat.shiftLeft_eq]
    rw [Dyadic.toRat_ofOdd_eq_mul_two_pow, div_eq_iff divisor.ne'] at same
    -- Over the last digit that is kept the quotient is a whole number.
    have whole : n * 2 ^ (l + spare).toNat =
        j * 2 ^ spare * ((1 * (d * 2 ^ (-(l + spare)).toNat) : Nat) : Int) := by
      have power : (2 : ℚ) ^ (l + spare).toNat = 2 ^ l * 2 ^ spare * 2 ^ (-(l + spare)).toNat := by
        rw [← zpow_natCast, ← zpow_natCast, ← zpow_natCast, ← zpow_add₀ two_ne_zero,
          ← zpow_add₀ two_ne_zero]
        congr 1
        omega
      have inverse : (2 : ℚ) ^ (-l) * 2 ^ l = 1 := by
        rw [← zpow_add₀ two_ne_zero, neg_add_cancel, zpow_zero]
      have rational : (n : ℚ) * 2 ^ (l + spare).toNat =
          j * 2 ^ spare * (1 * (d * 2 ^ (-(l + spare)).toNat)) := by
        rw [same, power]
        calc (j : ℚ) * 2 ^ (-l) * d * (2 ^ l * 2 ^ spare * 2 ^ (-(l + spare)).toNat)
            = (2 ^ (-l) * 2 ^ l) * (j * 2 ^ spare * (d * 2 ^ (-(l + spare)).toNat)) := by ring
          _ = _ := by rw [inverse]; ring
      exact_mod_cast rational
    have positive : 0 < d * 2 ^ (-(l + spare)).toNat := by positivity
    have quotient := Direction.nearest.quotient_mul_right (j * 2 ^ spare) 1 positive
    rw [Direction.quotient_one, one_mul] at quotient
    rw [whole, one_mul, quotient, ofIntWithPrec_mul_two_pow, Dyadic.ofOdd_eq_ofIntWithPrec]

theorem ofRat_short {y : Dyadic} (short : Short bits y) :
    ofRat bits y.toRat = y := by
  have numerator : Short bits (y.toRat.num : Int) := by
    obtain ⟨m, l, bound, rfl⟩ := short
    rw [Dyadic.toRat_ofIntWithPrec_eq_mul_two_pow]
    by_cases fraction : 0 ≤ l
    · obtain ⟨a, rfl⟩ := Int.eq_ofNat_of_zero_le fraction
      have quotient : (m : ℚ) * 2 ^ (-(a : Int)) = Rat.divInt m (2 ^ a) := by
        rw [zpow_neg, zpow_natCast, Rat.divInt_eq_div, div_eq_mul_inv]
        push_cast
        rfl
      refine ⟨_, 0, ?_, rfl⟩
      rw [quotient]
      by_cases zero : m = 0
      · subst zero
        simp
      have divides := Int.natAbs_dvd_natAbs.mpr (Rat.num_dvd m (b := 2 ^ a) (by positivity))
      exact (Nat.le_of_dvd (by omega) divides).trans bound
    · obtain ⟨a, rfl⟩ : ∃ a : Nat, l = -a := ⟨(-l).toNat, by omega⟩
      have whole : (m : ℚ) * 2 ^ (-(-(a : Int))) = ((m * 2 ^ a : Int) : ℚ) := by
        rw [neg_neg, zpow_natCast]
        push_cast
        rfl
      refine ⟨m, -a, bound, ?_⟩
      rw [whole, Rat.num_intCast, ← Dyadic.toRat_inj, Dyadic.toRat_intCast,
        Dyadic.toRat_ofIntWithPrec_eq_mul_two_pow, whole]
  have kept := round_short (bits : Rounding) wide numerator
  have value := toRat_parts (y.toRat.num : Int)
  rw [Dyadic.toRat_intCast] at value
  unfold ofRat
  rw [kept]
  generalize parts (y.toRat.num : Int) = a at value
  obtain ⟨n, k⟩ := a
  dsimp only at value ⊢
  have moved : (n : ℚ) / y.toRat.den = (y >>> (-k)).toRat := by
    rw [toRat_shiftRight, neg_neg]
    nth_rewrite 2 [← Rat.num_div_den y.toRat]
    rw [value, div_mul_eq_mul_div, mul_assoc, ← zpow_add₀ two_ne_zero, neg_add_cancel, zpow_zero,
      mul_one]
  rw [roundQuotient_short wide y.toRat.den_pos (short.shiftRight (-k)) moved, ← Dyadic.toRat_inj,
    toRat_shiftRight, toRat_shiftRight, neg_neg, mul_assoc, ← zpow_add₀ two_ne_zero,
    add_neg_cancel, zpow_zero, mul_one]

end Exact
end ComputerAlgebra.BigFloat

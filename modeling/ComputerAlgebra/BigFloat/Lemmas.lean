import Mathlib
import ComputerAlgebra.BigFloat.Sum
import ComputerAlgebra.Integer.RoundingLemmas

/-!
Laws of rounded dyadic numbers. `roundDyadic_ofIntWithPrec` says that it does not matter over which
power of two a number is written, `addDyadic_eq` that a rounded sum is the exact sum, rounded once.
-/

namespace ComputerAlgebra.BigFloat

theorem ofIntWithPrec_mul_two_pow (n k : Int) (d : Nat) :
    Dyadic.ofIntWithPrec (n * 2 ^ d) (k + d) = .ofIntWithPrec n k := by
  rw [← Int.shiftLeft_eq, Dyadic.ofIntWithPrec_shiftLeft_add]

theorem roundDyadic_ofIntWithPrec (r : Rounding) (n k : Int) :
    roundDyadic r (.ofIntWithPrec n k) =
      .ofIntWithPrec (r.direction.quotient n (2 ^ (bitLength n.natAbs - r.bits)))
        (k - (bitLength n.natAbs - r.bits : Nat)) := by
  obtain ⟨bits, direction⟩ := r
  simp only
  by_cases h : n = 0
  · subst h
    have := direction.quotient_one 0
    simp only [Int.natAbs_zero, bitLength_zero, Nat.zero_sub, Nat.pow_zero, this,
      Dyadic.ofIntWithPrec_zero]
    rfl
  · obtain ⟨t, m, odd, rfl⟩ : ∃ (t : Nat) (m : Int), m % 2 = 1 ∧ n = m * 2 ^ t :=
      ⟨n.trailingZeros, n >>> n.trailingZeros, Int.shiftRight_trailingZeros_mod_two h, by
        rw [Int.shiftRight_eq_div_pow]
        exact (Int.ediv_mul_cancel (by simpa using Int.two_pow_trailingZeros_dvd h)).symm⟩
    have hm : m.natAbs ≠ 0 := by omega
    rw [show (m * 2 ^ t).natAbs = m.natAbs * 2 ^ t by simp [Int.natAbs_mul, Int.natAbs_pow],
      bitLength_mul_two_pow hm]
    have e : Dyadic.ofIntWithPrec (m * 2 ^ t) k = .ofOdd m (k - t) odd := by
      have := ofIntWithPrec_mul_two_pow m (k - t) t
      rw [show k - t + t = k by omega] at this
      rw [this, Dyadic.ofOdd_eq_ofIntWithPrec]
    rw [e]
    simp only [roundDyadic, Nat.one_shiftLeft]
    by_cases short : bitLength m.natAbs ≤ bits
    · rw [if_pos (by omega)]
      obtain ⟨d, hd⟩ : ∃ d, t = d + (bitLength m.natAbs + t - bits) :=
        ⟨t - (bitLength m.natAbs + t - bits), by omega⟩
      generalize bitLength m.natAbs + t - bits = x at *
      subst hd
      have := direction.quotient_mul_right (m * 2 ^ d) (c := 2 ^ x) 1 (Nat.two_pow_pos _)
      rw [Direction.quotient_one, Nat.one_mul] at this
      rw [Int.pow_add, ← Int.mul_assoc, show ((2 : Int) ^ x) = ((2 ^ x : Nat) : Int) by simp, this,
        Dyadic.ofOdd_eq_ofIntWithPrec]
      have := ofIntWithPrec_mul_two_pow m (k - (d + x : Nat)) d
      rw [← this]
      congr 1
      omega
    · rw [if_neg (by omega)]
      have := direction.quotient_mul_right m (2 ^ (bitLength m.natAbs - bits)) (Nat.two_pow_pos t)
      rw [← Nat.pow_add] at this
      rw [show bitLength m.natAbs + t - bits = bitLength m.natAbs - bits + t by omega,
        show ((2 : Int) ^ t) = ((2 ^ t : Nat) : Int) by simp, this]
      congr 1
      omega

theorem ofIntWithPrec_add (m n k : Int) :
    Dyadic.ofIntWithPrec m k + .ofIntWithPrec n k = .ofIntWithPrec (m + n) k := by
  rw [← Dyadic.toRat_inj, Dyadic.toRat_add]
  simp only [Dyadic.toRat_ofIntWithPrec_eq_mul_two_pow, Rat.intCast_add, Rat.add_mul]

theorem ofIntWithPrec_eq_scaled (n : Int) {k p : Int} (h : k ≤ p) :
    Dyadic.ofIntWithPrec n k = .ofIntWithPrec (n * 2 ^ (p - k).toNat) p := by
  have := ofIntWithPrec_mul_two_pow n k (p - k).toNat
  rw [← this]
  congr 1
  omega

theorem natAbs_mul_two_pow (n : Int) (d : Nat) : (n * 2 ^ d).natAbs = n.natAbs * 2 ^ d := by
  simp [Int.natAbs_mul, Int.natAbs_pow]

theorem sign_mul_two_pow (n : Int) (d : Nat) : (n * 2 ^ d).sign = n.sign := by
  rw [Int.sign_mul, Int.sign_eq_one_of_pos (Int.pow_pos (by decide)), Int.mul_one]

/-- What two nonzero integers of one sign, both below `g` in size, do to a multiple of `g`. -/
theorem add_mul_ediv_eq {q g y z : Int} (hy : y.natAbs < g) (hz : z.natAbs < g)
    (same : y.sign = z.sign) (nonzero : y ≠ 0) :
    (q * g + y) / g = (q * g + z) / g ∧ ¬g ∣ q * g + y := by
  have value : ∀ r : Int, r.natAbs < g → r ≠ 0 →
      (q * g + r) / g = q + (if 0 < r then 0 else -1) := by
    intro r hr h0
    rw [Int.add_comm, Int.add_mul_ediv_right _ _ (by omega), Int.add_comm]
    congr 1
    split
    · exact Int.ediv_eq_zero_of_lt (by omega) (by omega)
    · have : r = (g + r) + -1 * g := by omega
      rw [this, Int.add_mul_ediv_right _ _ (by omega),
        Int.ediv_eq_zero_of_lt (by omega) (by omega)]
      rfl
  have nonzero' : z ≠ 0 := by
    rintro rfl
    exact nonzero (Int.sign_eq_zero_iff_zero.1 (by simpa using same))
  have sign : 0 < y ↔ 0 < z := by
    rw [← Int.sign_eq_one_iff_pos, ← Int.sign_eq_one_iff_pos, same]
  refine ⟨by rw [value y hy nonzero, value z hz nonzero']; simp only [sign], fun d => ?_⟩
  have d : g ∣ y := (Int.dvd_add_right (Int.dvd_mul_left q g)).1 d
  have := Int.le_of_dvd (by omega) (Int.dvd_natAbs.2 d)
  omega

/-- A sum with a small term rounds alike for all small terms of one sign. -/
theorem roundDyadic_small_term {r : Rounding} {i : Nat} {q y z p : Int}
    (wide : 2 ^ r.bits < q.natAbs)
    (hy : y.natAbs < 2 ^ i) (hz : z.natAbs < 2 ^ i) (same : y.sign = z.sign) (nonzero : y ≠ 0) :
    roundDyadic r (.ofIntWithPrec (q * 2 ^ i + y) p) =
      roundDyadic r (.ofIntWithPrec (q * 2 ^ i + z) p) := by
  have g : ((2 ^ i : Nat) : Int) = 2 ^ i := by simp
  have pos := Nat.two_pow_pos i
  have nonzero' : z ≠ 0 := by
    rintro rfl
    exact nonzero (Int.sign_eq_zero_iff_zero.1 (by simpa using same))
  obtain ⟨quotient, offY⟩ := add_mul_ediv_eq (q := q) (g := (2 ^ i : Nat)) (by omega) (by omega)
    same nonzero
  obtain ⟨-, offZ⟩ := add_mul_ediv_eq (q := q) (g := (2 ^ i : Nat)) (by omega) (by omega)
    same.symm nonzero'
  have size : (q * 2 ^ i).natAbs = q.natAbs * 2 ^ i := by simp [Int.natAbs_mul, Int.natAbs_pow]
  have larger : 2 ^ r.bits * 2 ^ i + 2 ^ i ≤ (q * 2 ^ i).natAbs := by
    rw [size, ← Nat.succ_mul]; exact Nat.mul_le_mul_right _ wide
  rw [g] at *
  obtain ⟨length, value⟩ := r.direction.quotient_congr (m := q * 2 ^ i + y)
    (n := q * 2 ^ i + z) r.bits i (by rwa [g]) (by rwa [g]) (by rwa [g])
    ((Nat.le_div_iff_mul_le pos).2 (by omega)) (by omega)
  rw [roundDyadic_ofIntWithPrec, roundDyadic_ofIntWithPrec, ← length, value]

/-- A small term may be replaced by any other one of its sign. -/
theorem roundDyadic_nudge {r : Rounding} {x y : Dyadic} (hx : x ≠ 0) (hy : y ≠ 0)
    (small : magnitude y ≤ hiddenMagnitude r.bits x) :
    roundDyadic r (nudge (hiddenMagnitude r.bits x) x y) = roundDyadic r (x + y) := by
  match x, y with
  | .zero, _ => exact absurd rfl hx
  | .ofOdd .., .zero => exact absurd rfl hy
  | .ofOdd n k hn, .ofOdd m l hm =>
    simp only [nudge]
    generalize top : hiddenMagnitude r.bits (.ofOdd n k hn) = t at *
    simp only [magnitude, hiddenMagnitude] at small top
    have whole : t ≤ -k ∧ t ≤ bitLength n.natAbs - k - r.bits - 2 := by omega
    obtain ⟨p, hl, hk, ht⟩ : ∃ p : Int, l ≤ p ∧ k ≤ p ∧ 1 - t ≤ p :=
      ⟨max l (1 - t), by omega, by omega, by omega⟩
    have split : n * 2 ^ (p - k).toNat = n * 2 ^ (-k - t).toNat * 2 ^ (p + t).toNat := by
      rw [Int.mul_assoc, ← Int.pow_add]; congr 2; omega
    rw [Dyadic.ofOdd_eq_ofIntWithPrec, Dyadic.ofOdd_eq_ofIntWithPrec,
      ofIntWithPrec_eq_scaled n hk, ofIntWithPrec_eq_scaled m hl,
      ofIntWithPrec_eq_scaled m.sign ht, ofIntWithPrec_add, ofIntWithPrec_add, split]
    apply roundDyadic_small_term
    · have : r.bits + 1 < bitLength (n * 2 ^ (-k - t).toNat).natAbs := by
        rw [Int.natAbs_mul, show ((2 : Int) ^ (-k - t).toNat).natAbs = 2 ^ (-k - t).toNat by
          simp [Int.natAbs_pow], bitLength_mul_two_pow (by omega)]
        omega
      have low := two_pow_bitLength_le (n := (n * 2 ^ (-k - t).toNat).natAbs) (by
        intro e; rw [e] at this; simp at this)
      exact Nat.lt_of_lt_of_le (Nat.pow_lt_pow_right (by decide) (by omega)) low
    · rw [natAbs_mul_two_pow]
      have : m.sign.natAbs = 1 := Int.natAbs_sign_of_ne_zero (by omega)
      rw [this, Nat.one_mul]
      exact Nat.pow_lt_pow_right (by decide) (by omega)
    · rw [natAbs_mul_two_pow]
      calc m.natAbs * 2 ^ (p - l).toNat
          < 2 ^ bitLength m.natAbs * 2 ^ (p - l).toNat :=
            Nat.mul_lt_mul_of_pos_right (lt_two_pow_bitLength _) (Nat.two_pow_pos _)
        _ = 2 ^ (bitLength m.natAbs + (p - l).toNat) := (Nat.pow_add ..).symm
        _ ≤ 2 ^ (p + t).toNat := Nat.pow_le_pow_right (by decide) (by omega)
    · rw [sign_mul_two_pow, sign_mul_two_pow, Int.sign_sign]
    · exact Int.mul_ne_zero (by rw [Ne, Int.sign_eq_zero_iff_zero]; omega)
        (Int.ne_of_gt (Int.pow_pos (by decide)))

/-- The answer is the exact sum, rounded once. -/
@[simp] theorem addDyadic_eq (r : Rounding) (x y : Dyadic) :
    addDyadic r x y = roundDyadic r (x + y) := by
  unfold addDyadic
  split
  · rfl
  · next h =>
    obtain ⟨hx, hy⟩ := not_or.1 h
    split
    · next small => exact roundDyadic_nudge hx hy small
    · split
      · next small => rw [roundDyadic_nudge hy hx small, Dyadic.add_comm]
      · rfl

end ComputerAlgebra.BigFloat

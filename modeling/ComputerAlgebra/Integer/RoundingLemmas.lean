import Mathlib
import ComputerAlgebra.Integer.Rounding

/-!
Laws of binary digits and of rounding a quotient. `Direction.quotient_mul_right` says that a
quotient rounds like the one with numerator and divisor scaled alike, `Direction.quotient_congr`
that digits far below the last one kept only tell on which side of a multiple a number lies.
-/

namespace ComputerAlgebra

theorem lt_two_pow_bitLength (n : Nat) : n < 2 ^ bitLength n :=
  Nat.one_shiftLeft _ ▸ lt_shiftLeft_bitLength n

theorem two_pow_bitLength_le {n : Nat} (h : n ≠ 0) : 2 ^ (bitLength n - 1) ≤ n :=
  Nat.one_shiftLeft _ ▸ shiftLeft_bitLength_le h

theorem bitLength_eq_of_bounds {n b : Nat} (low : 2 ^ b ≤ n) (high : n < 2 ^ (b + 1)) :
    bitLength n = b + 1 := by
  have h : n ≠ 0 := by have := Nat.two_pow_pos b; omega
  simp only [bitLength, h, if_false, Nat.add_right_cancel_iff]
  exact (Nat.log2_eq_iff h).2 ⟨low, high⟩

theorem bitLength_eq_div_add {n i : Nat} (h : n / 2 ^ i ≠ 0) :
    bitLength n = bitLength (n / 2 ^ i) + i := by
  have low := two_pow_bitLength_le h
  have high := lt_two_pow_bitLength (n / 2 ^ i)
  have pos := bitLength_pos h
  generalize bitLength (n / 2 ^ i) = b at *
  obtain ⟨b, rfl⟩ : ∃ c, b = c + 1 := ⟨b - 1, by omega⟩
  have := bitLength_eq_of_bounds (n := n) (b := b + i)
    (by rw [Nat.pow_add]; exact (Nat.le_div_iff_mul_le (Nat.two_pow_pos i)).1 low)
    (by rw [show b + i + 1 = (b + 1) + i by omega, Nat.pow_add]
        exact (Nat.div_lt_iff_lt_mul (Nat.two_pow_pos i)).1 high)
  omega

theorem bitLength_mul_two_pow {n i : Nat} (h : n ≠ 0) :
    bitLength (n * 2 ^ i) = bitLength n + i := by
  have e : n * 2 ^ i / 2 ^ i = n := Nat.mul_div_cancel n (Nat.two_pow_pos i)
  rw [bitLength_eq_div_add (n := n * 2 ^ i) (i := i) (by rwa [e]), e]

/-- A quotient rounds like the one with numerator and divisor scaled alike. -/
theorem nearestEven_mul_right (n : Int) {c : Nat} (d : Nat) (hc : 0 < c) :
    nearestEven (n * c) (d * c) = nearestEven n d := by
  have hc' : (0 : Int) < c := by omega
  have low : n * c / ((d * c : Nat) : Int) = n / d := by
    rw [Int.natCast_mul]; exact Int.mul_ediv_mul_of_pos_left _ _ hc'
  have rest : n * c % ((d * c : Nat) : Int) = n % d * c := by
    rw [Int.natCast_mul, Int.mul_comm n, Int.mul_comm (d : Int), Int.mul_emod_mul_of_pos _ _ hc',
      Int.mul_comm]
  simp only [nearestEven, low, rest]
  rw [show 2 * (n % d * c) = 2 * (n % d) * c by rw [Int.mul_assoc]]
  have below : 2 * (n % d) * c < (d * c : Nat) ↔ 2 * (n % d) < (d : Int) := by
    rw [Int.natCast_mul]; exact Int.mul_lt_mul_right hc'
  have above : ((d * c : Nat) : Int) < 2 * (n % d) * c ↔ (d : Int) < 2 * (n % d) := by
    rw [Int.natCast_mul]; exact Int.mul_lt_mul_right hc'
  simp only [below, above]

/-- Where a quotient is no integer, the next integer above it is one more than the one below. -/
theorem neg_neg_ediv {n : Int} {d : Nat} (pos : 0 < d) (off : ¬(d : Int) ∣ n) :
    -(-n / (d : Int)) = n / d + 1 := by
  have hd : (0 : Int) < d := by omega
  have split := Int.emod_add_mul_ediv n d
  have r0 := Int.emod_nonneg n (by omega : (d : Int) ≠ 0)
  have r1 := Int.emod_lt_of_pos n hd
  have r2 : n % d ≠ 0 := fun e => off (Int.dvd_of_emod_eq_zero e)
  have e : -n = (d - n % d) + d * (-(n / d) - 1) := by
    rw [Int.mul_sub, Int.mul_neg]; omega
  rw [e, Int.add_mul_ediv_left _ _ (by omega : (d : Int) ≠ 0),
    Int.ediv_eq_zero_of_lt (by omega) (by omega)]
  omega

theorem Direction.quotient_one (r : Direction) (n : Int) : r.quotient n 1 = n := by
  cases r <;> simp [Direction.quotient, nearestEven_one]

theorem Direction.quotient_mul_right (r : Direction) (n : Int) {c : Nat} (d : Nat) (hc : 0 < c) :
    r.quotient (n * c) (d * c) = r.quotient n d := by
  have hc' : (0 : Int) < c := by omega
  have floor : ∀ m : Int, m * c / ((d * c : Nat) : Int) = m / d := fun m => by
    rw [Int.natCast_mul]; exact Int.mul_ediv_mul_of_pos_left _ _ hc'
  have sign : n * c < 0 ↔ n < 0 := by
    have scaled : n * c < 0 * c ↔ n < 0 := Int.mul_lt_mul_right hc'
    rwa [Int.zero_mul] at scaled
  cases r
  · exact nearestEven_mul_right n d hc
  all_goals simp only [Direction.quotient, sign, ← Int.neg_mul, floor]

/-- Away from the ties the half in which `n` lies decides. -/
theorem nearestEven_two_mul {n : Int} {h : Nat} (off : ¬(h : Int) ∣ n) (pos : 0 < h) :
    nearestEven n (2 * h) = n / (2 * h : Nat) + n / h % 2 := by
  have hh : (0 : Int) < h := by omega
  have split := Int.emod_add_mul_ediv n h
  have r0 := Int.emod_nonneg n (by omega : (h : Int) ≠ 0)
  have r1 := Int.emod_lt_of_pos n hh
  have r2 : n % h ≠ 0 := fun e => off (Int.dvd_of_emod_eq_zero e)
  have low : n / (2 * h : Nat) = n / h / 2 := by
    rw [Int.ediv_ediv_of_nonneg (by omega)]; congr 1; omega
  have halves := Int.emod_add_mul_ediv (n / h) 2
  have rest : n % (2 * h : Nat) = n % h + h * (n / h % 2) := by
    have whole : n = n % h + h * (n / h % 2) + (2 * h : Nat) * (n / h / 2) := by
      have e : (h : Int) * (n / h % 2) + (2 * h : Nat) * (n / h / 2) = h * (n / h) := by
        rw [Int.natCast_mul, Int.mul_comm ((2 : Nat) : Int), Int.mul_assoc, ← Int.mul_add]
        exact congrArg _ halves
      omega
    rw [Int.emod_def, low]
    omega
  simp only [nearestEven, rest]
  rcases Int.emod_two_eq (n / h) with s | s <;> rw [s]
  · rw [if_pos (by omega)]; omega
  · rw [if_neg (by omega), if_pos (by omega)]

/-- The size of a negative number that `c` does not divide goes down to the next multiple of `c`,
while the number itself does so away from zero. -/
theorem natAbs_div_of_not_dvd {n : Int} {c : Nat} (pos : 0 < c) (off : ¬(c : Int) ∣ n) :
    n.natAbs / c = if 0 ≤ n then (n / c).toNat else (-(n / c) - 1).toNat := by
  have hc : (0 : Int) < c := by omega
  have split := Int.emod_add_mul_ediv n c
  have r0 := Int.emod_nonneg n (by omega : (c : Int) ≠ 0)
  have r1 := Int.emod_lt_of_pos n hc
  have r2 : n % c ≠ 0 := fun e => off (Int.dvd_of_emod_eq_zero e)
  split
  · next h =>
    obtain ⟨m, rfl⟩ := Int.eq_ofNat_of_zero_le h
    simp [← Int.natCast_ediv]
  · next h =>
    have below : n / c < 0 := Int.ediv_neg_of_neg_of_pos (by omega) hc
    have e : (n.natAbs : Int) = (c - n % c) + c * (-(n / c) - 1) := by
      rw [Int.mul_sub, Int.mul_neg]; omega
    have : (n.natAbs : Int) / c = -(n / c) - 1 := by
      rw [e, Int.add_mul_ediv_left _ _ (by omega : (c : Int) ≠ 0),
        Int.ediv_eq_zero_of_lt (by omega) (by omega), Int.zero_add]
    omega

/-- Two integers between the same neighbouring multiples of `2^i`, with more than `bits` digits
above the last `i` ones, have the same number of digits and round alike to `bits` digits. -/
theorem nearestEven_congr {m n : Int} (bits i : Nat) (same : m / (2 ^ i : Nat) = n / (2 ^ i : Nat))
    (offM : ¬((2 ^ i : Nat) : Int) ∣ m) (offN : ¬((2 ^ i : Nat) : Int) ∣ n)
    (wide : 2 ^ bits ≤ m.natAbs / 2 ^ i) (sign : 0 ≤ m ↔ 0 ≤ n) :
    bitLength m.natAbs = bitLength n.natAbs ∧
      nearestEven m (2 ^ (bitLength m.natAbs - bits)) =
        nearestEven n (2 ^ (bitLength m.natAbs - bits)) := by
  have pos := Nat.two_pow_pos i
  have sizes : m.natAbs / 2 ^ i = n.natAbs / 2 ^ i := by
    rw [natAbs_div_of_not_dvd pos offM, natAbs_div_of_not_dvd pos offN, same]
    simp only [sign]
  have nonzero : m.natAbs / 2 ^ i ≠ 0 := by have := Nat.two_pow_pos bits; omega
  have lengthM := bitLength_eq_div_add nonzero
  have lengthN := bitLength_eq_div_add (sizes ▸ nonzero)
  have enough : bits < bitLength (m.natAbs / 2 ^ i) :=
    (Nat.pow_lt_pow_iff_right (by decide)).1
      (Nat.lt_of_le_of_lt wide (lt_two_pow_bitLength _))
  refine ⟨by rw [lengthM, lengthN, sizes], ?_⟩
  obtain ⟨w, hw⟩ : ∃ w, bitLength m.natAbs - bits = i + w + 1 :=
    ⟨bitLength m.natAbs - bits - i - 1, by omega⟩
  have half : ∀ k : Int, ¬((2 ^ i : Nat) : Int) ∣ k →
      nearestEven k (2 ^ (i + w + 1)) = k / (2 ^ i : Nat) / (2 ^ (w + 1) : Nat) +
        k / (2 ^ i : Nat) / (2 ^ w : Nat) % 2 := by
    intro k off
    have up : ¬((2 ^ (i + w) : Nat) : Int) ∣ k := fun d =>
      off (Int.dvd_trans (Int.natCast_dvd_natCast.2 (Nat.pow_dvd_pow 2 (by omega))) d)
    rw [Nat.pow_succ, Nat.mul_comm, nearestEven_two_mul up (Nat.two_pow_pos _),
      Int.ediv_ediv_of_nonneg (by omega), Int.ediv_ediv_of_nonneg (by omega),
      ← Int.natCast_mul, ← Int.natCast_mul, ← Nat.pow_add, ← Nat.pow_add, Nat.mul_comm 2,
      ← Nat.pow_succ]
    rfl
  rw [hw, half m offM, half n offN, same]

theorem Direction.quotient_congr (r : Direction) {m n : Int} (bits i : Nat)
    (same : m / (2 ^ i : Nat) = n / (2 ^ i : Nat)) (offM : ¬((2 ^ i : Nat) : Int) ∣ m)
    (offN : ¬((2 ^ i : Nat) : Int) ∣ n) (wide : 2 ^ bits ≤ m.natAbs / 2 ^ i)
    (sign : 0 ≤ m ↔ 0 ≤ n) :
    bitLength m.natAbs = bitLength n.natAbs ∧
      r.quotient m (2 ^ (bitLength m.natAbs - bits)) =
        r.quotient n (2 ^ (bitLength m.natAbs - bits)) := by
  obtain ⟨length, nearest⟩ := nearestEven_congr bits i same offM offN wide sign
  refine ⟨length, ?_⟩
  have nonzero : m.natAbs / 2 ^ i ≠ 0 := by have := Nat.two_pow_pos bits; omega
  have enough : bits < bitLength (m.natAbs / 2 ^ i) :=
    (Nat.pow_lt_pow_iff_right (by decide)).1
      (Nat.lt_of_le_of_lt wide (lt_two_pow_bitLength _))
  obtain ⟨w, hw⟩ : ∃ w, bitLength m.natAbs - bits = i + w :=
    ⟨bitLength m.natAbs - bits - i, by rw [bitLength_eq_div_add nonzero]; omega⟩
  rw [hw] at nearest ⊢
  have off : ∀ {k : Int}, ¬((2 ^ i : Nat) : Int) ∣ k → ¬((2 ^ (i + w) : Nat) : Int) ∣ k :=
    fun off d =>
      off (Int.dvd_trans (Int.natCast_dvd_natCast.2 (Nat.pow_dvd_pow 2 (by omega))) d)
  have floor : ∀ k : Int, k / ((2 ^ (i + w) : Nat) : Int) = k / (2 ^ i : Nat) / (2 ^ w : Nat) := by
    intro k
    rw [Int.ediv_ediv_of_nonneg (by omega), ← Int.natCast_mul, ← Nat.pow_add]
  have negative : m < 0 ↔ n < 0 := by omega
  have up : -(-m / ((2 ^ (i + w) : Nat) : Int)) = -(-n / ((2 ^ (i + w) : Nat) : Int)) := by
    rw [neg_neg_ediv (Nat.two_pow_pos _) (off offM), neg_neg_ediv (Nat.two_pow_pos _) (off offN),
      floor, floor, same]
  have down : m / ((2 ^ (i + w) : Nat) : Int) = n / ((2 ^ (i + w) : Nat) : Int) := by
    rw [floor, floor, same]
  cases r
  · exact nearest
  all_goals simp only [Direction.quotient, negative, up, down]

end ComputerAlgebra

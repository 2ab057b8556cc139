import ComputerAlgebra.BigFloat.Circular
import ComputerAlgebra.BigFloat.Power
import ComputerAlgebra.BigFloat.Reader
import ComputerAlgebra.Proofs.BigFloat.Rounding

/-!
The digits of floating-point results. Every function rounds to the count of digits that it is given, so
whatever its arguments are, its finite results have at most as many; and a number of at most so many
digits is rounded to itself.
-/

namespace ComputerAlgebra.BigFloat

/-- A dyadic rational of at most so many binary digits, or a power of two. -/
def Short (bits : Nat) (x : Dyadic) : Prop :=
  ∃ n k : Int, n.natAbs ≤ 2 ^ bits ∧ x = .ofIntWithPrec n k

section Short
variable {bits : Nat} {x : Dyadic}

theorem short_zero (bits : Nat) : Short bits 0 := ⟨0, 0, Nat.zero_le _, rfl⟩

theorem short_one (bits : Nat) : Short bits 1 := ⟨1, 0, Nat.one_le_two_pow, rfl⟩

theorem Short.neg (short : Short bits x) : Short bits (-x) := by
  obtain ⟨n, k, bound, rfl⟩ := short
  refine ⟨-n, k, by rwa [Int.natAbs_neg], ?_⟩
  rw [← Dyadic.toRat_inj, Dyadic.toRat_neg, Dyadic.toRat_ofIntWithPrec_eq_mul_two_pow,
    Dyadic.toRat_ofIntWithPrec_eq_mul_two_pow, Rat.intCast_neg, neg_mul]

theorem Short.shiftRight (short : Short bits x) (d : Int) : Short bits (x >>> d) := by
  obtain ⟨n, k, bound, rfl⟩ := short
  refine ⟨n, k + d, bound, ?_⟩
  rw [← Dyadic.toRat_inj, toRat_shiftRight, Dyadic.toRat_ofIntWithPrec_eq_mul_two_pow,
    Dyadic.toRat_ofIntWithPrec_eq_mul_two_pow, mul_assoc, ← zpow_add₀ two_ne_zero, neg_add]

theorem Short.shiftLeft (short : Short bits x) (d : Int) : Short bits (x <<< d) := by
  have same : x <<< d = x >>> (-d) := by
    cases x with
    | zero => rfl
    | ofOdd n k odd =>
      change Dyadic.ofOdd n (k - d) odd = .ofOdd n (k + -d) odd
      rw [Int.sub_eq_add_neg]
  rw [same]
  exact short.shiftRight (-d)

theorem short_round (r : Rounding) (x : Dyadic) : Short r.bits (roundDyadic r x) := by
  cases x with
  | zero => exact short_zero _
  | ofOdd n k odd =>
    simp only [roundDyadic]
    split
    · next whole =>
      refine ⟨n, k, ?_, Dyadic.ofOdd_eq_ofIntWithPrec ..⟩
      exact (lt_two_pow_bitLength n.natAbs).le.trans (Nat.pow_le_pow_right (by decide) (by omega))
    · refine ⟨_, _, r.direction.natAbs_quotient_le ?_ ?_, rfl⟩
      · rw [Nat.one_shiftLeft]
        exact Nat.two_pow_pos _
      · calc n.natAbs ≤ 2 ^ bitLength n.natAbs := (lt_two_pow_bitLength n.natAbs).le
          _ = 2 ^ r.bits * 1 <<< (bitLength n.natAbs - r.bits) := by
            rw [Nat.one_shiftLeft, ← Nat.pow_add]
            congr 1
            omega

theorem short_roundQuotient (r : Rounding) (n : Int) {d : Nat} (pos : 0 < d) :
    Short r.bits (roundQuotient r n d) := by
  unfold roundQuotient
  split
  · exact short_zero _
  next nonzero =>
  have bound := (quotientMagnitude_bounds nonzero pos).2
  simp only
  generalize quotientMagnitude n d = e at bound ⊢
  generalize scaled : (r.bits : Int) - e = scale
  refine ⟨_, scale, r.direction.natAbs_quotient_le ?_ ?_, rfl⟩
  · rw [Nat.shiftLeft_eq]
    positivity
  · have size : |(n : ℚ)| = n.natAbs := by
      rw [← Int.cast_abs, Int.abs_eq_natAbs, Int.cast_natCast]
    have unit : (0 : ℚ) < 2 ^ scale.toNat := by positivity
    have moved : (n.natAbs : ℚ) * 2 ^ scale.toNat ≤ 2 ^ r.bits * (d * 2 ^ (-scale).toNat) := by
      calc (n.natAbs : ℚ) * 2 ^ scale.toNat
          ≤ 2 ^ e * d * 2 ^ scale.toNat := mul_le_mul_of_nonneg_right (size ▸ bound.le) unit.le
        _ = 2 ^ r.bits * (d * 2 ^ (-scale).toNat) := by
          have digits : (2 : ℚ) ^ r.bits * 2 ^ (-scale).toNat = 2 ^ e * 2 ^ scale.toNat := by
            rw [← zpow_natCast, ← zpow_natCast, ← zpow_natCast, ← zpow_add₀ two_ne_zero,
              ← zpow_add₀ two_ne_zero]
            congr 1
            omega
          rw [mul_left_comm, digits]
          ring
    have shifted : (n <<< scale.toNat).natAbs = n.natAbs * 2 ^ scale.toNat := by
      rw [Int.shiftLeft_eq, Int.natAbs_mul, Int.natAbs_pow]
      rfl
    rw [shifted, Nat.shiftLeft_eq]
    exact_mod_cast moved

theorem bitLength_le {n b : Nat} (below : n < 2 ^ b) : bitLength n ≤ b := by
  by_cases zero : n = 0
  · simp [zero]
  · have low := (two_pow_bitLength_le zero).trans_lt below
    have less := (Nat.pow_lt_pow_iff_right (show 1 < 2 by decide)).mp low
    omega

/-- The odd numerator of a number of at most so many digits is the numerator it is given with, without its
last zeros. -/
theorem Short.numerator {n k : Int} {odd : n % 2 = 1} (wide : 0 < bits)
    (short : Short bits (.ofOdd n k odd)) : n.natAbs < 2 ^ bits := by
  obtain ⟨m, l, bound, same⟩ := short
  unfold Dyadic.ofIntWithPrec at same
  split at same
  · cases same
  next nonzero =>
  injection same with numerator
  have whole : n * 2 ^ m.trailingZeros = m := by
    rw [numerator, Int.shiftRight_eq_div_pow]
    exact Int.ediv_mul_cancel (by simpa using Int.two_pow_trailingZeros_dvd nonzero)
  have size : n.natAbs * 2 ^ m.trailingZeros = m.natAbs := by
    have sizes := congrArg Int.natAbs whole
    rwa [Int.natAbs_mul, Int.natAbs_pow] at sizes
  obtain ⟨b, bits⟩ : ∃ b, bits = b + 1 := ⟨bits - 1, by omega⟩
  rw [bits, Nat.pow_succ] at bound ⊢
  cases zeros : m.trailingZeros with
  | zero =>
    rw [zeros, Nat.pow_zero, Nat.mul_one] at size
    omega
  | succ t =>
    rw [zeros, Nat.pow_succ, ← Nat.mul_assoc] at size
    have smaller : n.natAbs ≤ n.natAbs * 2 ^ t := Nat.le_mul_of_pos_right _ (Nat.two_pow_pos t)
    have positive := Nat.two_pow_pos b
    omega

theorem round_short (r : Rounding) (wide : 0 < r.bits) (short : Short r.bits x) :
    roundDyadic r x = x := by
  cases x with
  | zero => rfl
  | ofOdd n k odd =>
    simp only [roundDyadic]
    rw [if_pos (Nat.sub_eq_zero_of_le (bitLength_le (short.numerator wide)))]

theorem short_add (r : Rounding) (x y : Dyadic) : Short r.bits (addDyadic r x y) := by
  unfold addDyadic
  split
  · exact short_round _ _
  split
  · exact short_round _ _
  split
  · exact short_round _ _
  · exact short_round _ _

theorem short_roundInside (r : Rounding) (x : Dyadic) : Short r.bits (roundInside r x) := by
  unfold roundInside
  split
  · exact short_round _ _
  · exact short_add _ _ _

theorem short_quotient? {r : Rounding} {x y q : Dyadic} (found : quotient? r x y = some q) :
    Short r.bits q := by
  simp only [quotient?, Option.ite_none_left_eq_some, Option.some.injEq] at found
  obtain ⟨nonzero, rfl⟩ := found
  exact (short_roundQuotient r _ (Int.natAbs_pos.mpr nonzero)).shiftRight _

theorem short_sqrt (r : Rounding) (x : Dyadic) : Short r.bits (sqrtDyadic r x) := by
  unfold sqrtDyadic
  dsimp only
  split
  · exact short_zero _
  · exact short_round _ _

theorem short_pi (r : Rounding) : Short r.bits (piDyadic r) := short_round _ _

theorem short_exp (bits : Nat) (x : Dyadic) : Short bits (expDyadic bits x) := by
  unfold expDyadic
  dsimp only
  split
  · exact short_one bits
  · exact short_round bits _

theorem short_powPositive (r : Rounding) (x : Dyadic) (n : Nat) :
    Short r.bits (powPositive r x n) := by
  unfold powPositive
  dsimp only
  split
  · next unit =>
    refine ⟨_, _, ?_, rfl⟩
    have one : 1 ≤ 2 ^ r.bits := Nat.one_le_two_pow
    split <;> omega
  split
  · exact short_round _ _
  · exact short_round _ _

theorem short_powDyadic? {r : Rounding} {x y : Dyadic} {n : Int} (found : powDyadic? r x n = some y) :
    Short r.bits y := by
  unfold powDyadic? at found
  split at found
  · cases found
    exact short_one _
  split at found
  · cases found
    exact short_powPositive _ _ _
  split at found
  · exact short_quotient? found
  · exact short_quotient? found

end Short

def Fits (bits : Nat) : BigFloat → Prop
  | .finite x => Short bits x
  | _ => True

section Fits
variable {bits : Nat} {x y : BigFloat} (r : Rounding)

theorem Fits.shift (fits : Fits bits x) (k : Int) : Fits bits (x.shift k) := by
  cases x with
  | finite x => exact Short.shiftLeft fits k
  | infinity | nan => trivial

theorem Fits.opposite (fits : Fits bits x) : Fits bits x.opposite := by
  cases x with
  | finite x => exact Short.neg fits
  | infinity | nan => trivial

theorem fits_add (x y : BigFloat) : Fits r.bits (x.add r y) := by
  cases x <;> cases y <;> simp only [BigFloat.add]
  case finite.finite => exact short_add _ _ _
  case infinity.infinity => split <;> trivial
  all_goals trivial

theorem fits_sub (x y : BigFloat) : Fits r.bits (x.sub r y) := by
  unfold BigFloat.sub
  split
  · exact short_add _ _ _
  · exact fits_add _ _ _

theorem fits_mul (x y : BigFloat) : Fits r.bits (x.mul r y) := by
  cases x <;> cases y <;> simp only [BigFloat.mul]
  case finite.finite => exact short_round _ _
  case finite.infinity => split <;> trivial
  case infinity.finite => split <;> trivial
  all_goals trivial

theorem fits_div? {q : BigFloat} (found : x.div? r y = some q) : Fits r.bits q := by
  cases y with
  | finite y =>
    cases x with
    | finite x =>
      obtain ⟨q, quotient, rfl⟩ := Option.map_eq_some_iff.mp found
      exact short_quotient? quotient
    | infinity s =>
      simp only [BigFloat.div?, Option.ite_none_left_eq_some, Option.some.injEq] at found
      rw [← found.2]
      trivial
    | nan =>
      simp only [BigFloat.div?, Option.ite_none_left_eq_some, Option.some.injEq] at found
      rw [← found.2]
      trivial
  | infinity s =>
    cases x <;> cases found
    · exact short_zero _
    · trivial
    · trivial
  | nan =>
    cases x <;> cases found <;> trivial

theorem fits_sqrt (x : BigFloat) : Fits r.bits (x.sqrt r) := by
  cases x with
  | finite x => exact short_sqrt _ _
  | infinity | nan => trivial

theorem fits_exp (x : BigFloat) : Fits r.bits (x.exp r) := by
  unfold BigFloat.exp
  split
  · split
    · trivial
    · exact short_round _ _
  · exact short_zero _
  · trivial
  · trivial

theorem fits_log (x : BigFloat) : Fits r.bits (x.log r) := by
  unfold BigFloat.log
  split
  · split
    · trivial
    · exact short_round _ _
  · trivial
  · trivial

theorem fits_coshSinh (x : BigFloat) :
    Fits r.bits (x.coshSinh r).1 ∧ Fits r.bits (x.coshSinh r).2 := by
  unfold coshSinh
  split
  · split
    · exact ⟨trivial, trivial⟩
    · exact ⟨short_round _ _, short_round _ _⟩
  · exact ⟨trivial, trivial⟩
  · exact ⟨trivial, trivial⟩

theorem fits_cosSin (x : BigFloat) : Fits r.bits (x.cosSin r).1 ∧ Fits r.bits (x.cosSin r).2 := by
  unfold cosSin
  split
  · split
    · exact ⟨short_one _, short_zero _⟩
    split
    · exact ⟨trivial, trivial⟩
    split
    · exact ⟨short_roundInside _ _, short_roundInside _ _⟩
    · exact ⟨short_round _ _, short_round _ _⟩
  · exact ⟨trivial, trivial⟩

theorem fits_arctan (x : BigFloat) : Fits r.bits (x.arctan r) := by
  unfold BigFloat.arctan
  split
  · split
    · exact short_roundInside _ _
    · exact short_round _ _
  · have right := (short_pi r).shiftRight 1
    dsimp only
    split
    · exact right.neg
    · exact right
  · trivial

theorem fits_angle (y x : BigFloat) : Fits r.bits (angle r y x) := by
  have straight : Fits r.bits (.finite (piDyadic r)) := short_pi r
  have right : Fits r.bits (.finite (piDyadic r >>> (1 : Int))) := (short_pi r).shiftRight 1
  have turned {z : BigFloat} (fits : Fits r.bits z) (p : Prop) [Decidable p] :
      Fits r.bits (if p then z.opposite else z) := by
    split
    · exact fits.opposite
    · exact fits
  unfold angle
  dsimp only
  split
  · trivial
  · trivial
  · trivial
  · exact turned right _
  · split
    · exact short_zero _
    · split
      · exact straight.opposite
      · exact straight
  · split
    · split
      · exact straight
      · exact short_zero _
    · refine turned ?_ _
      split
      · exact right
      · split
        · exact fits_add _ _ _
        · exact fits_add _ _ _

theorem fits_arcsin (x : Dyadic) : Fits r.bits (arcsin r x) := (fits_arctan r _).shift 1

theorem fits_arccos (x : Dyadic) : Fits r.bits (arccos r x) := by
  unfold arccos
  dsimp only
  split
  · exact short_pi r
  · exact (fits_arctan r _).shift 1

theorem fits_powInt? {n : Int} {y : BigFloat} (found : x.powInt? r n = some y) : Fits r.bits y := by
  cases x with
  | finite x =>
    obtain ⟨y, power, rfl⟩ := Option.map_eq_some_iff.mp found
    exact short_powDyadic? power
  | nan =>
    cases found
    trivial
  | infinity s =>
    simp only [powInt?] at found
    split at found
    · cases found
      trivial
    split at found
    · cases found
      trivial
    · cases found
      exact short_zero _

theorem short_ofScientific (r : Rounding) (mantissa exponent : Int) :
    Short r.bits (ofScientific r mantissa exponent) := by
  unfold ofScientific
  split
  · exact short_roundQuotient r _ (Nat.pow_pos (by decide))
  · exact short_round _ _

/-- What is read has as many digits as were asked for. -/
theorem fits_read? {s : String} (found : read? bits s = .ok (some x)) : Fits bits x := by
  unfold read? at found
  dsimp only at found
  split at found
  · cases found
    trivial
  · cases found
    trivial
  · cases found
    trivial
  · cases found
    trivial
  split at found
  · split at found
    · split at found
      · next d _ _ =>
        split at found
        · cases found
        · next nonzero =>
          cases found
          exact short_roundQuotient bits _ (Int.natAbs_pos.mpr nonzero)
      · cases found
    · cases found
  · obtain ⟨parts, -, same⟩ := Option.map_eq_some_iff.mp (Except.ok.inj found)
    rw [← same]
    exact short_ofScientific bits _ _

end Fits
end ComputerAlgebra.BigFloat

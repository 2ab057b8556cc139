import ComputerAlgebra.Proofs.Fraction.Expansion
import ComputerAlgebra.Proofs.Fraction.Recovery

/-!
The search for a fraction finds each one that is near enough. An error of the value that is searched grows
from one remainder to the next no faster than the squares of the denominators get smaller, and what
the rounding of a remainder adds is small next to that; so the partial quotients of the fraction are
found one by one, and the last one leaves a remainder below the tolerance. A value that keeps away from
the whole numbers is found to be none of them, but to lie between the same two.
-/

namespace ComputerAlgebra.Fraction
open BigFloat

/-- The reciprocal of an approximate remainder `r`, in terms of denominators: over the square of the
next denominator the error is about what it was over the square of the one before. -/
theorem reciprocal_drift {ρ d r y B : ℚ} (positive : 0 < ρ) (proper : ρ < 1) (denominator : 1 ≤ ρ * d)
    (moderate : d ≤ 10 ^ 30) (budget : B ≤ 1 / 10 ^ 16) (near : |r - ρ| * d ^ 2 ≤ B + d ^ 2 / 10 ^ 96)
    (reciprocal : |y - 1 / r| ≤ |1 / r| / 10 ^ 96) :
    ρ * (1 - 2 / 10 ^ 16) ≤ r ∧ |y - ρ⁻¹| * (ρ * d) ^ 2 ≤ B + 1 / 10 ^ 30 := by
  have one_le : 1 ≤ d := denominator.trans (mul_le_of_le_one_left (by nlinarith) proper.le)
  have unit : 0 < d := by linarith
  have square : d ^ 2 ≤ 10 ^ 60 := by
    calc d ^ 2 ≤ (10 ^ 30) ^ 2 := by gcongr
      _ = 10 ^ 60 := by norm_num
  -- The error of the remainder is small next to the remainder.
  have relative : |r - ρ| ≤ 2 / 10 ^ 16 * ρ := by
    refine le_of_mul_le_mul_right ?_ (by positivity : (0 : ℚ) < d ^ 2)
    have small : B + d ^ 2 / 10 ^ 96 ≤ 2 / 10 ^ 16 * d := by
      have noise : d ^ 2 / 10 ^ 96 ≤ 1 / 10 ^ 16 * d := by
        rw [div_le_iff₀ (by positivity), pow_two]
        have bound : d ≤ 1 / 10 ^ 16 * 10 ^ 96 := moderate.trans (by norm_num)
        calc d * d ≤ 1 / 10 ^ 16 * 10 ^ 96 * d := by gcongr
          _ = _ := by ring
      have share : (1 : ℚ) / 10 ^ 16 ≤ 1 / 10 ^ 16 * d := le_mul_of_one_le_right (by positivity) one_le
      linarith
    calc |r - ρ| * d ^ 2 ≤ 2 / 10 ^ 16 * d := near.trans small
      _ ≤ 2 / 10 ^ 16 * d * (ρ * d) := le_mul_of_one_le_right (by positivity) denominator
      _ = 2 / 10 ^ 16 * ρ * d ^ 2 := by ring
  have low : ρ * (1 - 2 / 10 ^ 16) ≤ r := by linarith [(abs_le.mp relative).1]
  refine ⟨low, ?_⟩
  have kept : 0 < r := lt_of_lt_of_le (by positivity) low
  have ratio : ρ / r ≤ 1 + 4 / 10 ^ 16 := by
    rw [div_le_iff₀ kept]
    nlinarith
  -- The reciprocal is rounded, and it is that of an approximate value.
  have apart : |y - ρ⁻¹| ≤ 1 / r / 10 ^ 96 + |r - ρ| / (r * ρ) := by
    have exchanged : |1 / r - ρ⁻¹| = |r - ρ| / (r * ρ) := by
      have difference : 1 / r - ρ⁻¹ = -((r - ρ) / (r * ρ)) := by
        field_simp
        ring
      rw [difference, abs_neg, abs_div, abs_of_pos (mul_pos kept positive)]
    rw [abs_of_pos (one_div_pos.mpr kept)] at reciprocal
    linarith [abs_sub_le y (1 / r) ρ⁻¹]
  calc |y - ρ⁻¹| * (ρ * d) ^ 2
      ≤ (1 / r / 10 ^ 96 + |r - ρ| / (r * ρ)) * (ρ * d) ^ 2 := by gcongr
    _ = ρ / r * (ρ * (d ^ 2 / 10 ^ 96) + |r - ρ| * d ^ 2) := by
        field_simp
    _ ≤ (1 + 4 / 10 ^ 16) * (B + 2 * (10 ^ 60 / 10 ^ 96)) := by
        have first : ρ * (d ^ 2 / 10 ^ 96) ≤ 10 ^ 60 / 10 ^ 96 := by
          calc ρ * (d ^ 2 / 10 ^ 96) ≤ 1 * (10 ^ 60 / 10 ^ 96) := by gcongr
            _ = _ := one_mul _
        have second : d ^ 2 / 10 ^ 96 ≤ 10 ^ 60 / (10 : ℚ) ^ 96 := by gcongr
        have nonneg : 0 ≤ ρ * (d ^ 2 / 10 ^ 96) + |r - ρ| * d ^ 2 := by positivity
        exact mul_le_mul ratio (by linarith) nonneg (by norm_num)
    _ ≤ B + 1 / 10 ^ 30 := by
        norm_num
        linarith

/-- A search with the digits, the tolerance and the largest partial quotient of the usual settings. -/
structure Search.Usual (s : Search) (t : Dyadic) : Prop where
  bits : 320 ≤ s.bits
  tolerance : s.tolerance = .finite t
  low : 9999 / 10 ^ 20 ≤ t.toRat
  high : t.toRat ≤ 10001 / 10 ^ 20
  part : s.maxPart = .finite (10 ^ 8 : Int)

namespace Search
variable {s : Search} {t x : Dyadic} {m : Int} {k : Nat} (usual : s.Usual t)
include usual

theorem Usual.wide : 0 < s.bits := lt_of_lt_of_le (by norm_num) usual.bits

theorem Usual.unit (v : ℚ) : |v| / 2 ^ s.bits ≤ |v| / 10 ^ 96 := by
  gcongr
  calc (10 : ℚ) ^ 96 = (10 ^ 3) ^ 32 := by norm_num
    _ ≤ (2 ^ 10) ^ 32 := by gcongr; norm_num
    _ = 2 ^ 320 := by rw [← pow_mul]
    _ ≤ 2 ^ s.bits := pow_le_pow_right₀ one_le_two usual.bits

omit usual in
theorem wholePart_floor (floor : ⌊x.toRat⌋ = m) (small : |m| ≤ 10 ^ 8) : wholePart x = m := by
  rw [wholePart_round, floor]
  refine round_intCast 53 (bitLength_le ?_)
  have power : (2 : Int) ^ 53 = ((2 ^ 53 : Nat) : Int) := by norm_num
  have size : |m| < 2 ^ 53 := small.trans_lt (by norm_num)
  rw [Int.abs_eq_natAbs, power] at size
  exact_mod_cast size

theorem Usual.accepted (small : |m| ≤ 10 ^ 8) :
    s.maxPart.order (.finite (absDyadic (m : Dyadic))) ≠ .lt := by
  rw [usual.part, Ne, order_lt, not_lt, toRat_absDyadic, Dyadic.toRat_intCast, Dyadic.toRat_intCast]
  exact_mod_cast small

/-- The search ends with a remainder below the tolerance. -/
theorem Usual.stops (floor : ⌊x.toRat⌋ = m) (small : |m| ≤ 10 ^ 8)
    (rest : (roundDyadic s.bits (x - m)).toRat < t.toRat) : s.quotients? (k + 1) x = .ok (some [m]) := by
  have whole : floorDyadic (m : Dyadic) = m := by
    rw [floorDyadic_eq, Dyadic.toRat_intCast, Int.floor_intCast]
  rw [quotients?, wholePart_floor floor small, if_neg (usual.accepted small)]
  dsimp only
  rw [addDyadic_eq, if_pos, whole]
  rw [usual.tolerance, order_gt]
  exact rest

/-- The search goes on with the rounded reciprocal of a larger remainder. -/
theorem Usual.proceeds (floor : ⌊x.toRat⌋ = m) (small : |m| ≤ 10 ^ 8)
    (rest : t.toRat ≤ (roundDyadic s.bits (x - m)).toRat) :
    ∃ y : Dyadic, (∀ k, s.quotients? (k + 1) x = (s.quotients? k y).map (Option.map (m :: ·))) ∧
      |y.toRat - 1 / (roundDyadic s.bits (x - m)).toRat| ≤
        |1 / (roundDyadic s.bits (x - m)).toRat| / 10 ^ 96 ∧
      ((roundDyadic s.bits (x - m)).toRat ≤ 1 → 1 ≤ y.toRat) := by
  have whole : floorDyadic (m : Dyadic) = m := by
    rw [floorDyadic_eq, Dyadic.toRat_intCast, Int.floor_intCast]
  have positive : 0 < (roundDyadic s.bits (x - m)).toRat :=
    lt_of_lt_of_le (lt_of_lt_of_le (by norm_num) usual.low) rest
  obtain ⟨y, found, -, unit⟩ := reciprocal_bounds s.bits usual.wide positive
  have error := quotient?_error found
  rw [show (1 : Dyadic).toRat = 1 by decide] at error
  refine ⟨y, fun k => ?_, error.trans (usual.unit _), unit⟩
  rw [quotients?, wholePart_floor floor small, if_neg (usual.accepted small)]
  dsimp only
  have difference : x + -(m : Dyadic) = x - m := rfl
  rw [addDyadic_eq, difference, if_neg, found, whole]
  rw [usual.tolerance, order_gt, not_lt]
  exact rest

/-- A value just below or above a whole number: the search ends there, after the quotient one where the
value is below. -/
theorem Usual.finds_whole (small : |m| ≤ 10 ^ 8 - 1) (near : |x.toRat - m| ≤ 999 / 10 ^ 19) :
    ∃ qs, s.quotients? (k + 2) x = .ok (some qs) ∧ ofQuotients qs = .ok m := by
  have low := usual.low
  obtain ⟨below, above⟩ := abs_le.mp near
  have difference (n : Int) : (x - (n : Dyadic)).toRat = x.toRat - n := by
    rw [Dyadic.toRat_sub, Dyadic.toRat_intCast]
  rcases le_or_gt (m : ℚ) x.toRat with least | less
  · have floor : ⌊x.toRat⌋ = m := Int.floor_eq_iff.mpr ⟨least, by linarith⟩
    have rest : (roundDyadic s.bits (x - m)).toRat < t.toRat := by
      have error := (abs_le.mp ((round_error (x - m)).trans (usual.unit _))).2
      rw [difference, abs_of_nonneg (by linarith)] at error
      have noise : (x.toRat - m) / 10 ^ 96 ≤ 999 / 10 ^ 19 / 10 ^ 96 := by gcongr
      linarith
    exact ⟨[m], usual.stops floor (by omega) rest, rfl⟩
  · have floor : ⌊x.toRat⌋ = m - 1 :=
      Int.floor_eq_iff.mpr ⟨by push_cast; linarith, by push_cast; linarith⟩
    have bound : |m - 1| ≤ 10 ^ 8 := by
      have triangle := abs_sub m 1
      rw [abs_one] at triangle
      omega
    have fraction : (x - ((m - 1 : Int) : Dyadic)).toRat = x.toRat - m + 1 := by
      rw [difference]
      push_cast
      ring
    -- The remainder is one but for the distance, and so is its reciprocal.
    obtain ⟨-, proper⟩ := round_le_one (s.bits : Rounding) usual.wide
      (x := x - ((m - 1 : Int) : Dyadic)) (by rw [fraction]; linarith) (by rw [fraction]; linarith)
    have error := (abs_le.mp ((round_error (x - ((m - 1 : Int) : Dyadic))).trans (usual.unit _))).1
    rw [fraction, abs_of_nonneg (by linarith)] at error
    have noise : (x.toRat - m + 1) / 10 ^ 96 ≤ 1 / 10 ^ 96 := by
      gcongr
      linarith
    have high := usual.high
    obtain ⟨y, found, reciprocal, unit⟩ := usual.proceeds floor bound (by linarith)
    have one_le := unit proper
    generalize (roundDyadic s.bits (x - ((m - 1 : Int) : Dyadic))).toRat = r at proper error reciprocal
    have kept : 1 - 9991 / 10 ^ 20 ≤ r := by linarith
    have inverse : 1 / r ≤ 1 + 9992 / 10 ^ 20 := by
      rw [div_le_iff₀ (by linarith)]
      linarith
    have upper : y.toRat ≤ 1 + 9993 / 10 ^ 20 := by
      have size : |1 / r| ≤ 2 := by
        rw [abs_of_pos (by positivity)]
        linarith
      have rounding : |1 / r| / 10 ^ 96 ≤ 2 / 10 ^ 96 := by gcongr
      linarith [(abs_le.mp reciprocal).2]
    have second : ⌊y.toRat⌋ = 1 := Int.floor_eq_iff.mpr ⟨by push_cast; linarith, by push_cast; linarith⟩
    have remainder : (y - ((1 : Int) : Dyadic)).toRat = y.toRat - 1 := by
      rw [Dyadic.toRat_sub, Dyadic.toRat_intCast, Int.cast_one]
    have rest : (roundDyadic s.bits (y - ((1 : Int) : Dyadic))).toRat < t.toRat := by
      have error := (abs_le.mp ((round_error (y - ((1 : Int) : Dyadic))).trans (usual.unit _))).2
      rw [remainder, abs_of_nonneg (by linarith)] at error
      have noise : (y.toRat - 1) / 10 ^ 96 ≤ 1 / 10 ^ 96 := by
        gcongr
        linarith
      linarith
    refine ⟨[m - 1, 1], ?_, ?_⟩
    · rw [found, usual.stops second (by norm_num) rest]
      rfl
    · have one : ofQuotients [1] = .ok ((1 : Int) : ℚ) := rfl
      rw [ofQuotients_cons (m - 1) one (by norm_num)]
      push_cast
      norm_num

/-- The search finds a fraction that is near, if it may take one step more than the fraction has partial
quotients. -/
theorem Usual.finds (k : Nat) : ∀ {q B : ℚ} {x : Dyadic}, Expands (10 ^ 8 - 1) k q → q.den ≤ 10 ^ 30 →
    |x.toRat - q| * q.den ^ 2 ≤ B → B + k / 10 ^ 30 ≤ 999 / 10 ^ 19 →
    ∃ qs, s.quotients? (k + 1) x = .ok (some qs) ∧ ofQuotients qs = .ok q := by
  induction k with
  | zero => exact fun given => given.elim
  | succ k ih =>
    intro q B x given moderate near budget
    push_cast at budget
    have spare : (0 : ℚ) ≤ k / 10 ^ 30 := by positivity
    have denominator : (1 : ℚ) ≤ q.den := by exact_mod_cast q.den_pos
    have error : |x.toRat - q| ≤ 999 / 10 ^ 19 := by
      have one_le : (1 : ℚ) ≤ q.den ^ 2 := one_le_pow₀ denominator
      calc |x.toRat - q| ≤ |x.toRat - q| * q.den ^ 2 := le_mul_of_one_le_right (abs_nonneg _) one_le
        _ ≤ 999 / 10 ^ 19 := by linarith
    have floor_fract := Int.floor_add_fract q
    by_cases whole : Int.fract q = 0
    · rw [whole, add_zero] at floor_fract
      rw [← floor_fract] at error ⊢
      exact usual.finds_whole given.1 error
    have rest := given.2.resolve_left whole
    have positive := fract_pos whole
    have proper := Int.fract_lt_one q
    have next := den_reciprocal whole
    -- Both the remainder and what it lacks of one are at least one over the denominator.
    have share : 1 ≤ Int.fract q * q.den := by
      rw [← next]
      exact_mod_cast (Int.fract q)⁻¹.den_pos
    have share' : 1 ≤ (1 - Int.fract q) * q.den := by
      have less : (Int.fract q)⁻¹.den < q.den := by
        have scaled := mul_lt_mul_of_pos_right proper (by linarith : (0 : ℚ) < q.den)
        rw [← next, one_mul] at scaled
        exact_mod_cast scaled
      have natural : ((((Int.fract q)⁻¹.den + 1 : Nat)) : ℚ) ≤ q.den := by exact_mod_cast less
      push_cast at natural
      rw [sub_mul, ← next]
      linarith
    have close : |x.toRat - q| * q.den < 1 := by
      have scaled : |x.toRat - q| * q.den ≤ |x.toRat - q| * q.den ^ 2 := by
        rw [pow_two, ← mul_assoc]
        exact le_mul_of_one_le_right (by positivity) denominator
      linarith
    have floor : ⌊x.toRat⌋ = ⌊q⌋ := by
      have inside : |x.toRat - q| < Int.fract q ∧ |x.toRat - q| < 1 - Int.fract q :=
        ⟨lt_of_mul_lt_mul_right (by linarith) (by linarith : (0 : ℚ) ≤ q.den),
          lt_of_mul_lt_mul_right (by linarith) (by linarith : (0 : ℚ) ≤ q.den)⟩
      obtain ⟨below, above⟩ := abs_lt.mp inside.1
      obtain ⟨below', above'⟩ := abs_lt.mp inside.2
      exact Int.floor_eq_iff.mpr ⟨by linarith, by linarith⟩
    have value : (x - (⌊q⌋ : Dyadic)).toRat - Int.fract q = x.toRat - q := by
      rw [Dyadic.toRat_sub, Dyadic.toRat_intCast]
      linarith
    have rounded := (round_error (x - (⌊q⌋ : Dyadic))).trans (usual.unit _)
    have approximate : |(roundDyadic s.bits (x - (⌊q⌋ : Dyadic))).toRat - Int.fract q| * q.den ^ 2 ≤
        B + q.den ^ 2 / 10 ^ 96 := by
      have remainder : |(x - (⌊q⌋ : Dyadic)).toRat| ≤ 1 := by
        rw [Dyadic.toRat_sub, Dyadic.toRat_intCast, ← floor, ← Int.fract, Int.abs_fract]
        exact (Int.fract_lt_one _).le
      have noise : |(x - (⌊q⌋ : Dyadic)).toRat| / 10 ^ 96 ≤ 1 / 10 ^ 96 := by gcongr
      have triangle := abs_sub_le (roundDyadic s.bits (x - (⌊q⌋ : Dyadic))).toRat
        (x - (⌊q⌋ : Dyadic)).toRat (Int.fract q)
      rw [value] at triangle
      calc _ ≤ (1 / 10 ^ 96 + |x.toRat - q|) * q.den ^ 2 := by
            gcongr
            linarith
        _ = |x.toRat - q| * q.den ^ 2 + q.den ^ 2 / 10 ^ 96 := by ring
        _ ≤ _ := by linarith
    have small : B ≤ 1 / 10 ^ 16 := by linarith
    have moderate' : (q.den : ℚ) ≤ 10 ^ 30 := by exact_mod_cast moderate
    have quotient := given.fract_low whole
    push_cast at quotient
    have large : t.toRat ≤ (roundDyadic s.bits (x - (⌊q⌋ : Dyadic))).toRat := by
      -- The drift of the reciprocal is of no interest here, so it is asked about the reciprocal itself.
      have low := (reciprocal_drift (y := 1 / (roundDyadic s.bits (x - (⌊q⌋ : Dyadic))).toRat) positive
        proper share moderate' small approximate (by rw [sub_self, abs_zero]; positivity)).1
      have high := usual.high
      linarith
    obtain ⟨y, found, reciprocal, -⟩ := usual.proceeds floor (given.1.trans (by norm_num)) large
    have drift := (reciprocal_drift positive proper share moderate' small approximate reciprocal).2
    rw [← next] at drift
    have moderate'' : (Int.fract q)⁻¹.den ≤ 10 ^ 30 := by
      have less : (((Int.fract q)⁻¹.den : Nat) : ℚ) ≤ q.den := by
        rw [next]
        exact mul_le_of_le_one_left (by linarith) proper.le
      exact (by exact_mod_cast less : (Int.fract q)⁻¹.den ≤ q.den).trans moderate
    obtain ⟨qs, searched, tail⟩ := ih rest moderate'' drift (by linarith)
    refine ⟨⌊q⌋ :: qs, ?_, ?_⟩
    · rw [found, searched]
      rfl
    · rw [ofQuotients_cons ⌊q⌋ tail (inv_ne_zero whole), one_div, inv_inv, floor_fract]

/-- So it is found by as many reciprocals as it has partial quotients. -/
theorem Usual.run_near {q : ℚ} (k : Nat) (given : Expands (10 ^ 8 - 1) k q) (moderate : q.den ≤ 10 ^ 30)
    (near : |x.toRat - q| * q.den ^ 2 ≤ 99 / 10 ^ 18) (short : k ≤ 1000) : s.run k x = .ok (some q) := by
  have steps : (k : ℚ) ≤ 1000 := by exact_mod_cast short
  have budget : (k : ℚ) / 10 ^ 30 ≤ 1000 / 10 ^ 30 := by gcongr
  obtain ⟨qs, searched, value⟩ := usual.finds k given moderate near (by linarith)
  have count : ((k : Int) + 1).toNat = k + 1 := by omega
  rw [run, count, searched]
  exact congrArg (Except.map some) value

/-- What a successful search has done first: it has stopped at a remainder below the tolerance, or it
has gone on with the rounded reciprocal of the remainder. -/
theorem Usual.of_found {qs : List Int} (found : s.quotients? (k + 1) x = .ok (some qs)) :
    (qs = [⌊x.toRat⌋] ∧ (roundDyadic s.bits (x - (⌊x.toRat⌋ : Dyadic))).toRat < t.toRat) ∨
    t.toRat ≤ (roundDyadic s.bits (x - (⌊x.toRat⌋ : Dyadic))).toRat ∧
      ∃ (y : Dyadic) (tail : List Int), qs = ⌊x.toRat⌋ :: tail ∧ s.quotients? k y = .ok (some tail) ∧
        |y.toRat - 1 / (roundDyadic s.bits (x - (⌊x.toRat⌋ : Dyadic))).toRat| ≤
          |1 / (roundDyadic s.bits (x - (⌊x.toRat⌋ : Dyadic))).toRat| / 10 ^ 96 ∧ 1 ≤ y.toRat := by
  have small : |⌊x.toRat⌋| ≤ 10 ^ 8 := by
    rw [quotients?] at found
    split at found
    · cases found
    next accepted =>
    rw [usual.part, order_lt, not_lt, toRat_absDyadic, Dyadic.toRat_intCast] at accepted
    rcases wholePart_eq x with exact | large
    · rw [exact, Dyadic.toRat_intCast] at accepted
      exact_mod_cast accepted
    · rw [toRat_absDyadic] at large
      have size : (10 : ℚ) ^ 8 < 2 ^ 53 := by norm_num
      push_cast at accepted
      linarith
  have proper : (roundDyadic s.bits (x - (⌊x.toRat⌋ : Dyadic))).toRat ≤ 1 := by
    refine (round_le_one (s.bits : Rounding) usual.wide ?_ ?_).2
    · rw [Dyadic.toRat_sub, Dyadic.toRat_intCast]
      exact Int.fract_nonneg _
    · rw [Dyadic.toRat_sub, Dyadic.toRat_intCast]
      exact Int.fract_lt_one _
  rcases lt_or_ge (roundDyadic s.bits (x - (⌊x.toRat⌋ : Dyadic))).toRat t.toRat with stopped | rest
  · rw [usual.stops rfl small stopped] at found
    cases found
    exact .inl ⟨rfl, stopped⟩
  · obtain ⟨y, follows, error, unit⟩ := usual.proceeds rfl small rest
    rw [follows] at found
    refine .inr ⟨rest, y, ?_⟩
    cases searched : s.quotients? k y with
    | error f => rw [searched] at found; cases found
    | ok answer =>
      rw [searched] at found
      cases answer with
      | none => cases found
      | some tail =>
        cases found
        exact ⟨tail, rfl, rfl, error, unit proper⟩

/-- From one on the search finds no number below one, and one itself only at once. -/
theorem Usual.one_le_found (k : Nat) : ∀ {y : Dyadic} {qs : List Int}, 1 ≤ y.toRat →
    s.quotients? k y = .ok (some qs) → ∃ w, ofQuotients qs = .ok w ∧ 1 ≤ w ∧
      (w = 1 → (roundDyadic s.bits (y - ((1 : Int) : Dyadic))).toRat < t.toRat) := by
  induction k with
  | zero => nofun
  | succ k ih =>
    intro y qs above found
    have first : 1 ≤ ⌊y.toRat⌋ := Int.le_floor.mpr (by exact_mod_cast above)
    have first' : (1 : ℚ) ≤ ⌊y.toRat⌋ := by exact_mod_cast first
    rcases usual.of_found found with ⟨rfl, stopped⟩ | ⟨-, y', tail, rfl, later, -, above'⟩
    · refine ⟨_, rfl, first', fun one => ?_⟩
      rw [show ⌊y.toRat⌋ = 1 by exact_mod_cast one] at stopped
      exact stopped
    · obtain ⟨w, value, least, -⟩ := ih above' later
      have positive : 0 < 1 / w := by positivity
      exact ⟨_, ofQuotients_cons _ value (by positivity), by linarith, fun one => by linarith⟩

/-- What a value that is at least the tolerance away from every whole number is found to be lies between
the same whole numbers. -/
theorem Usual.run_broken {q : ℚ} {depth : Int} (digits : Short s.bits t)
    (far : ∀ m : Int, t.toRat ≤ |x.toRat - m|) (found : s.run depth x = .ok (some q)) :
    ⌊x.toRat⌋ < q ∧ q < ⌊x.toRat⌋ + 1 := by
  have positive : 0 < t.toRat := lt_of_lt_of_le (by norm_num) usual.low
  obtain ⟨qs, searched, value⟩ : ∃ qs, s.quotients? (depth + 1).toNat x = .ok (some qs) ∧
      ofQuotients qs = .ok q := by
    obtain ⟨answer, searched, value⟩ := of_bind_ok found
    cases answer with
    | none => cases value
    | some qs =>
      refine ⟨qs, searched, ?_⟩
      dsimp only at value
      cases fraction : ofQuotients qs with
      | error f => rw [fraction] at value; cases value
      | ok v =>
        rw [fraction] at value
        cases value
        rfl
  obtain ⟨k, steps⟩ : ∃ k, (depth + 1).toNat = k + 1 := by
    cases count : (depth + 1).toNat with
    | zero => rw [count] at searched; cases searched
    | succ k => exact ⟨k, rfl⟩
  rw [steps] at searched
  have low := Int.floor_le x.toRat
  have high := Int.lt_floor_add_one x.toRat
  have least : t.toRat ≤ x.toRat - ⌊x.toRat⌋ := by
    have apart := far ⌊x.toRat⌋
    rwa [abs_of_nonneg (by linarith)] at apart
  have greatest : x.toRat - ⌊x.toRat⌋ ≤ 1 - t.toRat := by
    have apart := far (⌊x.toRat⌋ + 1)
    push_cast at apart
    rw [abs_of_neg (by linarith)] at apart
    linarith
  have remainder : (x - (⌊x.toRat⌋ : Dyadic)).toRat = x.toRat - ⌊x.toRat⌋ := by
    rw [Dyadic.toRat_sub, Dyadic.toRat_intCast]
  rcases usual.of_found searched with ⟨-, stopped⟩ | ⟨rest, y, tail, rfl, later, reciprocal, above⟩
  · have kept := le_round usual.wide digits positive (least.trans_eq remainder.symm)
    exact absurd stopped (not_lt.mpr kept)
  obtain ⟨w, tailValue, one_le, one⟩ := usual.one_le_found k above later
  rw [ofQuotients_cons _ tailValue (by linarith)] at value
  cases value
  -- The remainder lacks the tolerance of one, so its reciprocal exceeds one by more than the tolerance.
  have more : 1 < w := by
    refine lt_of_le_of_ne one_le fun same => ?_
    refine absurd (one same.symm) (not_lt.mpr (le_round usual.wide digits positive ?_))
    rw [Dyadic.toRat_sub, Dyadic.toRat_intCast, Int.cast_one]
    have error := (abs_le.mp ((round_error (x - (⌊x.toRat⌋ : Dyadic))).trans (usual.unit _))).2
    rw [remainder, abs_of_nonneg (by linarith)] at error
    have noise : (x.toRat - ⌊x.toRat⌋) / 10 ^ 96 ≤ 1 / 10 ^ 96 := by
      gcongr
      linarith
    have tolerance := usual.low
    have tolerance' := usual.high
    generalize (roundDyadic s.bits (x - (⌊x.toRat⌋ : Dyadic))).toRat = r at rest reciprocal error
    have kept : 0 < r := positive.trans_le rest
    have bound : r ≤ 1 - t.toRat + 1 / 10 ^ 96 := by linarith
    have inverse : (1 + t.toRat) / (1 - 1 / 10 ^ 96) ≤ 1 / r := by
      rw [div_le_div_iff₀ (by norm_num) kept]
      nlinarith
    rw [abs_of_pos (one_div_pos.mpr kept)] at reciprocal
    rw [div_le_iff₀ (by norm_num)] at inverse
    linarith [(abs_le.mp reciprocal).1]
  have fraction : 0 < 1 / w ∧ 1 / w < 1 := ⟨by positivity, by rw [div_lt_one (by linarith)]; exact more⟩
  exact ⟨by linarith, by linarith⟩

end Search
end ComputerAlgebra.Fraction

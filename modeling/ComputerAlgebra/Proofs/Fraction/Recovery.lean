import ComputerAlgebra.BigFloat.Lemmas
import ComputerAlgebra.Fraction.Recovery
import ComputerAlgebra.Proofs.BigFloat.Rounding

/-!
The search for a short fraction divides by zero only where its last partial quotient is zero. Up to
53 digits a whole part is exact, and the remainder lies between zero and one; its reciprocal is at
least one, and so is the next partial quotient. A longer whole part is rounded, and what it leaves
may be larger than one; then the reciprocal has to stay above the tolerance, which it does as long
as tolerance and largest partial quotient are of moderate size together.
-/

namespace ComputerAlgebra.Fraction
open BigFloat

theorem of_bind_error {ε α β : Type} {m : Except ε α} {f : α → Except ε β} {e : ε}
    (failed : (m >>= f) = .error e) : m = .error e ∨ ∃ a, m = .ok a ∧ f a = .error e := by
  cases m with
  | error e' =>
    cases failed
    exact .inl rfl
  | ok a => exact .inr ⟨a, rfl, failed⟩

theorem of_bind_ok {ε α β : Type} {m : Except ε α} {f : α → Except ε β} {b : β}
    (found : (m >>= f) = .ok b) : ∃ a, m = .ok a ∧ f a = .ok b := by
  cases m with
  | error e => cases found
  | ok a => exact ⟨a, rfl, found⟩

theorem of_map_error {ε α β : Type} {m : Except ε α} {f : α → β} {e : ε}
    (failed : m.map f = .error e) : m = .error e := by
  cases m with
  | error e' =>
    cases failed
    rfl
  | ok a => cases failed

theorem toRat_absDyadic (x : Dyadic) : (absDyadic x).toRat = |x.toRat| := by
  unfold absDyadic
  split
  · next negative =>
    rw [← Dyadic.toRat_lt_toRat_iff, Dyadic.toRat_zero] at negative
    rw [Dyadic.toRat_neg, abs_of_neg negative]
  · next positive =>
    rw [← Dyadic.toRat_lt_toRat_iff, Dyadic.toRat_zero, not_lt] at positive
    rw [abs_of_nonneg positive]

theorem floorDyadic_eq (x : Dyadic) : floorDyadic x = ⌊x.toRat⌋ := by
  cases x with
  | zero => rfl
  | ofOdd n k odd =>
    rw [floorDyadic, Dyadic.toRat_ofOdd_eq_mul_two_pow]
    split
    · next fine =>
      have power : (2 : ℚ) ^ (-k) = ((2 ^ k.toNat : Nat) : ℚ)⁻¹ := by
        rw [zpow_neg, Nat.cast_pow, Nat.cast_ofNat, ← zpow_natCast, Int.toNat_of_nonneg fine]
      rw [power, ← div_eq_mul_inv, Rat.floor_intCast_div_natCast, Int.shiftRight_eq_div_pow]
    · next coarse =>
      have power : (2 : ℚ) ^ (-k) = ((2 ^ (-k).toNat : Int) : ℚ) := by
        rw [Int.cast_pow, Int.cast_ofNat, ← zpow_natCast, Int.toNat_of_nonneg (by omega)]
      rw [power, ← Int.cast_mul, Int.floor_intCast, Int.shiftLeft_eq]

theorem eq_floor {x : Dyadic} (coarse : (parts x).2 ≤ 0) : x = (floorDyadic x : Int) := by
  cases x with
  | zero => rfl
  | ofOdd n k odd =>
    have whole : k ≤ 0 := coarse
    rw [← Dyadic.toRat_inj, Dyadic.toRat_intCast, floorDyadic_eq, Dyadic.toRat_ofOdd_eq_mul_two_pow]
    have power : (2 : ℚ) ^ (-k) = ((2 ^ (-k).toNat : Int) : ℚ) := by
      rw [Int.cast_pow, Int.cast_ofNat, ← zpow_natCast, Int.toNat_of_nonneg (by omega)]
    rw [power, ← Int.cast_mul, Int.floor_intCast]

theorem wholePart_round (x : Dyadic) : wholePart x = roundDyadic 53 (⌊x.toRat⌋ : Int) := by
  rw [wholePart, ← floorDyadic_eq]
  split
  · next coarse => rw [← eq_floor coarse]
  · rfl

theorem round_intCast (r : Rounding) {n : Int} (short : bitLength n.natAbs ≤ r.bits) :
    roundDyadic r (n : Dyadic) = n := by
  change roundDyadic r (.ofIntWithPrec n 0) = .ofIntWithPrec n 0
  rw [roundDyadic_ofIntWithPrec, Nat.sub_eq_zero_of_le short, Nat.pow_zero, Direction.quotient_one]
  rfl

/-- A whole part is exact, or it has more than 53 digits. -/
theorem wholePart_eq (x : Dyadic) :
    wholePart x = (⌊x.toRat⌋ : Int) ∨ 2 ^ 53 ≤ (absDyadic (wholePart x)).toRat := by
  rw [toRat_absDyadic, wholePart_round]
  by_cases short : bitLength ⌊x.toRat⌋.natAbs ≤ 53
  · exact .inl (round_intCast 53 short)
  · refine .inr ?_
    have long : (2 : ℚ) ^ (53 : Int) ≤ |(⌊x.toRat⌋ : ℚ)| := by
      refine le_trans ?_ (two_pow_le_abs (n := ⌊x.toRat⌋) (by rintro zero; simp [zero] at short))
      exact zpow_le_zpow_right₀ one_le_two (by omega)
    have nonzero : ((⌊x.toRat⌋ : Int) : Dyadic) ≠ 0 := by
      intro zero
      have vanishes : (⌊x.toRat⌋ : ℚ) = 0 := by
        rw [← Dyadic.toRat_intCast, zero, Dyadic.toRat_zero]
      rw [vanishes, abs_zero] at long
      exact absurd long (by norm_num)
    have high := (magnitude_bounds nonzero).2
    rw [Dyadic.toRat_intCast] at high
    have digits : (53 : Int) < magnitude ((⌊x.toRat⌋ : Int) : Dyadic) :=
      (zpow_lt_zpow_iff_right₀ one_lt_two).mp (long.trans_lt high)
    refine le_trans ?_ (round_bounds 53 (by decide) nonzero).1
    exact_mod_cast zpow_le_zpow_right₀ (one_le_two (α := ℚ)) (show (53 : Int) ≤ _ - 1 by omega)

/-- A rounded reciprocal keeps at least half of its value, and at least one for values up to one. -/
theorem reciprocal_bounds (r : Rounding) (wide : 0 < r.bits) {x : Dyadic} (positive : 0 < x.toRat) :
    ∃ y, quotient? r 1 x = some y ∧ 1 ≤ 2 * (x.toRat * y.toRat) ∧ (x.toRat ≤ 1 → 1 ≤ y.toRat) := by
  cases x with
  | zero => exact absurd positive (lt_irrefl _)
  | ofOdd d l odd =>
    have above : 0 < d := by
      rw [Dyadic.ofOdd_eq_ofIntWithPrec] at positive
      exact (toRat_ofIntWithPrec_pos d l).mp positive
    have divisor : 0 < d.natAbs := by omega
    obtain ⟨low, sign⟩ := roundQuotient_bounds r wide one_ne_zero divisor
    have high := (quotientMagnitude_bounds one_ne_zero divisor).2
    rw [abs_of_pos (sign.mp one_pos)] at low
    have size : ((d.natAbs : Nat) : ℚ) = d := by
      rw [← Int.cast_natCast, Int.natAbs_of_nonneg above.le]
    rw [Int.cast_one, abs_one, size] at high
    have value : (1 : ℚ) < 2 ^ (quotientMagnitude 1 d.natAbs + l) * (d * 2 ^ (-l)) := by
      calc (1 : ℚ) < 2 ^ quotientMagnitude 1 d.natAbs * d := high
        _ = _ := by
            rw [mul_comm (d : ℚ), ← mul_assoc, ← zpow_add₀ two_ne_zero, add_neg_cancel_right]
    have least : (2 : ℚ) ^ (quotientMagnitude 1 d.natAbs + l - 1) ≤
        (roundQuotient r 1 d.natAbs >>> (0 - l)).toRat := by
      rw [toRat_shiftRight]
      calc (2 : ℚ) ^ (quotientMagnitude 1 d.natAbs + l - 1)
          = 2 ^ (quotientMagnitude 1 d.natAbs - 1) * 2 ^ (-(0 - l)) := by
            rw [← zpow_add₀ two_ne_zero]
            congr 1
            omega
        _ ≤ _ := mul_le_mul_of_nonneg_right low (by positivity)
    refine ⟨roundQuotient r 1 d.natAbs >>> (0 - l), ?_, ?_, ?_⟩
    · have one : parts 1 = (1, 0) := by decide
      rw [quotient?, one]
      change (if d = 0 then none
        else some (roundQuotient r (if d < 0 then -1 else 1) d.natAbs >>> (0 - l))) = _
      rw [if_neg above.ne', if_neg above.not_gt]
    · rw [Dyadic.toRat_ofOdd_eq_mul_two_pow] at positive ⊢
      have double : (2 : ℚ) ^ (quotientMagnitude 1 d.natAbs + l) =
          2 * 2 ^ (quotientMagnitude 1 d.natAbs + l - 1) := by
        rw [← zpow_one_add₀ two_ne_zero, add_sub_cancel]
      have kept := mul_le_mul_of_nonneg_left least positive.le
      rw [double] at value
      linarith
    · intro small
      rw [Dyadic.toRat_ofOdd_eq_mul_two_pow] at small
      have bigger : (2 : ℚ) ^ (0 : Int) < 2 ^ (quotientMagnitude 1 d.natAbs + l) :=
        value.trans_le (mul_le_of_le_one_right (by positivity) small)
      have digits := (zpow_lt_zpow_iff_right₀ one_lt_two).mp bigger
      exact (one_le_zpow₀ one_le_two (by omega)).trans least

theorem order_lt (x y : Dyadic) :
    (BigFloat.finite x).order (.finite y) = .lt ↔ x.toRat < y.toRat := by
  rw [Dyadic.toRat_lt_toRat_iff, BigFloat.order]
  split
  · next below => simp [below]
  · next apart => split <;> simp [apart]

theorem order_gt (x y : Dyadic) :
    (BigFloat.finite x).order (.finite y) = .gt ↔ y.toRat < x.toRat := by
  rw [Dyadic.toRat_lt_toRat_iff, BigFloat.order]
  constructor
  · intro greater
    split at greater
    · cases greater
    split at greater
    · assumption
    · cases greater
  · intro below
    have apart : ¬ x < y := by
      rw [← Dyadic.toRat_lt_toRat_iff] at below ⊢
      exact below.not_gt
    rw [if_neg apart, if_pos below]

/-- A whole part differs from the value by less than one, and by its rounding if it has more than 53
digits. -/
theorem wholePart_near (x : Dyadic) :
    |x.toRat - (wholePart x).toRat| ≤ 1 + |(wholePart x).toRat| / 2 ^ 52 := by
  rw [wholePart_round]
  have fraction : |x.toRat - ⌊x.toRat⌋| ≤ 1 := by
    rw [← Int.fract, Int.abs_fract]
    exact (Int.fract_lt_one _).le
  suffices rounding : |(⌊x.toRat⌋ : ℚ) - (roundDyadic 53 (⌊x.toRat⌋ : Int)).toRat| ≤
      |(roundDyadic 53 (⌊x.toRat⌋ : Int)).toRat| / 2 ^ 52 by
    linarith [abs_sub_le x.toRat ⌊x.toRat⌋ (roundDyadic 53 (⌊x.toRat⌋ : Int)).toRat]
  generalize ⌊x.toRat⌋ = n
  by_cases short : bitLength n.natAbs ≤ 53
  · rw [round_intCast 53 short, Dyadic.toRat_intCast, sub_self, abs_zero]
    positivity
  · have nonzero : n ≠ 0 := by
      rintro rfl
      simp at short
    obtain ⟨least, -, -⟩ := quotient_bounds (53 : Rounding) (by decide) 
      (show (53 : Nat) < bitLength n.natAbs by omega)
    change |(n : ℚ) - (roundDyadic 53 (.ofIntWithPrec n 0)).toRat| ≤
      |(roundDyadic 53 (.ofIntWithPrec n 0)).toRat| / 2 ^ 52
    rw [roundDyadic_ofIntWithPrec, abs_toRat_ofIntWithPrec,
      Dyadic.toRat_ofIntWithPrec_eq_mul_two_pow]
    change 2 ^ 52 ≤ _ at least
    have power : (2 : ℚ) ^ (-(0 - ((bitLength n.natAbs - Rounding.bits 53 : Nat) : Int))) =
        ((2 ^ (bitLength n.natAbs - Rounding.bits 53) : Nat) : ℚ) := by
      rw [zero_sub, neg_neg, zpow_natCast, Nat.cast_pow, Nat.cast_ofNat]
    rw [power]
    generalize bitLength n.natAbs - Rounding.bits 53 = cut at least
    have near := (Rounding.direction 53).quotient_near (n := n) (Nat.two_pow_pos cut)
    generalize (Rounding.direction 53).quotient n (2 ^ cut) = q at least near ⊢
    have digits : (2 : ℚ) ^ 52 ≤ |(q : ℚ)| := by
      rw [← Int.cast_abs, Int.abs_eq_natAbs, Int.cast_natCast]
      exact_mod_cast least
    have error : |(n : ℚ) - q * (2 ^ cut : Nat)| ≤ (2 ^ cut : Nat) := by exact_mod_cast near
    refine error.trans ?_
    rw [le_div_iff₀ (by positivity), mul_comm]
    exact mul_le_mul_of_nonneg_right digits (by positivity)

theorem one_le_wholePart {x : Dyadic} (above : 1 ≤ x.toRat) : 1 ≤ (wholePart x).toRat := by
  rcases wholePart_eq x with exact | large
  · rw [exact, Dyadic.toRat_intCast]
    exact_mod_cast Int.le_floor.mpr (by exact_mod_cast above)
  · rw [toRat_absDyadic] at large
    have near := (abs_le.mp (wholePart_near x)).2
    rcases abs_cases (wholePart x).toRat with ⟨size, _⟩ | ⟨size, _⟩
    · rw [size] at large
      linarith
    · rw [size] at large near
      linarith

theorem wholePart_eq_zero {x : Dyadic} (low : 0 ≤ x.toRat) (high : x.toRat < 1) :
    wholePart x = 0 := by
  rw [wholePart_round, Int.floor_eq_zero_iff.mpr ⟨low, high⟩]
  rfl

theorem addDyadic_zero (r : Rounding) (x : Dyadic) :
    addDyadic r x (-(0 : Dyadic)) = roundDyadic r x := by
  have same : x + -(0 : Dyadic) = x := by
    rw [← Dyadic.toRat_inj, Dyadic.toRat_add, Dyadic.toRat_neg, Dyadic.toRat_zero, neg_zero,
      add_zero]
  rw [addDyadic_eq, same]

/-- One more partial quotient before those of a fraction other than zero. -/
theorem ofQuotients_cons (q : Int) {qs : List Int} {v : Rat} (value : ofQuotients qs = .ok v)
    (nonzero : v ≠ 0) : ofQuotients (q :: qs) = .ok (q + 1 / v) := by
  have nonempty : qs ≠ [] := by
    rintro rfl
    cases value
    exact nonzero rfl
  rw [ofQuotients, value]
  · exact if_neg nonzero
  · exact nonempty

/-- What a search needs so as not to divide by zero: it keeps digits, its tolerance is positive, and
the partial quotients of more than 53 digits that it takes are small next to the tolerance. -/
structure Search.Sound (s : Search) (t : Dyadic) : Prop where
  wide : 0 < s.bits
  tolerance : s.tolerance = .finite t
  positive : 0 < t.toRat
  small : ∀ y : Dyadic, 2 ^ 53 ≤ y.toRat → s.maxPart.order (.finite y) ≠ .lt →
    t.toRat * y.toRat ≤ 2 ^ 48

/-- A value that the search ends at with a positive fraction: its whole part is not zero, or what
is left of it is not below the tolerance. -/
def Ample (t x : Dyadic) : Prop := 1 ≤ x.toRat ∨ 2 * t.toRat ≤ x.toRat

namespace Search
variable {s : Search} {t x : Dyadic} (sound : s.Sound t)
include sound

/-- What is left of a value, where it is not taken for zero, has a reciprocal to go on with. -/
theorem reciprocal_ample (accepted : s.maxPart.order (.finite (absDyadic (wholePart x))) ≠ .lt)
    (left_over : s.tolerance.order (.finite (addDyadic s.bits x (-wholePart x))) ≠ .gt) :
    ∃ y, quotient? s.bits 1 (addDyadic s.bits x (-wholePart x)) = some y ∧ Ample t y := by
  rw [sound.tolerance, Ne, order_gt, not_lt] at left_over
  have positive := sound.positive.trans_le left_over
  obtain ⟨y, found, half, unit⟩ := reciprocal_bounds s.bits sound.wide positive
  refine ⟨y, found, ?_⟩
  rcases wholePart_eq x with exact | large
  · refine .inl (unit ?_)
    rw [addDyadic_eq, exact]
    have value : (x + -((⌊x.toRat⌋ : Int) : Dyadic)).toRat = Int.fract x.toRat := by
      rw [Dyadic.toRat_add, Dyadic.toRat_neg, Dyadic.toRat_intCast, Int.fract, sub_eq_add_neg]
    refine (round_le_one _ sound.wide ?_ ?_).2
    · rw [value]
      exact Int.fract_nonneg _
    · rw [value]
      exact Int.fract_lt_one _
  · refine .inr (le_of_mul_le_mul_left ?_ positive)
    have bound := sound.small _ large accepted
    rw [toRat_absDyadic] at bound large
    have near := wholePart_near x
    have rounded := (round_near (s.bits : Rounding) sound.wide (x + -wholePart x)).2
    rw [Dyadic.toRat_add, Dyadic.toRat_neg, ← sub_eq_add_neg, ← addDyadic_eq,
      abs_of_pos positive] at rounded
    have rest : (addDyadic s.bits x (-wholePart x)).toRat * 2 ^ 50 ≤ |(wholePart x).toRat| := by
      linarith
    have scaled := mul_le_mul_of_nonneg_left rest sound.positive.le
    linarith

/-- The whole part of an ample value is not negative, and is not zero if the search stops there. -/
theorem floor_wholePart (ample : Ample t x) : 0 ≤ floorDyadic (wholePart x) ∧
    (s.tolerance.order (.finite (addDyadic s.bits x (-wholePart x))) = .gt →
      0 < floorDyadic (wholePart x)) := by
  rw [floorDyadic_eq]
  by_cases above : 1 ≤ x.toRat
  · have whole : 0 < ⌊(wholePart x).toRat⌋ :=
      Int.lt_of_lt_of_le one_pos (Int.le_floor.mpr (by exact_mod_cast one_le_wholePart above))
    exact ⟨whole.le, fun _ => whole⟩
  · have large := ample.resolve_left above
    have low : 0 ≤ x.toRat := by linarith [sound.positive]
    rw [wholePart_eq_zero low (not_le.mp above), addDyadic_zero, sound.tolerance, order_gt]
    refine ⟨by simp, fun stopped => ?_⟩
    have near := (round_near (s.bits : Rounding) sound.wide x).1
    rw [abs_of_nonneg low,
      abs_of_nonneg (round_le_one _ sound.wide low (not_le.mp above)).1] at near
    linarith

/-- The search comes to an end; the partial quotients that it finds make a fraction, a positive one
where it starts from an ample value. -/
theorem quotients?_answers (steps : Nat) : ∀ x : Dyadic, ∃ found, s.quotients? steps x = .ok found ∧
    ∀ qs, found = some qs → ∃ v, ofQuotients qs = .ok v ∧ (Ample t x → 0 < v) := by
  induction steps with
  | zero => exact fun x => ⟨none, rfl, by simp⟩
  | succ steps ih =>
    intro x
    rw [quotients?]
    split
    · exact ⟨none, rfl, by simp⟩
    next accepted =>
    dsimp only
    split
    · next stopped =>
      refine ⟨_, rfl, ?_⟩
      rintro _ ⟨rfl⟩
      exact ⟨_, rfl, fun ample => by exact_mod_cast (floor_wholePart sound ample).2 stopped⟩
    · next left_over =>
      obtain ⟨y, found, next_ample⟩ := reciprocal_ample sound accepted left_over
      obtain ⟨answer, later, divisible⟩ := ih y
      rw [found]
      simp only [later]
      refine ⟨_, rfl, ?_⟩
      intro qs some_list
      cases answer with
      | none => cases some_list
      | some tail =>
        cases some_list
        obtain ⟨v, value, positive⟩ := divisible tail rfl
        have divisor := positive next_ample
        refine ⟨_, ofQuotients_cons (floorDyadic (wholePart x)) value divisor.ne', fun ample => ?_⟩
        have whole : (0 : ℚ) ≤ floorDyadic (wholePart x) := by
          exact_mod_cast (floor_wholePart sound ample).1
        positivity

theorem run_answers (depth : Int) (x : Dyadic) : ∃ found, s.run depth x = .ok found := by
  obtain ⟨answer, searched, divisible⟩ := quotients?_answers sound (depth + 1).toNat x
  rw [run, searched]
  cases answer with
  | none => exact ⟨none, rfl⟩
  | some qs =>
    obtain ⟨v, value, -⟩ := divisible qs rfl
    exact ⟨some v, congrArg (Except.map some) value⟩

omit sound in
/-- A search that takes no partial quotient from one on comes to an answer whatever its tolerance. -/
theorem run_partless (wide : 0 < s.bits)
    (partless : ∀ y : Dyadic, 1 ≤ y.toRat → s.maxPart.order (.finite y) = .lt) (nonzero : x ≠ 0)
    (depth : Int) : ∃ found, s.run depth x = .ok found := by
  have refused (steps : Nat) {y : Dyadic} (above : 1 ≤ y.toRat) :
      s.quotients? steps y = .ok none := by
    cases steps with
    | zero => rfl
    | succ steps =>
      refine if_pos (partless _ ?_)
      rw [toRat_absDyadic]
      exact (one_le_wholePart above).trans (le_abs_self _)
  suffices ∃ found, s.quotients? (depth + 1).toNat x = .ok found ∧
      ∀ qs, found = some qs → ∃ v, ofQuotients qs = .ok v by
    obtain ⟨answer, searched, divisible⟩ := this
    rw [run, searched]
    cases answer with
    | none => exact ⟨none, rfl⟩
    | some qs =>
      obtain ⟨v, value⟩ := divisible qs rfl
      exact ⟨some v, congrArg (Except.map some) value⟩
  cases (depth + 1).toNat with
  | zero => exact ⟨none, rfl, by simp⟩
  | succ steps =>
    rw [quotients?]
    split
    · exact ⟨none, rfl, by simp⟩
    next accepted =>
    dsimp only
    split
    · exact ⟨_, rfl, by rintro _ ⟨rfl⟩; exact ⟨_, rfl⟩⟩
    have small : |(wholePart x).toRat| < 1 := by
      rw [← toRat_absDyadic]
      exact not_le.mp fun large => accepted (partless _ large)
    have whole : ⌊x.toRat⌋ = 0 := by
      rcases wholePart_eq x with exact | large
      · rw [exact, Dyadic.toRat_intCast] at small
        exact Int.abs_lt_one_iff.mp (by exact_mod_cast small)
      · rw [toRat_absDyadic] at large
        linarith
    obtain ⟨low, high⟩ := Int.floor_eq_zero_iff.mp whole
    have positive : 0 < x.toRat :=
      lt_of_le_of_ne low fun same => nonzero (Dyadic.toRat_eq_zero_iff.mp same.symm)
    rw [wholePart_eq_zero low high, addDyadic_zero]
    have kept := (round_bounds (s.bits : Rounding) wide nonzero).2.2.mp positive
    obtain ⟨y, found, -, above⟩ := reciprocal_bounds (s.bits : Rounding) wide kept
    rw [found]
    dsimp only
    rw [refused steps (above (round_le_one _ wide low high).2)]
    exact ⟨_, rfl, by simp⟩

omit sound in
/-- A search fails only by a division by zero. -/
theorem run_failed {f : Fault} {depth : Int} (failed : s.run depth x = .error f) :
    f = .divisionByZero := by
  have quotients (steps : Nat) : ∀ y, s.quotients? steps y = .error f → f = .divisionByZero := by
    induction steps with
    | zero => nofun
    | succ steps ih =>
      intro y failed
      rw [quotients?] at failed
      split at failed
      · cases failed
      dsimp only at failed
      split at failed
      · cases failed
      split at failed
      · cases failed
        rfl
      · exact ih _ (of_map_error failed)
  have fraction (qs : List Int) : ofQuotients qs = .error f → f = .divisionByZero := by
    induction qs with
    | nil => nofun
    | cons q rest ih =>
      cases rest with
      | nil => nofun
      | cons q' rest =>
        intro failed
        rw [ofQuotients] at failed
        · rcases of_bind_error failed with later | ⟨v, -, zero⟩
          · exact ih later
          · split at zero <;> cases zero
            rfl
        · simp
  rcases of_bind_error failed with searched | ⟨answer, -, value⟩
  · exact quotients _ x searched
  · cases answer with
    | none => cases value
    | some qs => exact fraction qs (of_map_error value)

end Search

end ComputerAlgebra.Fraction

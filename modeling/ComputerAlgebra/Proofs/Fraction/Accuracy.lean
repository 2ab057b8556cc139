import ComputerAlgebra.Proofs.BigFloat.Error
import ComputerAlgebra.Proofs.Fraction.Recovery

/-!
How near a fraction is to the value that it is found for. The search drops a remainder below the tolerance,
and it rounds each remainder and each reciprocal; on the way back through the fraction none of these errors
grows, since all partial quotients but the first are at least one. Whole parts have to be exact for that,
which they are up to 53 digits.
-/

namespace ComputerAlgebra.Fraction
open BigFloat

namespace Search
variable {s : Search} {t x y v : Dyadic}

def remainder (s : Search) (x : Dyadic) : Dyadic := addDyadic s.bits x (-wholePart x)

def Accepts (s : Search) (x : Dyadic) : Prop :=
  s.maxPart.order (.finite (absDyadic (wholePart x))) ≠ .lt

structure Tolerant (s : Search) (t : Dyadic) : Prop where
  wide : 0 < s.bits
  tolerance : s.tolerance = .finite t
  positive : 0 < t.toRat

/-- The rounded reciprocal of a remainder. -/
structure Follows (s : Search) (x y : Dyadic) : Prop where
  near : |y.toRat - 1 / (s.remainder x).toRat| ≤ |1 / (s.remainder x).toRat| / 2 ^ s.bits
  positive : 0 < y.toRat
  one_le : (s.remainder x).toRat ≤ 1 → 1 ≤ y.toRat

/-- What a step of the search does: it gives up at the whole part, or ends with it, or goes on with the
reciprocal of what is left. -/
inductive Step (s : Search) (t x : Dyadic) : Prop
  | refused (gives : ∀ k, s.quotients? (k + 1) x = .ok none)
  | stopped (accepted : s.Accepts x) (small : (s.remainder x).toRat < t.toRat)
    (gives : ∀ k, s.quotients? (k + 1) x = .ok (some [floorDyadic (wholePart x)]))
  | continued (accepted : s.Accepts x) (large : t.toRat ≤ (s.remainder x).toRat) (y : Dyadic)
    (follows : s.Follows x y)
    (gives : ∀ k, s.quotients? (k + 1) x =
      (s.quotients? k y).map (Option.map (floorDyadic (wholePart x) :: ·)))

theorem Tolerant.step (tolerant : s.Tolerant t) (x : Dyadic) : s.Step t x := by
  by_cases accepted : s.maxPart.order (.finite (absDyadic (wholePart x))) = .lt
  · refine .refused fun k => ?_
    rw [quotients?, if_pos accepted]
  rcases lt_or_ge (s.remainder x).toRat t.toRat with small | large
  · refine .stopped accepted small fun k => ?_
    rw [quotients?, if_neg accepted]
    refine if_pos ?_
    rw [tolerant.tolerance, order_gt]
    exact small
  · have positive := tolerant.positive.trans_le large
    obtain ⟨y, found, half, unit⟩ := reciprocal_bounds s.bits tolerant.wide positive
    have near := quotient?_error found
    rw [show (1 : Dyadic).toRat = 1 by decide] at near
    have kept : 0 < (s.remainder x).toRat * y.toRat := by linarith
    refine .continued accepted large y ⟨near, pos_of_mul_pos_right kept positive.le, unit⟩ fun k => ?_
    rw [quotients?, if_neg accepted]
    dsimp only
    have more : ¬ s.tolerance.order (.finite (addDyadic s.bits x (-wholePart x))) = .gt := by
      rw [tolerant.tolerance, order_gt, not_lt]
      exact large
    change quotient? s.bits 1 (addDyadic s.bits x (-wholePart x)) = some y at found
    rw [if_neg more, found]

/-- No whole part that the search takes of a value, or of what is left of it, has more than 53 digits:
no larger one is a partial quotient, or the value has a shorter one and the tolerance keeps the
reciprocals small. -/
inductive Exact (s : Search) (t x : Dyadic) : Prop
  | bounded (refused : ∀ y : Dyadic, 2 ^ 53 ≤ y.toRat → s.maxPart.order (.finite y) = .lt)
  | coarse (short : |⌊x.toRat⌋| < 2 ^ 53) (least : 1 / 2 ^ 52 ≤ t.toRat)

theorem wholePart_short (short : |⌊x.toRat⌋| < 2 ^ 53) : wholePart x = (⌊x.toRat⌋ : Int) := by
  rw [wholePart_round]
  refine round_intCast 53 (bitLength_le ?_)
  rw [Int.abs_eq_natAbs] at short
  exact_mod_cast short

theorem Exact.whole (exact : s.Exact t x) (accepted : s.Accepts x) : wholePart x = (⌊x.toRat⌋ : Int) := by
  cases exact with
  | bounded refused => exact (wholePart_eq x).resolve_right fun long => accepted (refused _ long)
  | coarse short _ => exact wholePart_short short

/-- A remainder of an exact whole part is the fraction of the value, rounded. -/
theorem remainder_near (tolerant : s.Tolerant t) (whole : wholePart x = (⌊x.toRat⌋ : Int)) :
    |(s.remainder x).toRat - Int.fract x.toRat| ≤ 1 / 2 ^ s.bits ∧ (s.remainder x).toRat ≤ 1 := by
  have fraction : (x + -((⌊x.toRat⌋ : Int) : Dyadic)).toRat = Int.fract x.toRat := by
    rw [Dyadic.toRat_add, Dyadic.toRat_neg, Dyadic.toRat_intCast, Int.fract, sub_eq_add_neg]
  have low := Int.fract_nonneg x.toRat
  have high := Int.fract_lt_one x.toRat
  have error := @round_error s.bits (x + -((⌊x.toRat⌋ : Int) : Dyadic))
  have proper := round_le_one (s.bits : Rounding) tolerant.wide (x := x + -((⌊x.toRat⌋ : Int) : Dyadic))
    (by rwa [fraction]) (by rwa [fraction])
  rw [fraction, abs_of_nonneg low] at error
  rw [remainder, whole, addDyadic_eq]
  refine ⟨error.trans ?_, proper.2⟩
  gcongr

theorem Exact.next (exact : s.Exact t x) (tolerant : s.Tolerant t) (large : t.toRat ≤ (s.remainder x).toRat)
    (follows : s.Follows x y) : s.Exact t y := by
  cases exact with
  | bounded refused => exact .bounded refused
  | coarse _ least =>
    refine .coarse ?_ least
    have positive := tolerant.positive.trans_le large
    have inverse : 1 / (s.remainder x).toRat ≤ 2 ^ 52 := by
      rw [div_le_iff₀ positive]
      linarith
    have rounding : 1 / (s.remainder x).toRat / 2 ^ s.bits ≤ 1 / (s.remainder x).toRat / 2 := by
      gcongr
      exact le_self_pow₀ one_le_two tolerant.wide.ne'
    have near := follows.near
    rw [abs_of_pos (one_div_pos.mpr positive)] at near
    have below : y.toRat < 2 ^ 53 := by
      have upper := (abs_le.mp near).2
      linarith
    rw [abs_of_nonneg (Int.floor_nonneg.mpr follows.positive.le)]
    exact_mod_cast (Int.floor_le y.toRat).trans_lt below

/-- One step back through a fraction: the remainder is rounded, and its reciprocal is. -/
theorem reciprocal_near {r y w f u e : ℚ} (positive : 0 < r) (above : 1 ≤ y) (least : 1 ≤ w)
    (reciprocal : |y - 1 / r| ≤ |1 / r| * u) (remainder : |r - f| ≤ u) (near : |w - y| ≤ e) (unit : 0 ≤ u) :
    |1 / w - f| ≤ e + 2 * u := by
  have later : |1 / w - 1 / y| ≤ e := by
    have difference : 1 / w - 1 / y = -((w - y) / (w * y)) := by
      field_simp
      ring
    rw [difference, abs_neg, abs_div, abs_of_pos (by positivity : 0 < w * y)]
    exact (div_le_self (abs_nonneg _) (one_le_mul_of_one_le_of_one_le least above)).trans near
  have inverse : |1 / y - r| ≤ u := by
    have difference : 1 / y - r = -((y - 1 / r) * r / y) := by
      field_simp
      ring
    rw [abs_of_pos (one_div_pos.mpr positive)] at reciprocal
    rw [difference, abs_neg, abs_div, abs_mul, abs_of_pos positive, abs_of_pos (by linarith : 0 < y)]
    calc |y - 1 / r| * r / y ≤ 1 / r * u * r / y := by gcongr
      _ = u / y := by field_simp
      _ ≤ u := div_le_self unit above
  have first := abs_sub_le (1 / w) (1 / y) f
  have second := abs_sub_le (1 / y) r f
  linarith

/-- The search of an exact value answers, and each step has added at most two roundings to the tolerance. -/
theorem quotients?_near (tolerant : s.Tolerant t) (steps : Nat) : ∀ x : Dyadic, s.Exact t x →
    ∃ found, s.quotients? steps x = .ok found ∧ ∀ qs, found = some qs → ∃ w, ofQuotients qs = .ok w ∧
      |w - x.toRat| ≤ t.toRat + steps * (2 / 2 ^ s.bits) ∧ (1 ≤ x.toRat → 1 ≤ w) := by
  induction steps with
  | zero => exact fun x _ => ⟨none, rfl, by simp⟩
  | succ k ih =>
    intro x exact
    have split_off := Int.floor_add_fract x.toRat
    have first : 1 ≤ x.toRat → (1 : ℚ) ≤ ⌊x.toRat⌋ := fun above => by
      exact_mod_cast Int.le_floor.mpr (by exact_mod_cast above)
    have unit : (0 : ℚ) ≤ 1 / 2 ^ s.bits := by positivity
    have spare : (0 : ℚ) ≤ k * (2 / 2 ^ s.bits) := by positivity
    cases tolerant.step x with
    | refused gives => exact ⟨none, gives k, by simp⟩
    | stopped accepted small gives =>
      have whole := exact.whole accepted
      obtain ⟨rounded, -⟩ := remainder_near tolerant whole
      refine ⟨_, gives k, ?_⟩
      rintro _ ⟨rfl⟩
      rw [whole, floorDyadic_eq, Dyadic.toRat_intCast, Int.floor_intCast]
      refine ⟨_, rfl, ?_, first⟩
      have dropped := (abs_le.mp rounded).1
      rw [abs_sub_comm, abs_of_nonneg (by linarith [Int.fract_nonneg x.toRat])]
      push_cast
      have double : (2 : ℚ) / 2 ^ s.bits = 2 * (1 / 2 ^ s.bits) := by ring
      linarith
    | continued accepted large y follows gives =>
      have whole := exact.whole accepted
      obtain ⟨rounded, proper⟩ := remainder_near tolerant whole
      have above := follows.one_le proper
      obtain ⟨answer, later, near⟩ := ih y (exact.next tolerant large follows)
      refine ⟨_, (gives k).trans (congrArg _ later), ?_⟩
      intro qs some_list
      cases answer with
      | none => cases some_list
      | some tail =>
        cases some_list
        obtain ⟨w, value, close, least⟩ := near tail rfl
        have one_le := least above
        have reciprocal := follows.near.trans_eq (div_eq_mul_one_div _ _)
        have back :=
          reciprocal_near (tolerant.positive.trans_le large) above one_le reciprocal rounded close unit
        rw [whole, floorDyadic_eq, Dyadic.toRat_intCast, Int.floor_intCast]
        refine ⟨_, ofQuotients_cons _ value (by linarith), ?_, fun large => ?_⟩
        · have moved : (⌊x.toRat⌋ : ℚ) + 1 / w - x.toRat = 1 / w - Int.fract x.toRat := by linarith
          rw [moved]
          push_cast
          have double : (2 : ℚ) / 2 ^ s.bits = 2 * (1 / 2 ^ s.bits) := by ring
          linarith
        · have inverse : 0 < 1 / w := by positivity
          linarith [first large]

/-- A search whose whole parts are exact never divides by zero, and a fraction that it finds is nearer to
the value than the tolerance and a few units of the last digit for each step. -/
theorem recovered_near (wide : 0 < s.bits) (tolerance : s.tolerance = .finite t) (positive : 0 < t.toRat)
    (exact : s.Exact t v) (depth : Int) :
    ∃ found, s.run depth v = .ok found ∧
      ∀ r, found = some r → |r - v.toRat| ≤ t.toRat + (depth + 1) * 2 ^ (2 - (s.bits : Int)) := by
  obtain ⟨answer, searched, near⟩ := quotients?_near ⟨wide, tolerance, positive⟩ (depth + 1).toNat v exact
  rw [run, searched]
  cases answer with
  | none => exact ⟨none, rfl, by simp⟩
  | some qs =>
    obtain ⟨w, value, close, -⟩ := near qs rfl
    refine ⟨some w, congrArg (Except.map some) value, ?_⟩
    rintro _ ⟨rfl⟩
    have steps : 0 < (depth + 1).toNat := by
      refine Nat.pos_of_ne_zero fun zero => ?_
      rw [zero] at searched
      cases searched
    have count : (((depth + 1).toNat : Nat) : ℚ) = depth + 1 := by
      have whole : (((depth + 1).toNat : Nat) : Int) = depth + 1 := by omega
      exact_mod_cast whole
    have unit : (2 : ℚ) / 2 ^ s.bits ≤ 2 ^ (2 - (s.bits : Int)) := by
      rw [zpow_sub₀ two_ne_zero, zpow_natCast]
      gcongr
      norm_num
    rw [count] at close
    refine close.trans (add_le_add_right (mul_le_mul_of_nonneg_left unit ?_) _)
    rw [← count]
    positivity

/-- A search with 100 decimal digits and the given tolerance and largest partial quotient. -/
def hundredDigits (tolerance : Rat) (part : Int) : Search :=
  ⟨336, .finite (ofRat 336 tolerance), .finite part⟩

theorem recovered_near_third :
    let third := ofRat 336 (1 / 3)
    let t := ofRat 336 (1 / tenTo 16)
    (hundredDigits (1 / tenTo 16) (tenTo 8)).Exact t third ∧
      (hundredDigits (1 / tenTo 16) (tenTo 8)).run 15 third = .ok (some (1 / 3)) ∧
      |1 / 3 - third.toRat| ≤ t.toRat + ((15 : Int) + 1) * 2 ^ (2 - ((336 : Nat) : Int)) := by
  intro third t
  have exact : (hundredDigits (1 / tenTo 16) (tenTo 8)).Exact t third := by
    refine .bounded fun y large => (order_lt _ _).mpr (lt_of_lt_of_le ?_ large)
    rw [Dyadic.toRat_intCast]
    norm_num [tenTo]
  have found : (hundredDigits (1 / tenTo 16) (tenTo 8)).run 15 third = .ok (some (1 / 3)) := by decide +kernel
  obtain ⟨answer, ran, near⟩ :=
    recovered_near (s := hundredDigits (1 / tenTo 16) (tenTo 8)) (by decide) rfl (by decide +kernel) exact 15
  rw [found] at ran
  cases ran
  exact ⟨exact, found, near _ rfl⟩

/-- A whole part of more than 53 digits is rounded. What it leaves may be negative, and then the search ends
one half away from the value; or it is above one, and then the last partial quotient is zero. -/
theorem long_whole_part :
    let below := Dyadic.ofIntWithPrec (2 ^ 61 - 1) 1
    let above := Dyadic.ofIntWithPrec (2 ^ 61 + 201) 1
    (hundredDigits (1 / 100) (2 ^ 70)).run 15 below = .ok (some (2 ^ 60)) ∧
      ¬ |2 ^ 60 - below.toRat| ≤
        (ofRat 336 (1 / 100)).toRat + ((15 : Int) + 1) * 2 ^ (2 - ((336 : Nat) : Int)) ∧
      (hundredDigits (1 / 100) (2 ^ 70)).run 15 above = .error .divisionByZero := by
  refine ⟨by decide +kernel, ?_, by decide +kernel⟩
  rw [not_le]
  decide +kernel

end Search
end ComputerAlgebra.Fraction

import ComputerAlgebra.Proofs.Fraction.Accuracy
import ComputerAlgebra.Proofs.Fraction.Closest

/-!
How large the parts of a fraction can be that the search finds. Each partial quotient is held against a limit,
but numerator and denominator are continuants of all of them: they are bounded by what the limit itself would
give in every place, and nothing less. A limit is the largest partial quotient of the search, or what the
tolerance leaves of a reciprocal.
-/

namespace ComputerAlgebra.Fraction
open BigFloat

/-- The numerator of the continued fraction with so many times the one partial quotient; its denominator is
the numerator with one fewer. -/
def continuant (m : Nat) : Nat → Nat
  | 0 => 1
  | 1 => m
  | k + 2 => m * continuant m (k + 1) + continuant m k

theorem continuant_mono {m : Nat} (least : 1 ≤ m) : Monotone (continuant m) := by
  refine monotone_nat_of_le_succ fun k => ?_
  cases k with
  | zero => exact least
  | succ k => exact (Nat.le_mul_of_pos_left _ least).trans (Nat.le_add_right _ _)

/-- Partial quotients from zero to `m` make a quotient of two numbers that the continuants bound. -/
theorem ofQuotients_written {m : Nat} (qs : List Int) : ∀ {w : Rat}, (∀ q ∈ qs, 0 ≤ q ∧ q ≤ m) →
    ofQuotients qs = .ok w →
    ∃ a b : Nat, w = a / b ∧ 0 < b ∧ a ≤ continuant m qs.length ∧ b ≤ continuant m (qs.length - 1) := by
  induction qs with
  | nil =>
    rintro w - ⟨rfl⟩
    exact ⟨0, 1, by simp, one_pos, Nat.zero_le _, le_rfl⟩
  | cons q tail ih =>
    intro w within value
    obtain ⟨n, rfl⟩ := Int.eq_ofNat_of_zero_le (within q (by simp)).1
    have size : n ≤ m := by exact_mod_cast (within n (by simp)).2
    cases tail with
    | nil =>
      cases value
      exact ⟨n, 1, by simp, one_pos, size, le_rfl⟩
    | cons q' rest =>
      rw [ofQuotients] at value
      swap
      · simp
      obtain ⟨w', later, value⟩ := of_bind_ok value
      obtain ⟨a, b, written, positive, above, below⟩ := ih (fun x member => within x (by simp [member])) later
      split at value
      · cases value
      next nonzero =>
      cases value
      have numerator : a ≠ 0 := by
        rintro rfl
        exact nonzero (by rw [written]; simp)
      refine ⟨n * a + b, a, ?_, Nat.pos_of_ne_zero numerator, ?_, above⟩
      · rw [written]
        push_cast
        field_simp
      · exact add_le_add (mul_le_mul' size above) below

namespace Search
variable {s : Search} {t x y v : Dyadic} {m : Nat}

/-- No partial quotient after the first is above `m`: such a one is refused, or it would be the reciprocal of
a remainder below the tolerance. -/
inductive Limits (s : Search) (t : Dyadic) (m : Nat) : Prop
  | part (refused : ∀ y : Dyadic, (m : ℚ) < y.toRat → s.maxPart.order (.finite y) = .lt)
  | tolerance (short : m < 2 ^ 53) (least : 1 + 1 / 2 ^ s.bits < (m + 1) * t.toRat)

theorem Limits.later (limits : s.Limits t m) (tolerant : s.Tolerant t)
    (large : t.toRat ≤ (s.remainder x).toRat) (follows : s.Follows x y) (accepted : s.Accepts y) :
    0 ≤ floorDyadic (wholePart y) ∧ floorDyadic (wholePart y) ≤ m := by
  have floor := Int.floor_nonneg.mpr follows.positive.le
  rw [floorDyadic_eq]
  cases limits with
  | part refused =>
    have nonneg : 0 ≤ (wholePart y).toRat := by
      rw [wholePart_round]
      refine round_nonneg (by decide) ?_
      rw [Dyadic.toRat_intCast]
      exact_mod_cast floor
    have most : |(wholePart y).toRat| ≤ m := by
      rw [← toRat_absDyadic]
      exact not_lt.mp fun more => accepted (refused _ more)
    rw [abs_of_nonneg nonneg] at most
    exact ⟨Int.floor_nonneg.mpr nonneg, by exact_mod_cast (Int.floor_le _).trans most⟩
  | tolerance short least =>
    have positive := tolerant.positive.trans_le large
    have near := follows.near
    rw [abs_of_pos (one_div_pos.mpr positive)] at near
    have below : y.toRat < m + 1 := by
      have inverse : 1 / (s.remainder x).toRat ≤ 1 / t.toRat :=
        one_div_le_one_div_of_le tolerant.positive large
      have scaled : 1 / t.toRat * (1 + 1 / 2 ^ s.bits) < m + 1 := by
        rw [one_div_mul_eq_div, div_lt_iff₀ tolerant.positive]
        exact least
      have unit : (0 : ℚ) ≤ 1 / 2 ^ s.bits := by positivity
      have upper := (abs_le.mp near).2
      have grown := mul_le_mul_of_nonneg_right inverse (by linarith : (0 : ℚ) ≤ 1 + 1 / 2 ^ s.bits)
      rw [mul_add, mul_one, ← div_eq_mul_one_div] at grown
      linarith
    have most : ⌊y.toRat⌋ ≤ m := by
      have less : ⌊y.toRat⌋ < (m : Int) + 1 := Int.floor_lt.mpr (by push_cast; exact below)
      omega
    have whole : wholePart y = (⌊y.toRat⌋ : Int) := by
      refine wholePart_short ?_
      rw [abs_of_nonneg floor]
      have natural : (m : Int) < 2 ^ 53 := by exact_mod_cast short
      omega
    rw [whole, Dyadic.toRat_intCast, Int.floor_intCast]
    exact ⟨floor, most⟩

/-- Of the partial quotients that are found, the first is the whole part and the others keep the limit. -/
theorem quotients?_limited (tolerant : s.Tolerant t) (limits : s.Limits t m) (steps : Nat) :
    ∀ {x : Dyadic} {qs : List Int}, s.quotients? steps x = .ok (some qs) → s.Accepts x ∧
      ∃ tail, qs = floorDyadic (wholePart x) :: tail ∧ tail.length < steps ∧ ∀ q ∈ tail, 0 ≤ q ∧ q ≤ m := by
  induction steps with
  | zero => nofun
  | succ k ih =>
    intro x qs found
    cases tolerant.step x with
    | refused gives =>
      rw [gives k] at found
      cases found
    | stopped accepted _ gives =>
      rw [gives k] at found
      cases found
      exact ⟨accepted, [], rfl, Nat.succ_pos k, by simp⟩
    | continued accepted large y follows gives =>
      rw [gives k] at found
      cases searched : s.quotients? k y with
      | error f => rw [searched] at found; cases found
      | ok answer =>
        rw [searched] at found
        cases answer with
        | none => cases found
        | some tail =>
          cases found
          obtain ⟨accepted', rest, rfl, short, within⟩ := ih searched
          refine ⟨accepted, _, rfl, Nat.succ_lt_succ short, fun q member => ?_⟩
          rcases List.mem_cons.mp member with rfl | member
          · exact limits.later tolerant large follows accepted'
          · exact within q member

/-- A search with so many reciprocals finds no larger denominator than the continuant, and no larger
numerator than the whole part makes of it. -/
theorem run_limited (tolerant : s.Tolerant t) (limits : s.Limits t m) (least : 1 ≤ m) {depth : Int} {q : Rat}
    (found : s.run depth v = .ok (some q)) :
    q.den ≤ continuant m depth.toNat ∧
      |q.num| ≤ (|floorDyadic (wholePart v)| + 1) * continuant m depth.toNat := by
  obtain ⟨answer, searched, value⟩ := of_bind_ok found
  cases answer with
  | none => cases value
  | some qs =>
  obtain ⟨-, tail, rfl, short, within⟩ := quotients?_limited tolerant limits _ searched
  have made : ofQuotients (floorDyadic (wholePart v) :: tail) = .ok q := by
    cases fraction : ofQuotients (floorDyadic (wholePart v) :: tail) with
    | error f =>
      dsimp only at value
      rw [fraction] at value
      cases value
    | ok w =>
      dsimp only at value
      rw [fraction] at value
      cases value
      rfl
  generalize floorDyadic (wholePart v) = n at made
  have most : continuant m tail.length ≤ continuant m depth.toNat := continuant_mono least (by omega)
  have one_le : 1 ≤ continuant m depth.toNat := continuant_mono least (Nat.zero_le _)
  suffices ∃ (a : Int) (b : Nat), q = a / b ∧ 0 < b ∧ b ≤ continuant m depth.toNat ∧
      |a| ≤ (|n| + 1) * continuant m depth.toNat by
    obtain ⟨a, b, written, positive, below, above⟩ := this
    obtain ⟨den, num⟩ := parts_le positive written
    exact ⟨den.trans below, num.trans above⟩
  cases tail with
  | nil =>
    cases made
    refine ⟨n, 1, by simp, one_pos, one_le, ?_⟩
    have size : (1 : Int) ≤ continuant m depth.toNat := by exact_mod_cast one_le
    nlinarith [abs_nonneg n]
  | cons q' rest =>
    rw [ofQuotients] at made
    swap
    · simp
    obtain ⟨w, later, made⟩ := of_bind_ok made
    obtain ⟨a, b, written, positive, above, below⟩ := ofQuotients_written _ within later
    split at made
    · cases made
    next nonzero =>
    cases made
    have numerator : a ≠ 0 := by
      rintro rfl
      exact nonzero (by rw [written]; simp)
    refine ⟨n * a + b, a, ?_, Nat.pos_of_ne_zero numerator, above.trans most, ?_⟩
    · rw [written]
      push_cast
      field_simp
    · have tall : (a : Int) ≤ continuant m depth.toNat := by exact_mod_cast above.trans most
      have broad : (b : Int) ≤ continuant m depth.toNat := by
        exact_mod_cast (below.trans (continuant_mono least (Nat.sub_le _ _))).trans most
      calc |n * a + b| ≤ |n| * a + b := by
            have triangle := abs_add_le (n * a) b
            rwa [abs_mul, Nat.abs_cast, Nat.abs_cast] at triangle
        _ ≤ |n| * continuant m depth.toNat + continuant m depth.toNat :=
            add_le_add (mul_le_mul_of_nonneg_left tall (abs_nonneg n)) broad
        _ = _ := by ring

end Search
end ComputerAlgebra.Fraction

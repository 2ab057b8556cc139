import ComputerAlgebra.Integer.Log
import Mathlib.Algebra.Order.Archimedean.Basic
import Mathlib.Data.Rat.Lemmas
import Mathlib.Tactic.Linarith

/-!
Logarithms of fractions are found exactly. The powers of a base above one pass every target, by Bernoulli's
inequality within the rounds that are allowed, so the search ends by itself and finds the exponent if there
is one. Where base or target are below one their reciprocals are searched, and each of the two reciprocals
changes the sign of the exponent.
-/

namespace ComputerAlgebra

section Search
variable {x base : ℚ} {k : Nat}

/-- The powers of the base are below the target up to the `k`-th one, which is not. -/
structure ReachedAt (base x : ℚ) (k : Nat) : Prop where
  below : ∀ i < k, base ^ i < x
  reached : x ≤ base ^ k

def powerRounds (x base : ℚ) : Nat := (x / (base - 1)).ceil.toNat + 2

def searchPower? (x base : ℚ) (rounds : Nat) : Option Nat :=
  reachPower? base.num.natAbs base.den x.num.natAbs x.den rounds 0 1 1

theorem powerIndex?_eq_search (x base : ℚ) : powerIndex? x base = searchPower? x base (powerRounds x base) := rfl

/-- The powers of a base above one reach every target within the rounds that are allowed. -/
theorem exists_reachedAt (above : 1 < base) (x : ℚ) : ∃ k < powerRounds x base, ReachedAt base x k := by
  have gap : 0 < base - 1 := sub_pos.mpr above
  let n := (x / (base - 1)).ceil.toNat
  have passed : x ≤ base ^ n := by
    have rounds : x / (base - 1) ≤ n := by
      refine Rat.le_ceil.trans ?_
      exact_mod_cast Int.self_le_toNat (x / (base - 1)).ceil
    calc x ≤ n * (base - 1) := (div_le_iff₀ gap).mp rounds
      _ ≤ 1 + n * (base - 1) := by linarith
      _ ≤ (1 + (base - 1)) ^ n := one_add_mul_le_pow (by linarith) n
      _ = base ^ n := by rw [add_sub_cancel]
  have some_power : ∃ k, x ≤ base ^ k := ⟨n, passed⟩
  have least : Nat.find some_power ≤ n := Nat.find_min' some_power passed
  refine ⟨Nat.find some_power, Nat.lt_add_right 1 (Nat.lt_succ_of_le least), ?_, Nat.find_spec some_power⟩
  exact fun i earlier => not_le.mp (Nat.find_min some_power earlier)

private theorem lt_iff_across {p q : ℚ} (left : 0 < p) (right : 0 < q) :
    p.num.natAbs * q.den < q.num.natAbs * p.den ↔ p < q := by
  have first := Rat.num_pos.mpr left
  have second := Rat.num_pos.mpr right
  rw [Rat.lt_iff, ← Int.natAbs_of_nonneg first.le, ← Int.natAbs_of_nonneg second.le]
  norm_cast

private theorem eq_iff_parts {p q : ℚ} (left : 0 < p) (right : 0 < q) :
    p.num.natAbs = q.num.natAbs ∧ p.den = q.den ↔ p = q := by
  have first := Rat.num_pos.mpr left
  have second := Rat.num_pos.mpr right
  constructor
  · rintro ⟨numerators, denominators⟩
    exact Rat.ext (by omega) denominators
  · rintro rfl
    exact ⟨rfl, rfl⟩

/-- From the `i`-th power on, the search ends at the power that reaches the target. -/
theorem reachPower?_reached (above : 0 < base) (positive : 0 < x) (reached : ReachedAt base x k) (rounds : Nat) :
    ∀ i ≤ k, k < i + rounds →
      reachPower? base.num.natAbs base.den x.num.natAbs x.den rounds i (base.num.natAbs ^ i) (base.den ^ i) =
        if base ^ k = x then some k else none := by
  induction rounds with
  | zero => exact fun i within allowed => absurd allowed (not_lt.mpr within)
  | succ rounds ih =>
    intro i within allowed
    have power : 0 < base ^ i := pow_pos above i
    rw [reachPower?, ← Int.natAbs_pow, ← Rat.num_pow, ← Rat.den_pow]
    simp only [lt_iff_across power positive, eq_iff_parts power positive]
    rcases within.lt_or_eq with earlier | rfl
    · rw [if_pos (reached.below i earlier), Rat.num_pow, Int.natAbs_pow, Rat.den_pow, ← pow_succ, ← pow_succ]
      exact ih (i + 1) earlier (by omega)
    · rw [if_neg (not_lt.mpr reached.reached)]

theorem searchPower?_reached (above : 0 < base) (positive : 0 < x) (reached : ReachedAt base x k) {rounds : Nat}
    (allowed : k < rounds) : searchPower? x base rounds = if base ^ k = x then some k else none :=
  reachPower?_reached above positive reached rounds 0 (Nat.zero_le k) (by omega)

/-- The search ends by itself within the rounds that are allowed: more of them would change nothing. -/
theorem powerIndex?_ends (above : 1 < base) (positive : 0 < x) : ∃ k < powerRounds x base,
    ReachedAt base x k ∧ ∀ rounds > k, searchPower? x base rounds = powerIndex? x base := by
  obtain ⟨k, allowed, reached⟩ := exists_reachedAt above x
  have base_positive : 0 < base := zero_lt_one.trans above
  refine ⟨k, allowed, reached, fun rounds more => ?_⟩
  rw [powerIndex?_eq_search, searchPower?_reached base_positive positive reached more,
    searchPower?_reached base_positive positive reached allowed]

/-- The search finds the exponent if there is one. -/
theorem powerIndex?_eq_some_iff (above : 1 < base) (positive : 0 < x) :
    powerIndex? x base = some k ↔ base ^ k = x := by
  obtain ⟨i, allowed, reached⟩ := exists_reachedAt above x
  rw [powerIndex?_eq_search, searchPower?_reached (zero_lt_one.trans above) positive reached allowed,
    Option.ite_none_right_eq_some, Option.some_inj]
  constructor
  · rintro ⟨power, rfl⟩
    exact power
  · intro power
    have same : i = k := by
      refine le_antisymm (not_lt.mp fun later => ?_) (not_lt.mp fun earlier => ?_)
      · exact (reached.below k later).ne power
      · exact (pow_lt_pow_right₀ above earlier).not_ge (power.trans_le reached.reached)
    exact ⟨same ▸ power, same⟩

end Search

section Orientation
variable {q x base : ℚ}

def upright (q : ℚ) : ℚ := if q < 1 then q⁻¹ else q

/-- The exponent that turns the upright fraction back. -/
def orientation (q : ℚ) : Int := if q < 1 then -1 else 1

theorem zpow_orientation (q : ℚ) : q ^ orientation q = upright q := by
  unfold upright orientation
  split
  · rw [zpow_neg_one]
  · rw [zpow_one]

theorem orientation_mul_self (q : ℚ) : orientation q * orientation q = 1 := by
  unfold orientation
  split <;> rfl

theorem upright_zpow (q : ℚ) : upright q ^ orientation q = q := by
  rw [← zpow_orientation, ← zpow_mul, orientation_mul_self, zpow_one]

theorem one_lt_upright (positive : 0 < q) (other : q ≠ 1) : 1 < upright q := by
  unfold upright
  split
  · next below => exact (one_lt_inv₀ positive).mpr below
  · next above => exact lt_of_le_of_ne (not_lt.mp above) other.symm

/-- A power of the base is the target exactly if the power of the upright base, to the exponent times the two
orientations, is the upright target. -/
theorem zpow_eq_iff_upright {m : Int} :
    base ^ m = x ↔ upright base ^ (orientation base * orientation x * m) = upright x := by
  have turned : upright base ^ (orientation base * orientation x * m) = (base ^ m) ^ orientation x := by
    rw [mul_assoc, zpow_mul, upright_zpow, mul_comm, zpow_mul]
  rw [turned]
  constructor
  · rintro rfl
    exact zpow_orientation _
  · intro same
    rw [← upright_zpow x, ← same, ← zpow_mul, orientation_mul_self, zpow_one]

/-- The logarithm is searched upright, and its sign comes from the two orientations. -/
theorem exactLog?_upright (target : 0 < x) (above : 0 < base) (base_other : base ≠ 1) (other : x ≠ 1) :
    exactLog? x base =
      (powerIndex? (upright x) (upright base)).map fun k : Nat => orientation base * orientation x * k := by
  have valid : ¬(x ≤ 0 ∨ base ≤ 0 ∨ base = 1) := by
    simp only [not_or, not_le]
    exact ⟨target, above, base_other⟩
  have sign : (if (base < 1) = (x < 1) then 1 else -1 : Int) = orientation base * orientation x := by
    unfold orientation
    by_cases first : base < 1 <;> by_cases second : x < 1 <;> simp [first, second]
  rw [exactLog?, if_neg valid, if_neg other, ← sign]
  change Option.map _ (do let k ← powerIndex? (upright x) (upright base); pure (k : Int)) = _
  cases powerIndex? (upright x) (upright base) <;> rfl

theorem exactLog?_one (above : 0 < base) (other : base ≠ 1) : exactLog? 1 base = some 0 := by
  have valid : ¬((1 : ℚ) ≤ 0 ∨ base ≤ 0 ∨ base = 1) := by
    simp only [not_or, not_le]
    exact ⟨zero_lt_one, above, other⟩
  rw [exactLog?, if_neg valid, if_pos rfl]

theorem valid_of_exactLog? {k : Int} (found : exactLog? x base = some k) : 0 < x ∧ 0 < base ∧ base ≠ 1 := by
  unfold exactLog? at found
  split at found
  · cases found
  · next valid =>
    simp only [not_or, not_le] at valid
    exact valid

/-- Between an upright base and an upright target the exponent is a positive number. -/
private theorem exponent_positive {b t : ℚ} (above : 1 < b) (target : 1 < t) {m : Int} (power : b ^ m = t) :
    0 < m := by
  by_contra low
  have small : b ^ m ≤ 1 := zpow_le_one_of_nonpos₀ above.le (not_lt.mp low)
  rw [power] at small
  exact small.not_gt target

/-- For a valid base and target the exponent is found if there is one. -/
theorem exactLog?_eq_some_iff (target : 0 < x) (above : 0 < base) (base_other : base ≠ 1) {k : Int} :
    exactLog? x base = some k ↔ base ^ k = x := by
  by_cases other : x = 1
  · subst other
    rw [exactLog?_one above base_other, Option.some_inj, zpow_eq_one_iff_right₀ above.le base_other, eq_comm]
  · have upright_base := one_lt_upright above base_other
    have upright_target := one_lt_upright target other
    let sign := orientation base * orientation x
    have twice (m : Int) : sign * (sign * m) = m := by
      rw [← mul_assoc, mul_mul_mul_comm, orientation_mul_self, orientation_mul_self, one_mul, one_mul]
    rw [exactLog?_upright target above base_other other, Option.map_eq_some_iff, zpow_eq_iff_upright]
    change (∃ i : Nat, _ ∧ sign * (i : Int) = k) ↔ upright base ^ (sign * k) = upright x
    constructor
    · rintro ⟨i, found, rfl⟩
      rw [twice, zpow_natCast]
      exact (powerIndex?_eq_some_iff upright_base (zero_lt_one.trans upright_target)).mp found
    · intro power
      obtain ⟨i, same⟩ :=
        Int.eq_ofNat_of_zero_le (exponent_positive upright_base upright_target power).le
      rw [same, zpow_natCast] at power
      refine ⟨i, (powerIndex?_eq_some_iff upright_base (zero_lt_one.trans upright_target)).mpr power, ?_⟩
      rw [← same, twice]

end Orientation

/-- The search ends for every base and target with which it is entered, and an exponent is the answer exactly
if the base is positive and not one and its power is the positive target. -/
theorem exactLog?_exact (x base : ℚ) :
    (0 < x → x ≠ 1 → 0 < base → base ≠ 1 → ∃ k < powerRounds (upright x) (upright base),
      ReachedAt (upright base) (upright x) k ∧
        ∀ rounds > k, searchPower? (upright x) (upright base) rounds = powerIndex? (upright x) (upright base)) ∧
    ∀ k : Int, exactLog? x base = some k ↔ 0 < x ∧ 0 < base ∧ base ≠ 1 ∧ base ^ k = x := by
  constructor
  · intro target other above base_other
    exact powerIndex?_ends (one_lt_upright above base_other) (zero_lt_one.trans (one_lt_upright target other))
  · intro k
    constructor
    · intro found
      obtain ⟨target, above, base_other⟩ := valid_of_exactLog? found
      exact ⟨target, above, base_other, (exactLog?_eq_some_iff target above base_other).mp found⟩
    · rintro ⟨target, above, base_other, power⟩
      exact (exactLog?_eq_some_iff target above base_other).mpr power

/-- In base 2/3 the logarithm of 27/8 is -3; a negative number has none. -/
theorem exactLog?_exact_inverse :
    (∃ k, ReachedAt (upright (2 / 3)) (upright (27 / 8)) k) ∧ exactLog? (27 / 8) (2 / 3) = some (-3) ∧
      exactLog? (-8) (-2) ≠ some 3 := by
  obtain ⟨ends, exact_iff⟩ := exactLog?_exact (27 / 8) (2 / 3)
  obtain ⟨k, -, reached, -⟩ := ends (by norm_num) (by norm_num) (by norm_num) (by norm_num)
  refine ⟨⟨k, reached⟩, (exact_iff (-3)).mpr (by norm_num), ?_⟩
  rw [Ne, (exactLog?_exact (-8) (-2)).2]
  norm_num

end ComputerAlgebra

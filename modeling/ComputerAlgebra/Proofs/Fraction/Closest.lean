import ComputerAlgebra.Fraction.Closest
import Mathlib.Algebra.Order.Field.Basic
import Mathlib.Data.Rat.Lemmas
import Mathlib.RingTheory.Coprime.Lemmas
import Mathlib.Tactic.FieldSimp
import Mathlib.Tactic.Linarith
import Mathlib.Tactic.LinearCombination
import Mathlib.Tactic.Ring

/-!
The fraction that is closest to a value among those with a bounded denominator. The last two convergents and
what is left of the quotient give back the value at each step; at the end it lies between the convergent and
the fraction next to it, and these two are so near to each other that no fraction between them has a
denominator within the bound.
-/

namespace ComputerAlgebra.Fraction

theorem parts_le {q : Rat} {n : Int} {d : Nat} (positive : 0 < d) (written : q = n / d) :
    q.den ≤ d ∧ |q.num| ≤ |n| := by
  have same : q = Rat.divInt n d := by rw [Rat.divInt_eq_div, written, Int.cast_natCast]
  have denominator := Rat.den_dvd n d
  have numerator := Rat.num_dvd n (b := d) (by omega)
  rw [← same] at denominator numerator
  refine ⟨Nat.le_of_dvd positive (by exact_mod_cast denominator), ?_⟩
  by_cases zero : n = 0
  · rw [written, zero]
    simp
  · exact Int.le_of_dvd (abs_pos.mpr zero) ((abs_dvd_abs _ _).mpr numerator)

structure IsClosest (bound : Nat) (q r : Rat) : Prop where
  den_le : r.den ≤ bound
  closest : ∀ s : Rat, s.den ≤ bound → |r - q| ≤ |s - q|

def IsOnlyClosest (bound : Nat) (q r : Rat) : Prop := ∀ s : Rat, s.den ≤ bound → |s - q| ≤ |r - q| → s = r

theorem IsOnlyClosest.eq {bound : Nat} {q r d : Rat} (only : IsOnlyClosest bound q d) (within : d.den ≤ bound)
    (is_closest : IsClosest bound q r) : r = d :=
  only r is_closest.den_le (is_closest.closest d within)

/-- Two fractions are apart by the product of their denominators. -/
theorem one_div_le_distance {r s : Rat} (other : s ≠ r) : 1 / ((s.den : Rat) * r.den) ≤ |s - r| := by
  have den : (0 : Rat) < s.den := by exact_mod_cast s.den_pos
  have den' : (0 : Rat) < r.den := by exact_mod_cast r.den_pos
  have common : s - r = ((s.num * r.den - r.num * s.den : Int) : Rat) / (s.den * r.den) := by
    push_cast
    rw [eq_div_iff (by positivity), sub_mul, ← mul_assoc, Rat.mul_den_eq_num, mul_comm (s.den : Rat),
      ← mul_assoc, Rat.mul_den_eq_num]
  have nonzero : s.num * (r.den : Int) - r.num * s.den ≠ 0 := by
    intro zero
    rw [zero, Int.cast_zero, zero_div] at common
    exact other (sub_eq_zero.mp common)
  rw [common, abs_div, abs_of_pos (by positivity : (0 : Rat) < s.den * r.den)]
  gcongr
  exact_mod_cast Int.one_le_abs nonzero

/-- A fraction near to the value, against the size of its denominator, is the only closest one. -/
theorem isOnlyClosest_of_near {bound : Nat} {q r : Rat} (positive : 0 < bound)
    (near : 2 * |r - q| * (bound * r.den) < 1) : IsOnlyClosest bound q r := by
  intro s within closer
  by_contra other
  have apart := one_div_le_distance other
  have den : (0 : Rat) < s.den := by exact_mod_cast s.den_pos
  have den' : (0 : Rat) < r.den := by exact_mod_cast r.den_pos
  have bounded : (s.den : Rat) ≤ bound := by exact_mod_cast within
  have distance : |s - r| ≤ 2 * |r - q| := by
    have triangle := abs_sub_le s q r
    rw [abs_sub_comm q r] at triangle
    linarith
  have least : 1 ≤ |s - r| * (bound * r.den) := by
    rw [div_le_iff₀ (by positivity)] at apart
    refine apart.trans ?_
    gcongr
  have most : |s - r| * (bound * r.den) ≤ 2 * |r - q| * (bound * r.den) := by gcongr
  linarith

/-- The convergents with the quotient `n / d` that is left of the value. -/
structure Convergents.Represents (c : Convergents) (bound : Nat) (q : Rat) (n : Int) (d : Nat) : Prop where
  num : c.p₁ * n + c.p₀ * d = q.num
  den : c.q₁ * n + c.q₀ * d = q.den
  neighbours : c.p₁ * c.q₀ - c.p₀ * c.q₁ = 1 ∨ c.p₁ * c.q₀ - c.p₀ * c.q₁ = -1
  before : c.q₀ ≤ bound
  last : c.q₁ ≤ bound
  rest : c.q₁ = 0 ∨ 0 ≤ n

variable {bound : Nat} {q : Rat} {n : Int} {d : Nat} {c : Convergents}

/-- Only the first partial quotient may be negative, and it is not a factor of a denominator. -/
theorem Convergents.Represents.next_den (given : c.Represents bound q n d) :
    ((c.q₀ + (n / d).toNat * c.q₁ : Nat) : Int) = c.q₀ + n / d * c.q₁ := by
  rcases given.rest with first | later
  · simp [first]
  · rw [Nat.cast_add, Nat.cast_mul, Int.toNat_of_nonneg (Int.ediv_nonneg later (Int.natCast_nonneg d))]

theorem Convergents.Represents.step (given : c.Represents bound q n d) (positive : d ≠ 0)
    (fits : c.q₀ + (n / d).toNat * c.q₁ ≤ bound) :
    Convergents.Represents ⟨c.p₁, c.q₁, c.p₀ + n / d * c.p₁, c.q₀ + (n / d).toNat * c.q₁⟩ bound q d
      (n % d).toNat := by
  have split_off := Int.mul_ediv_add_emod n d
  have remainder : (((n % d).toNat : Nat) : Int) = n % d :=
    Int.toNat_of_nonneg (Int.emod_nonneg n (by omega))
  refine ⟨?_, ?_, ?_, given.last, fits, .inr (Int.natCast_nonneg d)⟩
  · rw [remainder, ← given.num]
    linear_combination c.p₁ * split_off
  · rw [remainder, given.next_den, ← given.den]
    linear_combination c.q₁ * split_off
  · rw [given.next_den]
    rcases given.neighbours with same | same
    · exact .inr (by linear_combination -same)
    · exact .inl (by linear_combination -same)

/-- The convergents stop where the next denominator exceeds the bound, since that of the value does. -/
theorem convergents_represents (large : bound < q.den) (n : Int) (d : Nat) (c : Convergents)
    (given : c.Represents bound q n d) :
    ∃ (n' : Int) (d' : Nat), (convergents bound n d c).Represents bound q n' d' ∧ 0 < d' ∧
      (bound : Int) < (convergents bound n d c).q₀ + n' / d' * (convergents bound n d c).q₁ := by
  fun_induction convergents bound n d c with
  | case1 n c =>
    -- The value is the last convergent itself, in lowest terms.
    exfalso
    have num := given.num
    have den := given.den
    rw [Nat.cast_zero, mul_zero, add_zero] at num den
    have lowest : IsUnit n := by
      have coprime : IsCoprime q.num q.den := Int.isCoprime_iff_gcd_eq_one.mpr q.reduced
      exact coprime.isUnit_of_dvd' ⟨c.p₁, by rw [← num, mul_comm]⟩ ⟨c.q₁, by rw [← den, mul_comm]⟩
    have last := given.last
    rcases Int.isUnit_iff.mp lowest with rfl | rfl <;> omega
  | case2 n d c positive a q₂ exceeds =>
    refine ⟨n, d, given, Nat.pos_of_ne_zero positive, ?_⟩
    rw [← given.next_den]
    exact_mod_cast exceeds
  | case3 n d c positive a q₂ fits ih => exact ih (given.step positive (not_lt.mp fits))

/-- Between two neighbours no fraction has a smaller denominator than both together. -/
theorem den_of_between {a c : Int} {b e t : Nat} {s : Int} (lower : 0 < (s * b - a * t : Int))
    (upper : 0 < (c * t - s * e : Int)) (neighbours : c * b - a * e = 1) : b + e ≤ t := by
  -- The denominator is a combination of both with the two distances for factors.
  have combined : (t : Int) = e * (s * b - a * t) + b * (c * t - s * e) := by
    linear_combination -(t : Int) * neighbours
  have first : (e : Int) ≤ e * (s * b - a * t) := le_mul_of_one_le_right (Int.natCast_nonneg e) lower
  have second : (b : Int) ≤ b * (c * t - s * e) := le_mul_of_one_le_right (Int.natCast_nonneg b) upper
  omega

/-- A fraction outside an interval is not closer to a value inside than both ends. -/
theorem min_le_of_outside {a b x s : Rat} (below : a ≤ x) (above : x ≤ b) (outside : s ≤ a ∨ b ≤ s) :
    min |a - x| |b - x| ≤ |s - x| := by
  rcases outside with low | high
  · refine (min_le_left _ _).trans ?_
    rw [abs_of_nonpos (by linarith), abs_of_nonpos (by linarith)]
    linarith
  · refine (min_le_right _ _).trans ?_
    rw [abs_of_nonneg (by linarith), abs_of_nonneg (by linarith)]
    linarith

/-- Two neighbours with the value between them: of the fractions with smaller denominators than both together,
one of them is the closest to the value. -/
theorem min_le_of_neighbours {p p' : Int} {b b' : Nat} {x : Rat} (positive : 0 < b) (positive' : 0 < b')
    (neighbours : p' * b - p * b' = 1) (below : (p : Rat) / b ≤ x) (above : x ≤ (p' : Rat) / b') (s : Rat)
    (small : s.den < b + b') : min |(p : Rat) / b - x| |(p' : Rat) / b' - x| ≤ |s - x| := by
  refine min_le_of_outside below above ?_
  by_contra inside
  push Not at inside
  have value : s = s.num / s.den := (Rat.num_div_den s).symm
  have den : (0 : Rat) < s.den := by exact_mod_cast s.den_pos
  have unit : (0 : Rat) < b := by exact_mod_cast positive
  have unit' : (0 : Rat) < b' := by exact_mod_cast positive'
  have lower : 0 < s.num * (b : Int) - p * s.den := by
    have cross := inside.1
    rw [value, div_lt_div_iff₀ unit den] at cross
    have integer : p * (s.den : Int) < s.num * b := by exact_mod_cast cross
    omega
  have upper : 0 < p' * (s.den : Int) - s.num * b' := by
    have cross := inside.2
    rw [value, div_lt_div_iff₀ den unit'] at cross
    have integer : s.num * (b' : Int) < p' * s.den := by exact_mod_cast cross
    omega
  have large := den_of_between lower upper neighbours
  omega

/-- Where the next denominator would exceed the bound, the last convergent and the fraction that takes as many
of its steps as the bound allows are neighbours around the value. -/
theorem Convergents.Represents.closest_of_last (given : c.Represents bound q n d) (left : 0 < d)
    (exceeds : (bound : Int) < c.q₀ + n / d * c.q₁) {k : Nat} (steps : k = (bound - c.q₀) / c.q₁) :
    0 < c.q₁ ∧ 0 < c.q₀ + k * c.q₁ ∧ c.q₀ + k * c.q₁ ≤ bound ∧ ∀ s : Rat, s.den ≤ bound →
      min |(c.p₁ : Rat) / c.q₁ - q| |((c.p₀ + k * c.p₁ : Int) : Rat) / (c.q₀ + k * c.q₁ : Nat) - q| ≤
        |s - q| := by
  have before := given.before
  have last : 0 < c.q₁ := by
    refine Nat.pos_of_ne_zero fun zero => ?_
    rw [zero, Nat.cast_zero, mul_zero, add_zero] at exceeds
    omega
  have within : k * c.q₁ ≤ bound - c.q₀ := steps ▸ Nat.div_mul_le_self _ _
  have more : bound < c.q₀ + k * c.q₁ + c.q₁ := by
    have next := Nat.lt_div_mul_add (a := bound - c.q₀) last
    rw [← steps] at next
    omega
  have fewer : (k : Int) ≤ n / d := by
    by_contra other
    have least : (n / d + 1) * (c.q₁ : Int) ≤ k * c.q₁ :=
      mul_le_mul_of_nonneg_right (by omega) (Int.natCast_nonneg _)
    have cast : ((k * c.q₁ : Nat) : Int) = k * c.q₁ := Nat.cast_mul _ _
    have positive : (0 : Int) < c.q₁ := by exact_mod_cast last
    rw [add_mul, one_mul] at least
    omega
  have rest : (k : Int) * d ≤ n :=
    (mul_le_mul_of_nonneg_right fewer (Int.natCast_nonneg d)).trans (Int.ediv_mul_le n (by omega))
  have first : 0 < c.q₀ + k * c.q₁ := by
    have most := given.last
    omega
  refine ⟨last, first, by omega, fun s small => ?_⟩
  have value : q = q.num / q.den := (Rat.num_div_den q).symm
  have den : (0 : Rat) < q.den := by exact_mod_cast q.den_pos
  have unit : (0 : Rat) < c.q₁ := by exact_mod_cast last
  have unit' : (0 : Rat) < (c.q₀ + k * c.q₁ : Nat) := by exact_mod_cast first
  -- How far the value is from both, over the common denominators.
  have convergent : c.p₁ * (q.den : Int) - q.num * c.q₁ = (c.p₁ * c.q₀ - c.p₀ * c.q₁) * d := by
    rw [← given.num, ← given.den]
    ring
  have between : q.num * ((c.q₀ + k * c.q₁ : Nat) : Int) - (c.p₀ + k * c.p₁) * q.den =
      (c.p₁ * c.q₀ - c.p₀ * c.q₁) * (n - k * d) := by
    rw [← given.num, ← given.den]
    push_cast
    ring
  have fits : s.den < c.q₁ + (c.q₀ + k * c.q₁) := by omega
  have apart : c.p₁ * ((c.q₀ + k * c.q₁ : Nat) : Int) - (c.p₀ + k * c.p₁) * c.q₁ =
      c.p₁ * c.q₀ - c.p₀ * c.q₁ := by
    push_cast
    ring
  rcases given.neighbours with one | one <;> rw [one] at convergent between apart
  · rw [min_comm]
    refine min_le_of_neighbours first last apart ?_ ?_ s (by omega)
    · rw [value, div_le_div_iff₀ unit' den]
      have cross : (c.p₀ + k * c.p₁) * (q.den : Int) ≤ q.num * (c.q₀ + k * c.q₁ : Nat) := by omega
      exact_mod_cast cross
    · rw [value, div_le_div_iff₀ den unit]
      have cross : q.num * (c.q₁ : Int) ≤ c.p₁ * q.den := by omega
      exact_mod_cast cross
  · refine min_le_of_neighbours last first (by linarith) ?_ ?_ s fits
    · rw [value, div_le_div_iff₀ unit den]
      have cross : c.p₁ * (q.den : Int) ≤ q.num * c.q₁ := by omega
      exact_mod_cast cross
    · rw [value, div_le_div_iff₀ den unit']
      have cross : q.num * ((c.q₀ + k * c.q₁ : Nat) : Int) ≤ (c.p₀ + k * c.p₁) * q.den := by omega
      exact_mod_cast cross

theorem den_mkRat_le (n : Int) {d : Nat} (positive : 0 < d) : (mkRat n d).den ≤ d :=
  (parts_le positive (Rat.mkRat_eq_div n d)).1

theorem ratAbs_eq (x : Rat) : x.abs = |x| := by
  unfold Rat.abs
  split
  · next nonneg => rw [abs_of_nonneg nonneg]
  · next negative => rw [abs_of_neg (not_le.mp negative)]

theorem closest_isClosest (positive : 0 < bound) (q : Rat) : IsClosest bound q (closest bound q) := by
  unfold closest
  split
  · next small =>
    refine ⟨small, fun s _ => ?_⟩
    rw [sub_self, abs_zero]
    exact abs_nonneg _
  next large =>
  have start : Convergents.Represents ⟨0, 1, 1, 0⟩ bound q q.num q.den :=
    ⟨by simp, by simp, .inl (by simp), positive, Nat.zero_le _, .inl rfl⟩
  obtain ⟨n, d, given, left, exceeds⟩ := convergents_represents (not_le.mp large) _ _ _ start
  obtain ⟨last, first, within, nearest⟩ := given.closest_of_last left exceeds rfl
  generalize convergents bound q.num q.den ⟨0, 1, 1, 0⟩ = c at given last first within nearest ⊢
  dsimp only
  rw [← Rat.mkRat_eq_div, ← Rat.mkRat_eq_div] at nearest
  rw [ratAbs_eq, ratAbs_eq]
  split
  · next closer =>
    refine ⟨(den_mkRat_le _ last).trans given.last, fun s small => ?_⟩
    have least := nearest s small
    rw [min_eq_left] at least
    · exact least
    · exact closer
  · next closer =>
    refine ⟨(den_mkRat_le _ first).trans within, fun s small => ?_⟩
    have least := nearest s small
    rw [min_eq_right] at least
    · exact least
    · exact (not_le.mp closer).le

end ComputerAlgebra.Fraction

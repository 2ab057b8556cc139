import ComputerAlgebra.Proofs.BigFloat.Error
import Mathlib.Data.Nat.Fib.Basic

/-!
Continued fractions of rational numbers, as they are: how many partial quotients an expansion has and how
large they are. An expansion is at most as long as the Fibonacci numbers let the denominator make it,
and that of the opposite has at most one partial quotient more.
-/

namespace ComputerAlgebra.Fraction

/-- The continued fraction of a number has at most `k` partial quotients, and none of them is larger than
`part`. -/
def Expands (part : Int) : Nat → Rat → Prop
  | 0, _ => False
  | k + 1, q => |⌊q⌋| ≤ part ∧ (Int.fract q = 0 ∨ Expands part k (Int.fract q)⁻¹)

instance decidableExpands (part : Int) : ∀ (k : Nat) (q : Rat), Decidable (Expands part k q)
  | 0, _ => isFalse id
  | k + 1, q =>
    have := decidableExpands part k (Int.fract q)⁻¹
    inferInstanceAs (Decidable (_ ∧ _))

variable {part part' : Int} {k l : Nat} {q : Rat}

theorem fract_pos (broken : Int.fract q ≠ 0) : 0 < Int.fract q :=
  lt_of_le_of_ne (Int.fract_nonneg q) (Ne.symm broken)

theorem den_reciprocal (broken : Int.fract q ≠ 0) :
    (((Int.fract q)⁻¹.den : Nat) : ℚ) = Int.fract q * q.den := by
  have above : 0 < (Int.fract q).num := Rat.num_pos.mpr (fract_pos broken)
  have size : (((Int.fract q)⁻¹.den : Nat) : ℚ) = (Int.fract q).num := by
    rw [Rat.den_inv_of_ne_zero broken, ← Int.cast_natCast, Int.natAbs_of_nonneg above.le]
  rw [size, ← Rat.den_intFract q, Rat.mul_den_eq_num]

theorem num_reciprocal (broken : Int.fract q ≠ 0) : (Int.fract q)⁻¹.num = q.den := by
  have above : 0 < (Int.fract q).num := Rat.num_pos.mpr (fract_pos broken)
  rw [Rat.num_inv, Int.sign_eq_one_of_pos above, one_mul, Rat.den_intFract]

theorem num_eq (broken : Int.fract q ≠ 0) : q.num = ⌊q⌋ * q.den + ((Int.fract q)⁻¹.den : Nat) := by
  have rational : (q.num : ℚ) = ⌊q⌋ * q.den + ((Int.fract q)⁻¹.den : Nat) := by
    rw [den_reciprocal broken, ← add_mul, Int.floor_add_fract, Rat.mul_den_eq_num]
  exact_mod_cast rational

namespace Expands

theorem mono (given : Expands part k q) (longer : k ≤ l) (larger : part ≤ part') :
    Expands part' l q := by
  induction k generalizing l q with
  | zero => exact given.elim
  | succ k ih =>
    obtain ⟨l, rfl⟩ : ∃ m, l = m + 1 := ⟨l - 1, by omega⟩
    exact ⟨given.1.trans larger, given.2.imp_right fun rest => ih rest (by omega)⟩

/-- A whole number more changes the first partial quotient alone. -/
theorem shift (given : Expands part k q) (n : Int) (first : |⌊q⌋ + n| ≤ part') (larger : part ≤ part') :
    Expands part' k (q + n) := by
  cases k with
  | zero => exact given.elim
  | succ k =>
    unfold Expands
    rw [Int.floor_add_intCast, Int.fract_add_intCast]
    exact ⟨first, given.2.imp_right fun rest => rest.mono le_rfl larger⟩

/-- A partial quotient is not much smaller than the number it comes from. -/
theorem fract_low (given : Expands part k q) (broken : Int.fract q ≠ 0) :
    1 < Int.fract q * (part + 1) := by
  cases k with
  | zero => exact given.elim
  | succ k =>
    have positive := fract_pos broken
    have rest := given.2.resolve_left broken
    cases k with
    | zero => exact rest.elim
    | succ k =>
      have below : (Int.fract q)⁻¹ < part + 1 := by
        have floor := Int.lt_floor_add_one (Int.fract q)⁻¹
        have bound : (⌊(Int.fract q)⁻¹⌋ : ℚ) ≤ part := by exact_mod_cast (le_abs_self _).trans rest.1
        linarith
      rwa [inv_lt_iff_one_lt_mul₀' positive] at below

theorem fract_high (given : Expands part k q) (broken : Int.fract q ≠ 0) :
    1 < (1 - Int.fract q) * (part + 2) := by
  cases k with
  | zero => exact given.elim
  | succ k =>
    have positive := fract_pos broken
    have rest := given.2.resolve_left broken
    have above : 1 < (Int.fract q)⁻¹ := (one_lt_inv₀ positive).mpr (Int.fract_lt_one q)
    have inverse : Int.fract q * (Int.fract q)⁻¹ = 1 := mul_inv_cancel₀ positive.ne'
    generalize (Int.fract q)⁻¹ = y at above rest inverse
    -- It is the same to say that the partial quotient that follows is not all of `y`.
    suffices 1 < (y - 1) * (part + 1) by
      have scaled := mul_lt_mul_of_pos_left this positive
      have apart : (1 - Int.fract q) * (part + 2) - 1 = Int.fract q * ((y - 1) * (part + 1)) - Int.fract q := by
        have product : Int.fract q * ((y - 1) * (part + 1)) = (1 - Int.fract q) * (part + 1) := by
          rw [← mul_assoc, mul_sub, inverse, mul_one]
        rw [product]
        ring
      linarith
    cases k with
    | zero => exact rest.elim
    | succ k =>
      have floor : 1 ≤ ⌊y⌋ := Int.le_floor.mpr (by exact_mod_cast above.le)
      have least : (⌊y⌋ : ℚ) ≤ part := by exact_mod_cast (le_abs_self _).trans rest.1
      have first : (1 : ℚ) ≤ ⌊y⌋ := by exact_mod_cast floor
      have split_off := Int.floor_add_fract y
      by_cases whole : Int.fract y = 0
      · have second : (2 : ℚ) ≤ ⌊y⌋ := by
          rw [whole, add_zero] at split_off
          rw [← split_off] at above
          exact_mod_cast (by exact_mod_cast above : 1 < ⌊y⌋)
        nlinarith
      · have low := rest.fract_low whole
        have unit : (0 : ℚ) < part + 1 := by linarith
        calc (1 : ℚ) < Int.fract y * (part + 1) := low
          _ ≤ (y - 1) * (part + 1) := by
            refine mul_le_mul_of_nonneg_right ?_ unit.le
            linarith

/-- The algorithm of Euclid for a fraction above one: its numerator or its denominator is too small for
a longer expansion. -/
theorem of_lt_fib (k : Nat) : ∀ {q : Rat}, 1 < q → q.num ≤ part →
    q.num < Nat.fib (k + 3) ∨ q.den < Nat.fib (k + 2) → Expands part k q := by
  induction k with
  | zero =>
    intro q above _ small
    have larger : (q.den : Int) < q.num := by
      have rational : (1 : ℚ) * q.den < q * q.den :=
        mul_lt_mul_of_pos_right above (by exact_mod_cast q.den_pos)
      rw [one_mul, Rat.mul_den_eq_num] at rational
      exact_mod_cast rational
    have positive := q.den_pos
    have third : Nat.fib (0 + 3) = 2 := rfl
    have second : Nat.fib (0 + 2) = 1 := rfl
    omega
  | succ k ih =>
    intro q above size small
    have positive : (1 : Int) ≤ q.den := by exact_mod_cast q.den_pos
    have floor : 1 ≤ ⌊q⌋ := Int.le_floor.mpr (by exact_mod_cast above.le)
    have bound : ⌊q⌋ * 1 ≤ q.num := by
      calc ⌊q⌋ * 1 ≤ ⌊q⌋ * q.den := by gcongr
        _ ≤ q.num := by
          have rational : (⌊q⌋ : ℚ) * q.den ≤ q * q.den := by
            gcongr
            exact Int.floor_le q
          rw [Rat.mul_den_eq_num] at rational
          exact_mod_cast rational
    refine ⟨?_, ?_⟩
    · rw [abs_of_nonneg (by omega)]
      omega
    by_cases whole : Int.fract q = 0
    · exact .inl whole
    have euclid := num_eq whole
    have product : (q.den : Int) ≤ ⌊q⌋ * q.den := by nlinarith
    refine .inr (ih ?_ ?_ ?_)
    · exact (one_lt_inv₀ (fract_pos whole)).mpr (Int.fract_lt_one q)
    · rw [num_reciprocal whole]
      omega
    · rw [num_reciprocal whole]
      have next : Nat.fib (k + 1 + 3) = Nat.fib (k + 2) + Nat.fib (k + 3) := Nat.fib_add_two
      have same : Nat.fib (k + 1 + 2) = Nat.fib (k + 3) := rfl
      omega

/-- An expansion ends after as many partial quotients as the Fibonacci numbers grow to the denominator. -/
theorem of_den (k : Nat) (first : |⌊q⌋| ≤ part) (size : q.den ≤ part) (small : q.den < Nat.fib (k + 3)) :
    Expands part (k + 1) q := by
  refine ⟨first, ?_⟩
  by_cases whole : Int.fract q = 0
  · exact .inl whole
  refine .inr (of_lt_fib k ?_ ?_ (.inl ?_))
  · exact (one_lt_inv₀ (fract_pos whole)).mpr (Int.fract_lt_one q)
  · rw [num_reciprocal whole]
    exact_mod_cast size
  · rw [num_reciprocal whole]
    exact_mod_cast small

/-- The expansion of the opposite: the first two partial quotients change, where one may become two or
two become one. -/
theorem neg (given : Expands part k q) : Expands (part + 1) (k + 1) (-q) := by
  cases k with
  | zero => exact given.elim
  | succ k =>
    by_cases whole : Int.fract q = 0
    · have floor : ⌊-q⌋ = -⌊q⌋ := by
        rw [← Int.floor_add_fract q, whole, add_zero, ← Int.cast_neg, Int.floor_intCast,
          Int.floor_intCast]
      refine ⟨?_, .inl (Int.fract_neg_eq_zero.mpr whole)⟩
      rw [floor, abs_neg]
      linarith [given.1]
    have rest := given.2.resolve_left whole
    have positive := fract_pos whole
    have floor : ⌊-q⌋ = -⌊q⌋ - 1 := by
      rw [Int.floor_eq_iff]
      push_cast
      constructor <;> linarith [Int.floor_add_fract q, Int.fract_lt_one q]
    refine ⟨?_, .inr ?_⟩
    · rw [floor]
      calc |-⌊q⌋ - 1| ≤ |-⌊q⌋| + |1| := abs_sub _ _
        _ ≤ part + 1 := by
          rw [abs_neg, abs_one]
          linarith [given.1]
    rw [Int.fract_neg whole]
    have above : 1 < (Int.fract q)⁻¹ := (one_lt_inv₀ positive).mpr (Int.fract_lt_one q)
    -- What follows is one more than the reciprocal of `y - 1`.
    have follows : (1 - Int.fract q)⁻¹ = ((Int.fract q)⁻¹ - 1)⁻¹ + 1 := by
      have below := Int.fract_lt_one q
      have apart : (Int.fract q)⁻¹ - 1 ≠ 0 := by linarith
      have apart' : 1 - Int.fract q ≠ 0 := by linarith
      field_simp
      ring
    rw [follows]
    generalize (Int.fract q)⁻¹ = y at rest above
    cases k with
    | zero => exact rest.elim
    | succ k =>
      rcases lt_trichotomy y 2 with low | two | high
      · -- The quotient one is taken into the next one.
        have first : ⌊y⌋ = 1 := Int.floor_eq_iff.mpr ⟨by push_cast; linarith, by push_cast; linarith⟩
        have fraction : Int.fract y = y - 1 := by rw [← Int.self_sub_floor, first, Int.cast_one]
        have later : Expands part k (y - 1)⁻¹ := by
          have later := rest.2.resolve_left (by rw [fraction]; linarith)
          rwa [fraction] at later
        have shifted : Expands (part + 1) k ((y - 1)⁻¹ + (1 : Int)) := by
          cases k with
          | zero => exact later.elim
          | succ k =>
            refine later.shift 1 ?_ (by omega)
            calc |⌊(y - 1)⁻¹⌋ + 1| ≤ |⌊(y - 1)⁻¹⌋| + |1| := abs_add_le _ _
              _ ≤ part + 1 := by
                rw [abs_one]
                linarith [later.1]
        rw [Int.cast_one] at shifted
        exact shifted.mono (by omega) le_rfl
      · subst two
        have size : |(2 : Int)| ≤ part := by simpa using rest.1
        rw [abs_two] at size
        have value : ((2 : ℚ) - 1)⁻¹ + 1 = (2 : Int) := by norm_num
        rw [value]
        refine ⟨?_, .inl (Int.fract_intCast 2)⟩
        rw [Int.floor_intCast, abs_two]
        omega
      · -- A quotient one is put before the next one, which is one less.
        have positive' : 0 < y - 1 := by linarith
        have small : (y - 1)⁻¹ < 1 := inv_lt_one_of_one_lt₀ (by linarith)
        have nonneg : 0 < (y - 1)⁻¹ := inv_pos.mpr positive'
        have first : ⌊(y - 1)⁻¹ + 1⌋ = 1 :=
          Int.floor_eq_iff.mpr ⟨by push_cast; linarith, by push_cast; linarith⟩
        have fraction : Int.fract ((y - 1)⁻¹ + 1) = (y - 1)⁻¹ := by
          rw [← Int.self_sub_floor, first, Int.cast_one, add_sub_cancel_right]
        have floor : 2 ≤ ⌊y⌋ := Int.le_floor.mpr (by exact_mod_cast high.le)
        have bound := rest.1
        rw [abs_of_nonneg (by omega)] at bound
        refine ⟨?_, .inr ?_⟩
        · rw [first, abs_one]
          omega
        · rw [fraction, inv_inv]
          have size : |⌊y⌋ + -1| ≤ part + 1 := by
            rw [abs_of_nonneg (by omega)]
            omega
          have lower := rest.shift (-1) size (by omega)
          rwa [Int.cast_neg, Int.cast_one, ← sub_eq_add_neg] at lower

example : Expands 2 4 (3 / 8) ∧ ¬ Expands 3 4 (-(3 / 8)) := by decide +kernel

end Expands
end ComputerAlgebra.Fraction

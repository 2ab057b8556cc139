import ComputerAlgebra.Integer.Root
import ComputerAlgebra.Integer.RoundingLemmas
import Mathlib.Logic.Function.Iterate
import Mathlib.Tactic.Linarith
import Mathlib.Tactic.Ring

/-!
Newton's iteration finds the whole part of a root. A step never falls below the root, by the inequality of
the arithmetic and the geometric mean, and where it goes down no further the root is reached; so a natural
number is found to be a power exactly if it is one.
-/

namespace ComputerAlgebra

variable {n k x a : Nat}

/-- The arithmetic and the geometric mean of one `a` and `k` times `x`. -/
theorem mean_inequality (a x k : Nat) : (k + 1) * a * x ^ k ≤ a ^ (k + 1) + k * x ^ (k + 1) := by
  suffices integer : ((k : Int) + 1) * a * x ^ k ≤ a ^ (k + 1) + k * x ^ (k + 1) by exact_mod_cast integer
  induction k with
  | zero => simp
  | succ k ih =>
    have scaled := mul_le_mul_of_nonneg_left ih (Int.natCast_nonneg a)
    have square : 0 ≤ (x : Int) ^ k * (k + 1) * ((a : Int) - x) ^ 2 := by positivity
    have apart : (a : Int) ^ (k + 2) + (k + 1) * x ^ (k + 2) - (k + 2) * a * x ^ (k + 1) =
        (a * (a ^ (k + 1) + k * x ^ (k + 1)) - a * ((k + 1) * a * x ^ k)) +
          x ^ k * (k + 1) * (a - x) ^ 2 := by ring
    push_cast
    linarith

theorem le_newtonStep (degree : 0 < k) (positive : 0 < x) (below : a ^ k ≤ n) : a ≤ newtonStep n k x := by
  obtain ⟨j, rfl⟩ : ∃ j, k = j + 1 := ⟨k - 1, by omega⟩
  change a ≤ (j * x + n / x ^ j) / (j + 1)
  rw [Nat.le_div_iff_mul_le (by omega)]
  suffices a * (j + 1) - j * x ≤ n / x ^ j by omega
  rw [Nat.le_div_iff_mul_le (Nat.pow_pos positive), Nat.sub_mul, Nat.sub_le_iff_le_add]
  calc a * (j + 1) * x ^ j = (j + 1) * a * x ^ j := by ring
    _ ≤ a ^ (j + 1) + j * x ^ (j + 1) := mean_inequality a x j
    _ ≤ n + j * x * x ^ j := by
      rw [pow_succ x, mul_comm (x ^ j), ← mul_assoc]
      exact Nat.add_le_add_right below _

/-- Where a step goes down no further, the power does not exceed the radicand. -/
theorem pow_le_of_newtonStep (degree : 0 < k) (positive : 0 < x) (stopped : x ≤ newtonStep n k x) :
    x ^ k ≤ n := by
  obtain ⟨j, rfl⟩ : ∃ j, k = j + 1 := ⟨k - 1, by omega⟩
  change x ≤ (j * x + n / x ^ j) / (j + 1) at stopped
  rw [Nat.le_div_iff_mul_le (by omega)] at stopped
  have quotient : x ≤ n / x ^ j := by
    rw [Nat.mul_succ, Nat.mul_comm] at stopped
    omega
  rw [Nat.le_div_iff_mul_le (Nat.pow_pos positive)] at quotient
  rwa [pow_succ, mul_comm]

structure IsFloorRoot (n k r : Nat) : Prop where
  pow_le : r ^ k ≤ n
  greatest : ∀ a, a ^ k ≤ n → a ≤ r

/-- The iteration keeps above the root, and it ends there. -/
theorem newtonRoot_floor (degree : 0 < k) (radicand : 0 < n) (above : ∀ a, a ^ k ≤ n → a ≤ x) :
    IsFloorRoot n k (newtonRoot n k x) := by
  have positive : 0 < x := above 1 (by rw [one_pow]; exact radicand)
  fun_induction newtonRoot n k x with
  | case1 x lower ih =>
    have kept (a : Nat) (root : a ^ k ≤ n) : a ≤ newtonStep n k x := le_newtonStep degree positive root
    exact ih kept (kept 1 (by rw [one_pow]; exact radicand))
  | case2 x stopped => exact ⟨pow_le_of_newtonStep degree positive (not_lt.mp stopped), above⟩

/-- Where the iteration starts: a power of two whose own power has more digits than the radicand. -/
def newtonStart (n k : Nat) : Nat := 1 <<< ((bitLength n + k - 1) / k)

theorem root_le_start (degree : 0 < k) (root : a ^ k ≤ n) : a ≤ newtonStart n k := by
  have digits : bitLength n ≤ (bitLength n + k - 1) / k * k := by
    have rest := Nat.mod_add_div (bitLength n + k - 1) k
    have short := Nat.mod_lt (bitLength n + k - 1) degree
    rw [Nat.mul_comm] at rest
    omega
  have power : a ^ k < newtonStart n k ^ k := by
    calc a ^ k ≤ n := root
      _ < 2 ^ bitLength n := lt_two_pow_bitLength n
      _ ≤ 2 ^ ((bitLength n + k - 1) / k * k) := Nat.pow_le_pow_right (by decide) digits
      _ = _ := by rw [newtonStart, Nat.one_shiftLeft, Nat.pow_mul]
  exact (lt_of_pow_lt_pow_left' k power).le

theorem floorRoot_floor (degree : 0 < k) : IsFloorRoot n k (floorRoot n k) := by
  unfold floorRoot
  split
  · next small =>
    refine ⟨?_, fun a root => ?_⟩
    · have cases : n = 0 ∨ n = 1 := by omega
      rcases cases with rfl | rfl
      · rw [Nat.zero_pow degree]
      · rw [one_pow]
    · exact (Nat.le_self_pow degree.ne' a).trans root
  · exact newtonRoot_floor degree (by omega) fun a root => root_le_start degree root

theorem floorRoot_pow (degree : 0 < k) (m : Nat) : floorRoot (m ^ k) k = m := by
  obtain ⟨low, greatest⟩ := floorRoot_floor (n := m ^ k) degree
  exact le_antisymm ((Nat.pow_le_pow_iff_left degree.ne').mp low) (greatest m le_rfl)

theorem exactRoot?_pow (degree : 0 < k) (m : Nat) : exactRoot? ((m ^ k : Nat) : Int) k = some (m : Int) := by
  have valid : ¬ (((m ^ k : Nat) : Int) < 0 ∨ (k : Int) < 1) := by omega
  have root : (floorRoot (m ^ k) k).pow k = m ^ k := by
    rw [floorRoot_pow degree]
    rfl
  rw [exactRoot?, if_neg valid, Int.toNat_natCast, Int.toNat_natCast]
  dsimp only
  rw [if_pos root, floorRoot_pow degree]

theorem pow_of_exactRoot? {n k r : Int} (found : exactRoot? n k = some r) :
    0 ≤ n ∧ 1 ≤ k ∧ 0 ≤ r ∧ r ^ k.toNat = n := by
  unfold exactRoot? at found
  split at found
  · cases found
  · next valid =>
    dsimp only at found
    split at found
    · next power =>
      cases found
      change floorRoot n.toNat k.toNat ^ k.toNat = n.toNat at power
      refine ⟨by omega, by omega, Int.natCast_nonneg _, ?_⟩
      rw [← Int.natCast_pow, power]
      omega
    · cases found

section Run

/-- A run of the iteration from `x` on: it goes down in each of its rounds, and the step after the last
one does not. No step divides by zero. -/
structure NewtonRun (n k x rounds : Nat) : Prop where
  positive : ∀ i ≤ rounds, 0 < (newtonStep n k)^[i] x
  descends : ∀ i < rounds, (newtonStep n k)^[i + 1] x < (newtonStep n k)^[i] x
  stops : (newtonStep n k)^[rounds] x ≤ (newtonStep n k)^[rounds + 1] x
  result : newtonRoot n k x = (newtonStep n k)^[rounds] x

/-- A run from the next number is continued to the one before it. -/
theorem NewtonRun.before {rounds : Nat} (run : NewtonRun n k (newtonStep n k x) rounds) (positive : 0 < x)
    (lower : newtonStep n k x < x) : NewtonRun n k x (rounds + 1) where
  positive i within := by
    cases i with
    | zero => exact positive
    | succ i => exact run.positive i (by omega)
  descends i within := by
    cases i with
    | zero => exact lower
    | succ i => exact run.descends i (by omega)
  stops := run.stops
  result := by
    rw [newtonRoot, if_pos lower]
    exact run.result

/-- From a number that is not below the root the iteration ends. -/
theorem newtonRoot_run (degree : 0 < k) (radicand : 0 < n) (above : ∀ a, a ^ k ≤ n → a ≤ x) :
    ∃ rounds, NewtonRun n k x rounds := by
  have unit : 1 ^ k ≤ n := by
    rw [one_pow]
    exact radicand
  fun_induction newtonRoot n k x with
  | case1 x lower ih =>
    have positive : 0 < x := above 1 unit
    obtain ⟨rounds, run⟩ := ih fun a root => le_newtonStep degree positive root
    exact ⟨rounds + 1, run.before positive lower⟩
  | case2 x stopped =>
    refine ⟨0, fun i within => ?_, fun i within => absurd within i.not_lt_zero, not_lt.mp stopped, ?_⟩
    · rw [Nat.le_zero.mp within]
      exact above 1 unit
    · rw [newtonRoot, if_neg stopped]
      rfl

/-- The whole part of a root is where the run of the iteration ends. -/
theorem floorRoot_run (degree : 0 < k) (radicand : 2 ≤ n) : ∃ rounds,
    NewtonRun n k (newtonStart n k) rounds ∧
      floorRoot n k = (newtonStep n k)^[rounds] (newtonStart n k) := by
  obtain ⟨rounds, run⟩ :=
    newtonRoot_run degree (by omega : 0 < n) fun a root => root_le_start degree root
  refine ⟨rounds, run, ?_⟩
  rw [floorRoot, if_neg (by omega)]
  exact run.result

end Run

/-- Newton's iteration ends wherever it is entered, and a root of the given degree is found exactly if there
is one. -/
theorem exactRoot?_exact (n k : Int) :
    (2 ≤ n → 1 ≤ k → ∃ rounds, NewtonRun n.toNat k.toNat (newtonStart n.toNat k.toNat) rounds ∧
      floorRoot n.toNat k.toNat = (newtonStep n.toNat k.toNat)^[rounds] (newtonStart n.toNat k.toNat)) ∧
    ∀ r, exactRoot? n k = some r ↔ 0 ≤ n ∧ 1 ≤ k ∧ 0 ≤ r ∧ r ^ k.toNat = n := by
  constructor
  · exact fun radicand degree => floorRoot_run (by omega) (by omega)
  · intro r
    refine ⟨pow_of_exactRoot?, ?_⟩
    rintro ⟨-, degree, nonneg, power⟩
    obtain ⟨m, rfl⟩ := Int.eq_ofNat_of_zero_le nonneg
    obtain ⟨j, rfl⟩ := Int.eq_ofNat_of_zero_le (zero_le_one.trans degree)
    rw [Int.toNat_natCast, ← Int.natCast_pow] at power
    rw [← power]
    exact exactRoot?_pow (by omega) m

/-- The cube root of 27 is three, found by a run of the iteration; -27 has none that is looked for. -/
theorem exactRoot?_exact_cube :
    (∃ rounds, NewtonRun 27 3 (newtonStart 27 3) rounds) ∧ exactRoot? 27 3 = some 3 ∧
      exactRoot? (-27) 3 ≠ some (-3) := by
  obtain ⟨runs, exact_iff⟩ := exactRoot?_exact 27 3
  obtain ⟨rounds, run, -⟩ := runs (by decide) (by decide)
  refine ⟨⟨rounds, run⟩, (exact_iff 3).mpr (by decide), ?_⟩
  rw [Ne, (exactRoot?_exact (-27) 3).2]
  decide

end ComputerAlgebra

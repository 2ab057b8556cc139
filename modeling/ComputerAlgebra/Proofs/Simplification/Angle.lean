import ComputerAlgebra.Proofs.Rational.Value
import ComputerAlgebra.Simplification.Angle
import Mathlib

/-!
The exact values of the circular functions. An expression of fractions, π and square roots is read in the real
numbers, and a function of a multiple of π has its exact value there, except at its poles and at the multiples
with a denominator other than 1, 2, 3, 4 and 6.
-/

namespace ComputerAlgebra

noncomputable def Circular.realValue? : Circular → ℝ → Option ℝ
  | .sin, x => some (Real.sin x)
  | .cos, x => some (Real.cos x)
  | .tan, x => if Real.cos x = 0 then none else some (Real.sin x / Real.cos x)
  | .cotan, x => if Real.sin x = 0 then none else some (Real.cos x / Real.sin x)
  | .sec, x => if Real.cos x = 0 then none else some (1 / Real.cos x)
  | .cosec, x => if Real.sin x = 0 then none else some (1 / Real.sin x)
  | _, _ => none

namespace Expr

/-- The real number that fractions, π and square roots make by products and quotients. -/
noncomputable def realValue? : Expr → Option ℝ
  | .num z => z.rational?.map fun q : ℚ => (q : ℝ)
  | .var x => if x = "pi" then some Real.pi else none
  | .binary .mul a b => (realValue? a).bind fun x => (realValue? b).map fun y => x * y
  | .binary .div a b => (realValue? a).bind fun x => (realValue? b).bind fun y => if y = 0 then none else some (x / y)
  | .binary .pow a b => (realValue? a).bind fun x => if b = half ∧ 0 ≤ x then some (Real.sqrt x) else none
  | _ => none

section Values
variable {a b : Expr} {x y : ℝ}

theorem realValue?_ofRat (q : ℚ) : realValue? (.num (Number.ofRat q)) = some (q : ℝ) := rfl

theorem realValue?_ofInt (n : ℤ) : realValue? (.num (Number.ofInt n)) = some (n : ℝ) :=
  congrArg some (Rat.cast_intCast n)

theorem realValue?_ofNat (n : ℕ) : realValue? (OfNat.ofNat n) = some (n : ℝ) :=
  congrArg some (Rat.cast_natCast n)

theorem realValue?_mul (left : a.realValue? = some x) (right : b.realValue? = some y) :
    realValue? (.binary .mul a b) = some (x * y) := by
  simp [realValue?, left, right]

theorem realValue?_div (left : a.realValue? = some x) (right : b.realValue? = some y) (apart : y ≠ 0) :
    realValue? (.binary .div a b) = some (x / y) := by
  simp [realValue?, left, right, apart]

theorem realValue?_of_rational {q : ℚ} (fraction : a.rational? = some q) : a.realValue? = some (q : ℝ) := by
  rw [rational?_eq_some.mp fraction]
  rfl

/-- What is recognised as a multiple of π is that multiple. -/
theorem realValue?_piMultiple (e : Expr) :
    ∀ {q : ℚ}, e.piMultiple? = some q → e.realValue? = some (q * Real.pi) := by
  fun_induction piMultiple? e with
  | case1 => rintro q ⟨⟩; simp [realValue?]
  | case2 => rintro q ⟨⟩
  | case3 a b p left ih =>
    intro q found
    obtain ⟨r, multiple, rfl⟩ := Option.map_eq_some_iff.mp found
    rw [realValue?_mul (realValue?_of_rational left) (ih multiple)]
    push_cast
    ring_nf
  | case4 a b p right left ih =>
    intro q found
    obtain ⟨r, multiple, rfl⟩ := Option.map_eq_some_iff.mp found
    rw [realValue?_mul (ih multiple) (realValue?_of_rational right)]
    push_cast
    ring_nf
  | case5 => rintro q ⟨⟩
  | case6 => rintro q ⟨⟩
  | case7 a b p right apart ih =>
    intro q found
    obtain ⟨r, multiple, rfl⟩ := Option.map_eq_some_iff.mp found
    rw [realValue?_div (ih multiple) (realValue?_of_rational right) (by exact_mod_cast apart)]
    push_cast
    ring_nf
  | case8 => rintro q ⟨⟩
  | case9 => rintro q ⟨⟩

theorem realValue?_rootOver (n : ℕ) {d : ℕ} (positive : d ≠ 0) :
    realValue? (rootOver n d) = some (Real.sqrt n / d) := by
  have root : realValue? (sqrt (.num (Number.ofInt n))) = some (Real.sqrt n) := by
    rw [sqrt, realValue?, realValue?_ofInt]
    simp
  unfold rootOver
  split
  · next one => simp [root, one]
  · exact realValue?_div root (realValue?_ofInt d) (by exact_mod_cast positive)

/-- A tree has a value, and only the number zero has the value zero. -/
structure IsExactly (v : Expr) (x : ℝ) : Prop where
  value : v.realValue? = some x
  zero : x = 0 → v = 0

theorem IsExactly.opposite (exactly : a.IsExactly x) : (oppositeValue a).IsExactly (-x) where
  value := by
    unfold oppositeValue
    split
    · next q fraction =>
      obtain rfl : (q : ℝ) = x := Option.some.inj ((realValue?_of_rational fraction).symm.trans exactly.value)
      simp [realValue?_ofRat]
    · rw [minusOne, realValue?_mul (realValue?_ofInt (-1)) exactly.value]
      simp
  zero none := by
    rw [exactly.zero (neg_eq_zero.mp none)]
    decide

theorem IsExactly.reciprocal?_eq_none (exactly : a.IsExactly x) : reciprocal? a = none ↔ x = 0 := by
  constructor
  · intro refused
    unfold reciprocal? at refused
    split at refused
    · next z =>
      obtain ⟨q, fraction, same⟩ := Option.map_eq_some_iff.mp exactly.value
      rw [fraction, Option.bind_some, ite_eq_left_iff] at refused
      rw [← same, Rat.cast_eq_zero]
      by_contra apart
      cases refused apart
    · cases refused
  · intro zero
    rw [exactly.zero zero]
    decide

theorem IsExactly.reciprocal (exactly : a.IsExactly x) (found : reciprocal? a = some b) :
    b.realValue? = some (1 / x) := by
  have apart : x ≠ 0 := fun zero => by
    rw [exactly.reciprocal?_eq_none.mpr zero] at found
    cases found
  unfold reciprocal? at found
  split at found
  · next z =>
    obtain ⟨q, fraction, rfl⟩ := Option.map_eq_some_iff.mp exactly.value
    rw [fraction, Option.bind_some, if_neg (by exact_mod_cast apart)] at found
    cases found
    simp [realValue?_ofRat]
  · cases found
    exact realValue?_div (by simpa using realValue?_ofNat 1) exactly.value apart

end Values

/-! ### Steps of π/12 -/

abbrev exactDenominators : List ℕ := [1, 2, 3, 4, 6]

/-- A multiple of π in whole steps of π/12, an even number of them or one that three divides. -/
theorem twelfths_whole {q : ℚ} (covered : q.den ∈ exactDenominators) :
    ∃ k : ℤ, q * 12 = k ∧ (k % 2 = 0 ∨ k % 3 = 0) := by
  have parts : q * 12 = q.num / q.den * 12 := by rw [Rat.num_div_den]
  simp only [exactDenominators, List.mem_cons, List.not_mem_nil, or_false] at covered
  rcases covered with one | two | three | four | six
  · refine ⟨q.num * 12, ?_, by omega⟩
    rw [parts, one]; push_cast; ring
  · refine ⟨q.num * 6, ?_, by omega⟩
    rw [parts, two]; push_cast; ring
  · refine ⟨q.num * 4, ?_, by omega⟩
    rw [parts, three]; push_cast; ring
  · refine ⟨q.num * 3, ?_, by omega⟩
    rw [parts, four]; push_cast; ring
  · refine ⟨q.num * 2, ?_, by omega⟩
    rw [parts, six]; push_cast; ring

/-- A multiple of π with an exact value is a number of steps of π/12, which is what is reduced to one period. -/
theorem twelfths?_eq_some {angle : Expr} {q : ℚ} (multiple : angle.piMultiple? = some q)
    (covered : q.den ∈ exactDenominators) : ∃ k : ℤ, (q : ℝ) * Real.pi = k * (Real.pi / 12) ∧
      (k % 2 = 0 ∨ k % 3 = 0) ∧
      ∀ period shift, twelfths? angle period shift = some ((k + shift) % period).toNat := by
  obtain ⟨k, whole, parity⟩ := twelfths_whole covered
  have real : (q : ℝ) * 12 = k := by exact_mod_cast congrArg (fun r : ℚ => (r : ℝ)) whole
  refine ⟨k, by rw [← real]; ring, parity, fun period shift => ?_⟩
  have listed : [1, 2, 3, 4, 6].contains q.den = true := List.contains_iff_mem.mpr covered
  simp only [twelfths?, multiple, listed, if_true, whole, Rat.num_intCast]

theorem twelfths?_eq_none {angle : Expr} {q : ℚ} (multiple : angle.piMultiple? = some q)
    (uncovered : q.den ∉ exactDenominators) (period shift : ℤ) : twelfths? angle period shift = none := by
  have listed : ¬ [1, 2, 3, 4, 6].contains q.den = true := fun among => uncovered (List.contains_iff_mem.mp among)
  simp only [twelfths?, multiple, listed]
  rfl

theorem sin_period (k : ℤ) : Real.sin ((k % 24 : ℤ) * (Real.pi / 12)) = Real.sin (k * (Real.pi / 12)) := by
  conv_rhs => rw [← Int.emod_add_mul_ediv k 24]
  rw [← Real.sin_add_int_mul_two_pi _ (k / 24)]
  push_cast
  ring_nf

theorem tan_period (k : ℤ) : Real.tan ((k % 12 : ℤ) * (Real.pi / 12)) = Real.tan (k * (Real.pi / 12)) := by
  conv_rhs => rw [← Int.emod_add_mul_ediv k 12]
  rw [← Real.tan_add_int_mul_pi _ (k / 12)]
  push_cast
  ring_nf

theorem cos_steps_eq_zero {k : ℤ} : Real.cos (k * (Real.pi / 12)) = 0 ↔ k % 12 = 6 := by
  have scale (m : ℤ) : (k : ℝ) * (Real.pi / 12) = (2 * m + 1) * Real.pi / 2 ↔ k = 6 * (2 * m + 1) := by
    constructor
    · intro same
      have real : (k : ℝ) = 6 * (2 * m + 1) := mul_right_cancel₀ Real.pi_ne_zero (by linarith)
      exact_mod_cast real
    · intro same
      rw [same]; push_cast; ring
  simp only [Real.cos_eq_zero_iff, scale]
  exact ⟨fun ⟨m, same⟩ => by omega, fun residue => ⟨k / 12, by omega⟩⟩

theorem sin_steps_eq_zero {k : ℤ} : Real.sin (k * (Real.pi / 12)) = 0 ↔ k % 12 = 0 := by
  have scale (m : ℤ) : m * Real.pi = k * (Real.pi / 12) ↔ 12 * m = k := by
    constructor
    · intro same
      have real : 12 * (m : ℝ) = k := mul_right_cancel₀ Real.pi_ne_zero (by linarith)
      exact_mod_cast real
    · intro same
      rw [← same]; push_cast; ring
  simp only [Real.sin_eq_zero_iff, scale]
  exact ⟨fun ⟨m, same⟩ => by omega, fun residue => ⟨k / 12, by omega⟩⟩

/-! ### The tables -/

theorem isExactly_zero : IsExactly 0 0 := ⟨by simpa using realValue?_ofNat 0, fun _ => rfl⟩

theorem IsExactly.of_pos {v : Expr} {x y : ℝ} (value : v.realValue? = some x) (same : y = x) (positive : 0 < x) :
    v.IsExactly y where
  value := by rw [value, same]
  zero none := absurd (same ▸ none) positive.ne'

/-- The table holds the sines of the first quadrant. -/
theorem sineTable?_exact {n : ℕ} (quadrant : n ≤ 6) (parity : n % 2 = 0 ∨ n % 3 = 0) :
    ∃ v, sineTable? n = some v ∧ v.IsExactly (Real.sin (n * (Real.pi / 12))) := by
  interval_cases n
  · exact ⟨_, rfl, by simpa using isExactly_zero⟩
  · omega
  · have angle : ((2 : ℕ) : ℝ) * (Real.pi / 12) = Real.pi / 6 := by push_cast; ring
    exact ⟨_, rfl, .of_pos (realValue?_ofRat _) (by rw [angle, Real.sin_pi_div_six]; norm_num) (by norm_num)⟩
  · have angle : ((3 : ℕ) : ℝ) * (Real.pi / 12) = Real.pi / 4 := by push_cast; ring
    exact ⟨_, rfl, .of_pos (realValue?_rootOver 2 two_ne_zero) (by rw [angle, Real.sin_pi_div_four]; norm_num)
      (by positivity)⟩
  · have angle : ((4 : ℕ) : ℝ) * (Real.pi / 12) = Real.pi / 3 := by push_cast; ring
    exact ⟨_, rfl, .of_pos (realValue?_rootOver 3 two_ne_zero) (by rw [angle, Real.sin_pi_div_three]; norm_num)
      (by positivity)⟩
  · omega
  · have angle : ((6 : ℕ) : ℝ) * (Real.pi / 12) = Real.pi / 2 := by push_cast; ring
    exact ⟨_, rfl, .of_pos (realValue?_ofRat 1) (by rw [angle, Real.sin_pi_div_two]; norm_num) (by norm_num)⟩

/-- The table holds the tangents of the first quadrant, which ends in a pole. -/
theorem tangentTable?_exact {n : ℕ} (quadrant : n < 6) (parity : n % 2 = 0 ∨ n % 3 = 0) :
    ∃ v, tangentTable? n = some v ∧ v.IsExactly (Real.tan (n * (Real.pi / 12))) := by
  interval_cases n
  · exact ⟨_, rfl, by simpa using isExactly_zero⟩
  · omega
  · have angle : ((2 : ℕ) : ℝ) * (Real.pi / 12) = Real.pi / 6 := by push_cast; ring
    have root : 1 / Real.sqrt 3 = Real.sqrt 3 / 3 := by
      rw [div_eq_div_iff (by positivity) (by norm_num), one_mul, Real.mul_self_sqrt (by norm_num)]
    exact ⟨_, rfl, .of_pos (realValue?_rootOver 3 three_ne_zero) (by rw [angle, Real.tan_pi_div_six, root]; norm_num)
      (by positivity)⟩
  · have angle : ((3 : ℕ) : ℝ) * (Real.pi / 12) = Real.pi / 4 := by push_cast; ring
    exact ⟨_, rfl, .of_pos (realValue?_ofRat 1) (by rw [angle, Real.tan_pi_div_four]; norm_num) (by norm_num)⟩
  · have angle : ((4 : ℕ) : ℝ) * (Real.pi / 12) = Real.pi / 3 := by push_cast; ring
    exact ⟨_, rfl, .of_pos (realValue?_rootOver 3 one_ne_zero) (by rw [angle, Real.tan_pi_div_three]; norm_num)
      (by positivity)⟩
  · omega

/-- The tangents of a period, the pole excepted, by reflection at it. -/
theorem tangentAt?_exact {n : ℕ} (period : n < 12) (apart : n ≠ 6) (parity : n % 2 = 0 ∨ n % 3 = 0) :
    ∃ v, tangentAt? n = some v ∧ v.IsExactly (Real.tan (n * (Real.pi / 12))) := by
  unfold tangentAt?
  rw [if_neg apart]
  split
  · obtain ⟨v, found, exactly⟩ := tangentTable?_exact (n := 12 - n) (by omega) (by omega)
    have reflected : Real.tan (n * (Real.pi / 12)) = -Real.tan ((12 - n : ℕ) * (Real.pi / 12)) := by
      rw [← Real.tan_pi_sub, Nat.cast_sub period.le]
      push_cast
      ring_nf
    rw [found, reflected]
    exact ⟨_, rfl, exactly.opposite⟩
  · exact tangentTable?_exact (by omega) parity

/-- The sine of a moved angle, by reflection at the right angle and at half of the period. -/
theorem shiftedSine?_exact {angle : Expr} {shift k : ℤ} (parity : k % 2 = 0 ∨ k % 3 = 0)
    (steps : twelfths? angle 24 shift = some (k % 24).toNat) :
    ∃ v, shiftedSine? angle shift = some v ∧ v.IsExactly (Real.sin (k * (Real.pi / 12))) := by
  have residue : ((k % 24).toNat : ℤ) = k % 24 := by omega
  rw [← sin_period, ← residue, Int.cast_natCast]
  generalize (k % 24).toNat = n at steps residue
  have upper {m : ℕ} (half : m ≤ 12) (parity : m % 2 = 0 ∨ m % 3 = 0) :
      ∃ v, sineTable? (if 6 < m then 12 - m else m) = some v ∧ v.IsExactly (Real.sin (m * (Real.pi / 12))) := by
    split
    · have reflected : Real.sin (m * (Real.pi / 12)) = Real.sin ((12 - m : ℕ) * (Real.pi / 12)) := by
        rw [← Real.sin_pi_sub, Nat.cast_sub half]
        push_cast
        ring_nf
      rw [reflected]
      exact sineTable?_exact (by omega) (by omega)
    · exact sineTable?_exact (by omega) parity
  simp only [shiftedSine?, steps, Option.bind_eq_bind, Option.bind_some]
  by_cases below : 12 < n
  · obtain ⟨v, found, exactly⟩ := upper (m := n - 12) (by omega) (by omega)
    have reflected : Real.sin (n * (Real.pi / 12)) = -Real.sin ((n - 12 : ℕ) * (Real.pi / 12)) := by
      rw [← Real.sin_add_pi, Nat.cast_sub below.le]
      push_cast
      ring_nf
    simp only [below, if_true, found, Option.bind_some, reflected]
    exact ⟨_, rfl, exactly.opposite⟩
  · obtain ⟨v, found, exactly⟩ := upper (m := n) (by omega) (by omega)
    simp only [below, if_false, found, Option.bind_some]
    exact ⟨_, rfl, exactly⟩

/-- What is offered for the value of a function at a number: its exact value, and nothing where there is none. -/
def OffersExactly (offer : Option Expr) (value : Option ℝ) : Prop :=
  Option.Rel (fun v x => v.realValue? = some x) offer value

theorem IsExactly.offered_reciprocal {v : Expr} {x : ℝ} (exactly : v.IsExactly x) :
    OffersExactly (reciprocal? v) (if x = 0 then none else some (1 / x)) := by
  by_cases zero : x = 0
  · rw [exactly.reciprocal?_eq_none.mpr zero, if_pos zero]
    exact .none
  · obtain ⟨w, found⟩ := Option.ne_none_iff_exists'.mp (mt exactly.reciprocal?_eq_none.mp zero)
    rw [found, if_neg zero]
    exact .some (exactly.reciprocal found)

section Covered
variable {angle : Expr} {k : ℤ} (parity : k % 2 = 0 ∨ k % 3 = 0)
  (steps : ∀ period shift, twelfths? angle period shift = some ((k + shift) % period).toNat)
include parity steps

theorem exactSin?_exact : ∃ v, exactSin? angle = some v ∧ v.IsExactly (Real.sin (k * (Real.pi / 12))) :=
  shiftedSine?_exact parity (by simpa using steps 24 0)

theorem exactCos?_exact : ∃ v, exactCos? angle = some v ∧ v.IsExactly (Real.cos (k * (Real.pi / 12))) := by
  have moved : Real.cos (k * (Real.pi / 12)) = Real.sin ((k + 6 : ℤ) * (Real.pi / 12)) := by
    rw [← Real.sin_add_pi_div_two]
    push_cast
    ring_nf
  rw [moved]
  exact shiftedSine?_exact (by omega) (steps 24 6)

theorem exactTan?_offered : OffersExactly (exactTan? angle) (Circular.tan.realValue? (k * (Real.pi / 12))) := by
  have found : exactTan? angle = tangentAt? (k % 12).toNat := by
    rw [exactTan?, steps 12 0, Option.bind_some, add_zero]
  simp only [found, Circular.realValue?, cos_steps_eq_zero]
  by_cases pole : k % 12 = 6
  · rw [pole]
    exact .none
  · obtain ⟨v, offer, exactly⟩ := tangentAt?_exact (n := (k % 12).toNat) (by omega) (by omega) (by omega)
    have residue : ((k % 12).toNat : ℤ) = k % 12 := by omega
    rw [offer, if_neg pole, ← Real.tan_eq_sin_div_cos, ← tan_period, ← residue, Int.cast_natCast]
    exact .some exactly.value

theorem exactCotan?_offered : OffersExactly (exactCotan? angle) (Circular.cotan.realValue? (k * (Real.pi / 12))) := by
  have found : exactCotan? angle = tangentAt? ((18 - (k % 12).toNat) % 12) := by
    rw [exactCotan?, steps 12 0, Option.bind_some, add_zero]
  simp only [found, Circular.realValue?, sin_steps_eq_zero]
  by_cases pole : k % 12 = 0
  · rw [pole]
    exact .none
  · obtain ⟨v, offer, exactly⟩ :=
      tangentAt?_exact (n := (18 - (k % 12).toNat) % 12) (by omega) (by omega) (by omega)
    have residue : (((18 - (k % 12).toNat) % 12 : ℕ) : ℤ) = (6 - k) % 12 := by omega
    have lacking : Real.cos (k * (Real.pi / 12)) / Real.sin (k * (Real.pi / 12))
        = Real.tan ((6 - k : ℤ) * (Real.pi / 12)) := by
      rw [← Real.cot_eq_cos_div_sin, ← Real.tan_inv_eq_cot, ← Real.tan_pi_div_two_sub]
      push_cast
      ring_nf
    rw [offer, if_neg pole, lacking, ← tan_period, ← residue, Int.cast_natCast]
    exact .some exactly.value

theorem exactCircular?_offered {f : Circular} (direct : f ∈ [Circular.sin, .cos, .tan, .cotan, .sec, .cosec]) :
    OffersExactly (exactCircular? f angle) (f.realValue? (k * (Real.pi / 12))) := by
  obtain ⟨sine, foundSine, exactSine⟩ := exactSin?_exact parity steps
  obtain ⟨cosine, foundCosine, exactCosine⟩ := exactCos?_exact parity steps
  simp only [List.mem_cons, List.not_mem_nil, or_false] at direct
  rcases direct with rfl | rfl | rfl | rfl | rfl | rfl <;> unfold exactCircular?
  · rw [foundSine]
    exact .some exactSine.value
  · rw [foundCosine]
    exact .some exactCosine.value
  · exact exactTan?_offered parity steps
  · exact exactCotan?_offered parity steps
  · rw [foundCosine]
    exact exactCosine.offered_reciprocal
  · rw [foundSine]
    exact exactSine.offered_reciprocal

end Covered

theorem exactCircular?_eq_none {e : Expr} {q : ℚ} (multiple : e.piMultiple? = some q)
    (uncovered : q.den ∉ exactDenominators) (f : Circular) : exactCircular? f e = none := by
  have steps := twelfths?_eq_none multiple uncovered
  cases f <;> simp [exactCircular?, exactSin?, exactCos?, exactTan?, exactCotan?, shiftedSine?, steps]

/-- A recognised multiple of π is that multiple. A tree that is offered for a circular function of it has the
value of the function there, and nothing is offered exactly when the denominator of the multiple is not 1, 2, 3,
4 or 6 or the function has a pole there. -/
theorem exact_circular_value {e : Expr} {q : ℚ} (multiple : e.piMultiple? = some q) :
    e.realValue? = some (q * Real.pi) ∧ ∀ f ∈ [Circular.sin, .cos, .tan, .cotan, .sec, .cosec],
      (∀ v, exactCircular? f e = some v →
        ∃ x, v.realValue? = some x ∧ f.realValue? (q * Real.pi) = some x) ∧
      (exactCircular? f e = none ↔ q.den ∉ exactDenominators ∨ f.realValue? (q * Real.pi) = none) := by
  refine ⟨realValue?_piMultiple e multiple, fun f direct => ?_⟩
  by_cases covered : q.den ∈ exactDenominators
  · obtain ⟨k, angle, parity, steps⟩ := twelfths?_eq_some multiple covered
    have offered := exactCircular?_offered parity steps direct
    rw [angle]
    cases offer : exactCircular? f e <;> cases value : f.realValue? (k * (Real.pi / 12)) <;>
      rw [offer, value] at offered <;> cases offered
    · simp
    · next v x same => simp_all
  · simp [exactCircular?_eq_none multiple covered f, covered]

/-- The secant of minus three quarters of π, written as a quotient of products. -/
theorem exact_circular_value_sec :
    piMultiple? (.binary .div (.binary .mul (.num (Number.ofRat (-3))) (.var "pi")) 4) = some (-3 / 4) ∧
      ∃ x, realValue? (.binary .div 1 (.binary .mul minusOne (rootOver 2 2))) = some x ∧
        Circular.sec.realValue? ((-3 / 4 : ℚ) * Real.pi) = some x := by
  have multiple : piMultiple? (.binary .div (.binary .mul (.num (Number.ofRat (-3))) (.var "pi")) 4) =
      some (-3 / 4) := by decide +kernel
  exact ⟨multiple, ((exact_circular_value multiple).2 .sec (by decide)).1 _ (by decide +kernel)⟩

end Expr
end ComputerAlgebra

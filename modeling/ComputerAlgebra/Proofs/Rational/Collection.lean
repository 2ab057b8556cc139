import ComputerAlgebra.Proofs.Rational.Reduction
import ComputerAlgebra.Proofs.Simplification.Pass
import Mathlib.Tactic.FieldSimp

/-!
The rules that collect like terms, settle signs, merge powers and flatten quotients. Each keeps the
value of a rational expression wherever it has one; where a rule asks for a proof that something is
not zero, the proof is what keeps the result defined.
-/

namespace ComputerAlgebra.Expr

variable {c : Config} {ρ : Assignment} {v : Rat}

section LikeTerms

theorem splitFactor_value {e : Expr} (value : valueAt? ρ e = some v) :
    ∃ k x, (splitFactor e).1 = .ofRat k ∧ valueAt? ρ (splitFactor e).2 = some x ∧ v = k * x := by
  have whole : ∃ k x, (1 : Number) = .ofRat k ∧ valueAt? ρ e = some x ∧ v = k * x :=
    ⟨1, v, rfl, value, (one_mul v).symm⟩
  unfold splitFactor
  split
  · next z b =>
    split
    · obtain ⟨k, coefficient, x, rest, rfl⟩ := valueAt?_mul.mp value
      exact ⟨k, x, valueAt?_num.mp coefficient, rest, rfl⟩
    · exact whole
  · exact whole

theorem scaled_value {e : Expr} {k x : Rat} (value : valueAt? ρ e = some x) :
    valueAt? ρ (scaled (.ofRat k) e) = some (k * x) := by
  unfold scaled
  split
  · next zero =>
    rw [Number.ofRat_isZero.mp zero, zero_mul]
    exact valueAt?_zero.mpr rfl
  split
  · next one =>
    have unit : k = 1 := Number.ofRat_injective one
    rw [unit, one_mul]
    exact value
  · exact valueAt?_mul.mpr ⟨k, valueAt?_ofRat.mpr rfl, x, value, rfl⟩

/-- Two multiples of the same thing are combined by their coefficients. -/
theorem collect_value {combine : Number → Number → Computation Number} {op : Rat → Rat → Rat}
    (exact_on : ∀ p q, combine (.ofRat p) (.ofRat q) = pure (.ofRat (op p q)))
    (distributes : ∀ p q x, op p q * x = op (p * x) (q * x)) {a b : Expr} {x y : Rat}
    (left : valueAt? ρ a = some x) (right : valueAt? ρ b = some y) :
    Keeps ρ (op x y) (
      let (m, x) := splitFactor a
      let (n, y) := splitFactor b
      if a.isNumber || b.isNumber || x ≠ y then return none
      else return some (scaled (← combine m n) x)) := by
  obtain ⟨m, x', first, value, rfl⟩ := splitFactor_value left
  obtain ⟨n, y', second, value', rfl⟩ := splitFactor_value right
  dsimp only
  split
  · exact Keeps.none
  · next alike =>
    have same : (splitFactor a).2 = (splitFactor b).2 := by
      by_contra different
      simp [different] at alike
    rw [same, value'] at value
    cases value
    rw [first, second, exact_on, pure_bind, same, ← distributes]
    exact Keeps.some (scaled_value value')

theorem likeTerms?_value {op : BinaryOp} {a b : Expr}
    (value : valueAt? ρ (.binary op a b) = some v) :
    Keeps ρ v (likeTerms? c (.binary op a b)) := by
  cases op with
  | sum =>
    obtain ⟨x, left, y, right, rfl⟩ := valueAt?_sum.mp value
    exact collect_value (fun p q => Number.add_ofValue c (some p) (some q)) add_mul left right
  | minus =>
    obtain ⟨x, left, y, right, rfl⟩ := valueAt?_minus.mp value
    exact collect_value (fun p q => Number.sub_ofValue c (some p) (some q)) sub_mul left right
  | mul | div | pow => exact Keeps.none
  | log | and | or | xor | implies | equals | order | mem => simp [valueAt?] at value

end LikeTerms

section Signs

theorem opposite?_value {e x : Expr} (found : opposite? e = some x)
    (value : valueAt? ρ e = some v) : valueAt? ρ x = some (-v) := by
  unfold opposite? at found
  split at found
  · next m y =>
    simp only [Option.ite_none_right_eq_some, Option.some.injEq] at found
    obtain ⟨one, rfl⟩ := found
    obtain ⟨k, first, w, rest, rfl⟩ := valueAt?_mul.mp value
    rw [isMinusOne_iff.mp one] at first
    rw [valueAt?_minusOne.mp first, neg_one_mul, neg_neg]
    exact rest
  · cases found

theorem negativeNumber?_value {e : Expr} {r : RealNumber} (found : negativeNumber? e = some r)
    (value : valueAt? ρ e = some v) : r = .rational v := by
  unfold negativeNumber? at found
  split at found
  · simp only [Option.ite_none_right_eq_some, Option.some.injEq] at found
    obtain ⟨-, rfl⟩ := found
    have same := valueAt?_num.mp value
    simpa [Number.ofRat] using same
  · cases found

theorem signs?_value {op : BinaryOp} {a b : Expr}
    (value : valueAt? ρ (.binary op a b) = some v) : Keeps ρ v (signs? (.binary op a b)) := by
  cases op with
  | sum =>
    obtain ⟨x, left, y, right, rfl⟩ := valueAt?_sum.mp value
    simp only [signs?]
    split
    · next t found =>
      apply Keeps.some
      exact valueAt?_minus.mpr ⟨x, left, -y, opposite?_value found right, sub_neg_eq_add x y⟩
    · next r found =>
      rw [negativeNumber?_value found right, RealNumber.neg_rational, pure_bind]
      apply Keeps.some
      exact valueAt?_minus.mpr ⟨x, left, -y, valueAt?_ofRat.mpr rfl, sub_neg_eq_add x y⟩
    · next t found =>
      apply Keeps.some
      refine valueAt?_minus.mpr ⟨y, right, -x, opposite?_value found left, ?_⟩
      rw [sub_neg_eq_add, add_comm]
    · exact Keeps.none
  | minus =>
    obtain ⟨x, left, y, right, rfl⟩ := valueAt?_minus.mp value
    simp only [signs?]
    split
    · next t found =>
      apply Keeps.some
      exact valueAt?_sum.mpr
        ⟨x, left, -y, opposite?_value found right, (sub_eq_add_neg x y).symm⟩
    · next r found =>
      rw [negativeNumber?_value found right, RealNumber.neg_rational, pure_bind]
      apply Keeps.some
      exact valueAt?_sum.mpr ⟨x, left, -y, valueAt?_ofRat.mpr rfl, (sub_eq_add_neg x y).symm⟩
    · exact Keeps.none
  | mul =>
    obtain ⟨x, left, y, right, rfl⟩ := valueAt?_mul.mp value
    simp only [signs?]
    split
    · exact Keeps.none
    next unit =>
    have one : a = minusOne := isMinusOne_iff.mp (by simpa using unit)
    rw [one] at left
    rw [valueAt?_minusOne.mp left, neg_one_mul]
    split
    · next t found => exact Keeps.some (opposite?_value found right)
    · next s t _ =>
      obtain ⟨w, first, z, second, rfl⟩ := valueAt?_minus.mp right
      apply Keeps.some
      exact valueAt?_minus.mpr ⟨z, second, w, first, (neg_sub w z).symm⟩
    · exact Keeps.none
  | div | pow => exact Keeps.none
  | log | and | or | xor | implies | equals | order | mem => simp [valueAt?] at value

end Signs

section Powers

theorem splitPower_value {e : Expr} (value : valueAt? ρ e = some v) :
    ∃ k x, (splitPower e).2 = .num (.ofInt k) ∧ valueAt? ρ (splitPower e).1 = some x ∧
      (k < 0 → x ≠ 0) ∧ x ^ k = v := by
  unfold splitPower
  split
  · next a n =>
    obtain ⟨k, rfl, x, base, defined, rfl⟩ := valueAt?_pow.mp value
    exact ⟨k, x, rfl, base, defined, rfl⟩
  · exact ⟨1, v, rfl, value, by omega, zpow_one v⟩

theorem isNonNegative_ofInt {k : Int} : (Expr.num (.ofInt k)).isNonNegative = true ↔ 0 ≤ k := by
  simp [isNonNegative, Number.ofInt, RealNumber.isNaN, RealNumber.isNegative]

/-- The sum of two exponents that are known to be safe, or of any two where the base is not zero. -/
theorem zpow_add_safe {x : Rat} {m n : Int} (safe : x ≠ 0 ∨ 0 ≤ m ∧ 0 ≤ n) :
    x ^ (m + n) = x ^ m * x ^ n := by
  apply zpow_add'
  rcases safe with apart | above
  · exact .inl apart
  · exact .inr (by omega)

theorem add_ofInt (c : Config) (m n : Int) :
    Number.add c (.ofInt m) (.ofInt n) = pure (.ofInt (m + n)) := by
  have added := Number.add_ofValue c (some (m : Rat)) (some (n : Rat))
  simpa [Number.ofValue, Number.ofRat, Number.ofInt] using added

theorem sub_ofInt (c : Config) (m n : Int) :
    Number.sub c (.ofInt m) (.ofInt n) = pure (.ofInt (m - n)) := by
  have subtracted := Number.sub_ofValue c (some (m : Rat)) (some (n : Rat))
  simpa [Number.ofValue, Number.ofRat, Number.ofInt] using subtracted

theorem mul_ofInt (c : Config) (m n : Int) :
    Number.mul c (.ofInt m) (.ofInt n) = pure (.ofInt (m * n)) := by
  have multiplied := Number.mul_ofValue c (some (m : Rat)) (some (n : Rat))
  simpa [Number.ofValue, Number.ofRat, Number.ofInt] using multiplied

section Guarded
variable (all : c.codomain.HoldsFractions)
include all

/-- A power whose exponent is safe, or whose base is shown not to be zero. -/
theorem guardedPower?_value {safe : Bool} {base : Expr} {exponent : Computation Expr} {x : Rat}
    {k : Int} (value : valueAt? ρ base = some x) (computed : exponent = pure (.num (.ofInt k)))
    (known : safe = true → k < 0 → x ≠ 0) (power : safe = true ∨ x ≠ 0 → x ^ k = v) :
    Keeps ρ v (guardedPower? c safe base exponent) := by
  have result (defined : k < 0 → x ≠ 0) (right : x ^ k = v) :
      Keeps ρ v (do return some (.binary .pow base (← exponent))) := by
    rw [computed, pure_bind]
    exact Keeps.some (valueAt?_pow.mpr ⟨k, rfl, x, value, defined, right⟩)
  unfold guardedPower?
  cases safe with
  | true =>
    rw [if_pos rfl, pure_bind]
    exact result (known rfl) (power (.inl rfl))
  | false =>
    rw [if_neg (by simp)]
    refine Returns.bind (nonzero_value all value) ?_
    intro found apart
    dsimp only
    split
    · next yes => exact result (fun _ => apart yes) (power (.inr (apart yes)))
    · exact Keeps.none

theorem mergeProduct_value {a b : Expr} (value : valueAt? ρ (.binary .mul a b) = some v) :
    Keeps ρ v (mergePowers? c (.binary .mul a b)) := by
  obtain ⟨x, left, y, right, rfl⟩ := valueAt?_mul.mp value
  obtain ⟨m, base, first, based, definedm, rfl⟩ := splitPower_value left
  obtain ⟨n, other, second, based', definedn, rfl⟩ := splitPower_value right
  simp only [mergePowers?]
  split
  · exact Keeps.none
  · next alike =>
    have same : (splitPower a).1 = (splitPower b).1 := by
      by_contra different
      simp [different] at alike
    rw [same, based'] at based
    cases based
    rw [same, first, second]
    refine guardedPower?_value all (k := m + n) based' ?_ ?_ ?_
    · simp only [add_ofInt, pure_bind]
    · intro safe below
      simp only [Bool.and_eq_true, isNonNegative_ofInt] at safe
      omega
    · intro known
      apply zpow_add_safe
      simp only [Bool.and_eq_true, isNonNegative_ofInt] at known
      tauto

theorem mergePower_value {a n : Expr} (value : valueAt? ρ (.binary .pow a n) = some v) :
    Keeps ρ v (mergePowers? c (.binary .pow a n)) := by
  obtain ⟨k, rfl, x, inner, defined, rfl⟩ := valueAt?_pow.mp value
  unfold mergePowers?
  split
  · next same => cases same
  · next base p n same =>
    obtain ⟨rfl, rfl⟩ : a = .binary .pow base p ∧ Expr.num (.ofInt k) = n := by
      simpa using same
    obtain ⟨m, rfl, y, based, definedm, rfl⟩ := valueAt?_pow.mp inner
    rw [integer?_eq_some.mpr rfl]
    refine guardedPower?_value all (k := m * k) based ?_ ?_ ?_
    · simp only [mul_ofInt, pure_bind]
    · intro safe below
      simp only [Bool.and_eq_true, isNonNegative_ofInt, decide_eq_true_eq] at safe
      exact absurd (mul_nonneg safe.1 safe.2) (not_le.mpr below)
    · intro _
      exact zpow_mul y m k
  · exact Keeps.none

theorem mergePowers?_value {op : BinaryOp} {a b : Expr}
    (value : valueAt? ρ (.binary op a b) = some v) :
    Keeps ρ v (mergePowers? c (.binary op a b)) := by
  cases op with
  | mul => exact mergeProduct_value all value
  | pow => exact mergePower_value all value
  | sum | minus | div => exact Keeps.none
  | log | and | or | xor | implies | equals | order | mem => simp [valueAt?] at value

end Guarded
end Powers

section Quotients

theorem invertedQuotient?_value {a b : Expr} (value : valueAt? ρ (.binary .div a b) = some v) :
    Keeps ρ v (invertedQuotient? c a b) := by
  obtain ⟨x, left, y, right, apart, rfl⟩ := valueAt?_div.mp value
  unfold invertedQuotient?
  split
  · next s t =>
    obtain ⟨p, above, q, below, regular, rfl⟩ := valueAt?_div.mp right
    have nonzero : p ≠ 0 := by
      rintro rfl
      exact apart (zero_div q)
    refine Returns.bind Returns.trivial fun found _ => ?_
    split
    · apply Keeps.some
      refine valueAt?_div.mpr ⟨x * q, ?_, p, above, nonzero, ?_⟩
      · exact valueAt?_mul.mpr ⟨x, left, q, below, rfl⟩
      · field_simp
    · exact Keeps.none
  · exact Keeps.none

theorem cancelled?_value {a b : Expr} (value : valueAt? ρ (.binary .div a b) = some v) :
    Keeps ρ v (cancelled? c b a) := by
  obtain ⟨x, left, y, right, apart, rfl⟩ := valueAt?_div.mp value
  unfold cancelled?
  split
  · next s t =>
    obtain ⟨p, first, q, second, rfl⟩ := valueAt?_mul.mp left
    refine Returns.bind Returns.trivial fun found _ => ?_
    split
    · exact Keeps.none
    split
    · next same =>
      rw [same, right] at first
      cases first
      apply Keeps.some
      rw [mul_div_cancel_left₀ q apart]
      exact second
    split
    · next same =>
      rw [same, right] at second
      cases second
      apply Keeps.some
      rw [mul_div_cancel_right₀ p apart]
      exact first
    · exact Keeps.none
  · exact Keeps.none

theorem flattenDivision?_value {op : BinaryOp} {a b : Expr}
    (value : valueAt? ρ (.binary op a b) = some v) :
    Keeps ρ v (flattenDivision? c (.binary op a b)) := by
  unfold flattenDivision?
  split
  · next x y b same =>
    cases same
    obtain ⟨_, left, z, right, apart, rfl⟩ := valueAt?_div.mp value
    obtain ⟨p, above, q, below, regular, rfl⟩ := valueAt?_div.mp left
    apply Keeps.some
    refine valueAt?_div.mpr ⟨p, above, q * z, ?_, mul_ne_zero regular apart, ?_⟩
    · exact valueAt?_mul.mpr ⟨q, below, z, right, rfl⟩
    · rw [div_div]
  · next same =>
    cases same
    refine Returns.bind (invertedQuotient?_value value) ?_
    intro r kept
    split
    · next flat => exact Keeps.some (kept flat rfl)
    · exact cancelled?_value value
  · exact Keeps.none

end Quotients

section Passes

theorem powerProduct_value {a b m n : Expr}
    (value : valueAt? ρ (.binary .mul (.binary .pow a m) (.binary .pow b n)) = some v) (same : m = n) :
    valueAt? ρ (.binary .pow (.binary .mul a b) m) = some v := by
  subst same
  obtain ⟨_, left, _, right, rfl⟩ := valueAt?_mul.mp value
  obtain ⟨k, rfl, x, first, definedx, rfl⟩ := valueAt?_pow.mp left
  obtain ⟨l, again, y, second, definedy, rfl⟩ := valueAt?_pow.mp right
  obtain rfl := Number.ofInt_injective (Expr.num.inj again)
  refine valueAt?_pow.mpr ⟨k, rfl, x * y, ?_, ?_, mul_zpow x y k⟩
  · exact valueAt?_mul.mpr ⟨x, first, y, second, rfl⟩
  · intro below
    exact mul_ne_zero (definedx below) (definedy below)

variable (all : c.codomain.HoldsFractions)
include all

theorem commonNode_follows (e : Expr) : Returns (commonNode c e) (Follows ρ e) := by
  cases e with
  | binary op a b =>
    refine follows_of_value fun v value => ?_
    unfold commonNode
    refine firstOf_returns (likeTerms?_value value) ?_
    refine firstOf_returns (signs?_value value) ?_
    refine firstOf_returns (mergePowers?_value all value) ?_
    refine firstOf_returns (flattenDivision?_value value) ?_
    exact Returns.pure value
  | num => exact Returns.pure (Follows.refl _)
  | var => exact Returns.pure (Follows.refl _)
  | bool | unary | lam | app | provided | piecewise | interval =>
    exact Returns.trivial.mono fun r _ => Follows.vacuous (by simp) (by simp [valueAt?])

theorem powerQuotient_value {a b : Expr} (value : valueAt? ρ (.binary .div a b) = some v) :
    Returns (powerNode c (.binary .div a b)) fun r => valueAt? ρ r = some v := by
  obtain ⟨x, left, y, right, apart, rfl⟩ := valueAt?_div.mp value
  obtain ⟨m, base, first, based, definedm, rfl⟩ := splitPower_value left
  obtain ⟨n, other, second, based', definedn, rfl⟩ := splitPower_value right
  simp only [powerNode]
  split
  · next alike =>
    simp only [Bool.and_eq_true, decide_eq_true_eq] at alike
    have same := alike.1.2
    rw [same, based'] at based
    cases based
    rw [same, first, second]
    refine Returns.bind (nonzero_value all based') ?_
    intro found nonzero
    split
    · next yes =>
      simp only [sub_ofInt, pure_bind]
      refine Returns.pure ?_
      exact valueAt?_pow.mpr ⟨m - n, rfl, base, based', fun _ => nonzero yes,
        zpow_sub₀ (nonzero yes) m n⟩
    · exact Returns.pure value
  · exact Returns.pure value

theorem powerNode_follows (e : Expr) : Returns (powerNode c e) (Follows ρ e) := by
  unfold powerNode
  split
  · next a m b n =>
    refine Returns.pure ?_
    split
    · next same =>
      refine ⟨fun z impossible => Expr.noConfusion impossible, fun v value => ?_⟩
      simp only [Bool.and_eq_true, decide_eq_true_eq] at same
      exact powerProduct_value value same.2
    · exact Follows.refl _
  · next a b => exact follows_of_value fun v value => powerQuotient_value all value
  · exact Returns.pure (Follows.refl e)

end Passes

end ComputerAlgebra.Expr

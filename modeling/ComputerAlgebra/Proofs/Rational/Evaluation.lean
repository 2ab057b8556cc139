import ComputerAlgebra.Proofs.Evaluation.Basic
import ComputerAlgebra.Proofs.Expr.Walk
import ComputerAlgebra.Proofs.Rational.Arithmetic
import Mathlib.Algebra.Order.Ring.Cast
import Mathlib.Tactic.Ring

/-!
Evaluation of rational expressions. Wherever an expression has a value, what it evaluates to has the
same value there, and without variables evaluation finds the value itself, or NaN where there is
none.
-/

namespace ComputerAlgebra

def Domain.HoldsFractions (d : Domain) : Prop := ∀ q, Expr.numberFits (.ofRat q) d = true

/-- Only the truth values and the integers leave fractions out. -/
theorem Domain.holdsFractions_iff {d : Domain} :
    d.HoldsFractions ↔ d ≠ .boolean ∧ d ≠ .integer := by
  cases d with
  | boolean => exact ⟨fun all => absurd (all 0) (by decide), fun other => absurd rfl other.1⟩
  | integer => exact ⟨fun all => absurd (all (1 / 2)) (by decide +kernel), fun other => absurd rfl other.2⟩
  | rational | real | complex | any => exact ⟨fun _ => by simp, fun _ _ => rfl⟩

theorem Domain.holdsFractions_complex : Domain.complex.HoldsFractions :=
  holdsFractions_iff.mpr ⟨by decide, by decide⟩

namespace Expr

variable {c : Config} {ρ : Assignment} {v : Rat}

section Facts
variable {e : Expr}

theorem isZero_iff : e.isZero = true ↔ e = 0 := by
  cases e with
  | num z =>
    rcases z with (q | x | s | _) | ⟨re, im⟩ <;>
      simp [isZero, Number.isZero, RealNumber.isZero, OfNat.ofNat]
  | var | bool | unary | binary | lam | app | provided | piecewise | interval =>
    simp [isZero, OfNat.ofNat]

theorem isOne_iff : e.isOne = true ↔ e = 1 := by
  simp [isOne]

theorem isMinusOne_iff : e.isMinusOne = true ↔ e = minusOne := by
  simp [isMinusOne]

theorem whole_isZero {n : Int} : (Expr.num (.ofInt n)).isZero = true ↔ n = 0 := by
  change (Number.ofRat n).isZero = true ↔ n = 0
  rw [Number.ofRat_isZero, Int.cast_eq_zero]

theorem whole_isOne {n : Int} : (Expr.num (.ofInt n)).isOne = true ↔ n = 1 := by
  rw [isOne_iff]
  constructor
  · exact fun same => Number.ofInt_injective (n := 1) (Expr.num.inj same)
  · rintro rfl
    rfl

theorem whole_isMinusOne {n : Int} : (Expr.num (.ofInt n)).isMinusOne = true ↔ n = -1 := by
  rw [isMinusOne_iff]
  constructor
  · exact fun same => Number.ofInt_injective (n := -1) (Expr.num.inj same)
  · rintro rfl
    rfl

theorem valueAt?_ofRat {q : Rat} : valueAt? ρ (.num (.ofRat q)) = some v ↔ v = q := by
  rw [valueAt?_num]
  constructor
  · intro same
    exact (Number.ofRat_injective same).symm
  · rintro rfl
    rfl

@[simp] theorem valueAt?_zero : valueAt? ρ 0 = some v ↔ v = 0 := valueAt?_ofRat

@[simp] theorem valueAt?_one : valueAt? ρ 1 = some v ↔ v = 1 := valueAt?_ofRat

@[simp] theorem valueAt?_minusOne : valueAt? ρ minusOne = some v ↔ v = -1 := valueAt?_ofRat

theorem value_not_nan (value : valueAt? ρ e = some v) : e.isNaN = false := by
  cases e with
  | num z =>
    rw [valueAt?_num.mp value]
    rfl
  | var | bool | unary | binary | lam | app | provided | piecewise | interval => rfl

theorem value_unconditioned (value : valueAt? ρ e = some v) : e.condition = none := by
  cases e with
  | provided => simp [valueAt?] at value
  | num | var | bool | unary | binary | lam | app | piecewise | interval => rfl

theorem value_no_set (value : valueAt? ρ e = some v) : e.isSet = false := by
  cases e with
  | interval => simp [valueAt?] at value
  | num | var | bool | unary | binary | lam | app | provided | piecewise => rfl

theorem value_fits {d : Domain} (all : d.HoldsFractions) (value : valueAt? ρ e = some v) : fits d e = true := by
  cases e with
  | bool => simp [valueAt?] at value
  | num z =>
    rw [valueAt?_num.mp value]
    exact all v
  | var | unary | binary | lam | app | provided | piecewise | interval => rfl

theorem value_operands {op : BinaryOp} {a b : Expr}
    (value : valueAt? ρ (.binary op a b) = some v) :
    (∃ x, valueAt? ρ a = some x) ∧ ∃ y, valueAt? ρ b = some y := by
  cases op with
  | sum =>
    obtain ⟨x, left, y, right, -⟩ := valueAt?_sum.mp value
    exact ⟨⟨x, left⟩, y, right⟩
  | minus =>
    obtain ⟨x, left, y, right, -⟩ := valueAt?_minus.mp value
    exact ⟨⟨x, left⟩, y, right⟩
  | mul =>
    obtain ⟨x, left, y, right, -⟩ := valueAt?_mul.mp value
    exact ⟨⟨x, left⟩, y, right⟩
  | div =>
    obtain ⟨x, left, y, right, -⟩ := valueAt?_div.mp value
    exact ⟨⟨x, left⟩, y, right⟩
  | pow =>
    obtain ⟨k, rfl, x, left, -⟩ := valueAt?_pow.mp value
    exact ⟨⟨x, left⟩, k, valueAt?_num.mpr rfl⟩
  | log | and | or | xor | implies | equals | order | mem => simp [valueAt?] at value

theorem value_parts_not_nan (value : valueAt? ρ e = some v) : e.children.any isNaN = false := by
  cases e with
  | binary op a b =>
    obtain ⟨⟨x, left⟩, y, right⟩ := value_operands value
    simp [children, value_not_nan left, value_not_nan right]
  | num | var => rfl
  | bool | unary | lam | app | provided | piecewise | interval => simp [valueAt?] at value

theorem value_codomain {op : BinaryOp} {a b a' b' : Expr}
    (value : valueAt? ρ (.binary op a b) = some v) :
    (Expr.binary op a' b').codomain c = c.codomain := by
  cases op with
  | sum | minus | mul | div | pow | log => rfl
  | and | or | xor | implies | equals | order | mem => simp [valueAt?] at value

end Facts

/-- The second expression has every value of the first, and is the first when that is a number, so
that it can stand in its place as an exponent too. -/
structure Follows (ρ : Assignment) (e r : Expr) : Prop where
  literal : ∀ z, e = .num z → r = .num z
  value : ∀ v, valueAt? ρ e = some v → valueAt? ρ r = some v

theorem Follows.refl (e : Expr) : Follows ρ e e := ⟨fun _ same => same, fun _ value => value⟩

theorem Follows.trans {e r t : Expr} (first : Follows ρ e r) (second : Follows ρ r t) :
    Follows ρ e t :=
  ⟨fun z same => second.literal z (first.literal z same),
    fun v value => second.value v (first.value v value)⟩

/-- What has no value is followed by everything, unless it is a number. -/
theorem Follows.vacuous {e r : Expr} (inner : ∀ z, e ≠ .num z) (undefined : valueAt? ρ e = none) :
    Follows ρ e r :=
  ⟨fun z same => absurd same (inner z), fun v value => by simp [undefined] at value⟩

theorem Follows.binary {op : BinaryOp} {a b a' b' : Expr} (left : Follows ρ a a')
    (right : Follows ρ b b') : Follows ρ (.binary op a b) (.binary op a' b') := by
  refine ⟨fun z same => Expr.noConfusion same, ?_⟩
  intro v value
  cases op with
  | sum =>
    obtain ⟨x, first, y, second, rest⟩ := valueAt?_sum.mp value
    exact valueAt?_sum.mpr ⟨x, left.value x first, y, right.value y second, rest⟩
  | minus =>
    obtain ⟨x, first, y, second, rest⟩ := valueAt?_minus.mp value
    exact valueAt?_minus.mpr ⟨x, left.value x first, y, right.value y second, rest⟩
  | mul =>
    obtain ⟨x, first, y, second, rest⟩ := valueAt?_mul.mp value
    exact valueAt?_mul.mpr ⟨x, left.value x first, y, right.value y second, rest⟩
  | div =>
    obtain ⟨x, first, y, second, rest⟩ := valueAt?_div.mp value
    exact valueAt?_div.mpr ⟨x, left.value x first, y, right.value y second, rest⟩
  | pow =>
    obtain ⟨k, exponent, x, first, rest⟩ := valueAt?_pow.mp value
    exact valueAt?_pow.mpr ⟨k, right.literal _ exponent, x, left.value x first, rest⟩
  | log | and | or | xor | implies | equals | order | mem => simp [valueAt?] at value

theorem compute?_value {op : BinaryOp} {x y : Number}
    (value : valueAt? ρ (.binary op (.num x) (.num y)) = some v) :
    op.compute? c x y = pure (some (.ofRat v)) := by
  cases op with
  | sum =>
    obtain ⟨p, left, q, right, rfl⟩ := valueAt?_sum.mp value
    rw [valueAt?_num.mp left, valueAt?_num.mp right, BinaryOp.compute?]
    exact congrArg (some <$> ·) (Number.add_ofValue c (some p) (some q))
  | minus =>
    obtain ⟨p, left, q, right, rfl⟩ := valueAt?_minus.mp value
    rw [valueAt?_num.mp left, valueAt?_num.mp right, BinaryOp.compute?]
    exact congrArg (some <$> ·) (Number.sub_ofValue c (some p) (some q))
  | mul =>
    obtain ⟨p, left, q, right, rfl⟩ := valueAt?_mul.mp value
    rw [valueAt?_num.mp left, valueAt?_num.mp right, BinaryOp.compute?]
    exact congrArg (some <$> ·) (Number.mul_ofValue c (some p) (some q))
  | div =>
    obtain ⟨p, left, q, right, apart, rfl⟩ := valueAt?_div.mp value
    rw [valueAt?_num.mp left, valueAt?_num.mp right, BinaryOp.compute?]
    exact congrArg (some <$> ·) (Number.div_ofRat c p apart)
  | pow =>
    obtain ⟨k, exponent, p, left, defined, rfl⟩ := valueAt?_pow.mp value
    rw [valueAt?_num.mp left, Expr.num.inj exponent, BinaryOp.compute?]
    exact congrArg (some <$> ·) (Number.pow_ofRat c defined)
  | log | and | or | xor | implies | equals | order | mem => simp [valueAt?] at value

theorem condition?_value {op : BinaryOp} {a b a' b' : Expr}
    (value : valueAt? ρ (.binary op a b) = some v) :
    Returns (condition? c (.binary op a' b') [a, b]) fun d => d ≠ some false := by
  cases op with
  | sum | minus | mul => exact Returns.pure (by simp)
  | div =>
    obtain ⟨x, left, y, right, apart, -⟩ := valueAt?_div.mp value
    have regular : b.isZero = false := by
      rw [Bool.eq_false_iff]
      intro zero
      rw [isZero_iff.mp zero] at right
      exact apart (by simpa using right)
    simp only [condition?, regular, value_no_set right, Bool.false_eq_true, if_false]
    refine Returns.pure ?_
    split <;> simp
  | pow =>
    obtain ⟨k, rfl, x, base, defined, -⟩ := valueAt?_pow.mp value
    simp only [condition?]
    refine Returns.pure ?_
    split
    · next zero =>
      simp only [Bool.and_eq_true] at zero
      rw [isZero_iff.mp zero.1] at base
      have vanishes : x = 0 := by simpa using base
      have above : ¬ k < 0 := fun below => defined below vanishes
      have whole : ¬(k : Rat) < 0 := by exact_mod_cast above
      simpa [isNegative, Number.isNegative, Number.ofInt, RealNumber.isNegative] using whole
    · simp
  | log | and | or | xor | implies | equals | order | mem => simp [valueAt?] at value

def Keeps (ρ : Assignment) (v : Rat) (rule : Computation (Option Expr)) : Prop :=
  Returns rule fun r => ∀ e, r = some e → valueAt? ρ e = some v

theorem Keeps.none : Keeps ρ v (pure Option.none) := by
  refine Returns.pure ?_
  intro e impossible
  cases impossible

theorem Keeps.some {e : Expr} (value : valueAt? ρ e = Option.some v) :
    Keeps ρ v (pure (Option.some e)) := by
  refine Returns.pure ?_
  intro e' same
  cases same
  exact value

theorem identityRule?_value (evaluate : Expr → Computation Expr) {op : BinaryOp} {a b : Expr}
    (value : valueAt? ρ (.binary op a b) = some v) :
    Keeps ρ v (identityRule? c evaluate op a b) := by
  cases op with
  | mul =>
    obtain ⟨x, left, y, right, rfl⟩ := valueAt?_mul.mp value
    simp only [identityRule?]
    split
    · next zero =>
      apply Keeps.some
      rcases (Bool.or_eq_true _ _).mp zero with first | second
      · rw [isZero_iff.mp first] at left
        simp [valueAt?_zero.mp left]
      · rw [isZero_iff.mp second] at right
        simp [valueAt?_zero.mp right]
    split
    · next one =>
      apply Keeps.some
      rw [isOne_iff.mp one] at left
      rw [valueAt?_one.mp left, one_mul]
      exact right
    split
    · next one =>
      apply Keeps.some
      rw [isOne_iff.mp one] at right
      rw [valueAt?_one.mp right, mul_one]
      exact left
    · exact Keeps.none
  | div =>
    obtain ⟨x, left, y, right, apart, rfl⟩ := valueAt?_div.mp value
    simp only [identityRule?]
    split
    · next one =>
      apply Keeps.some
      rw [isOne_iff.mp one] at right
      rw [valueAt?_one.mp right, div_one]
      exact left
    split
    · next zero =>
      refine Returns.bind Returns.trivial ?_
      intro regular _
      split
      · apply Keeps.some
        rw [isZero_iff.mp zero] at left
        simp [valueAt?_zero.mp left]
      · exact Keeps.none
    · exact Keeps.none
  | pow =>
    obtain ⟨k, rfl, x, base, defined, rfl⟩ := valueAt?_pow.mp value
    simp only [identityRule?]
    split
    · next trivial =>
      apply Keeps.some
      rcases (Bool.or_eq_true _ _).mp trivial with one | zero
      · rw [isOne_iff.mp one] at base
        simp [valueAt?_one.mp base]
      · simp [whole_isZero.mp zero]
    split
    · next one =>
      apply Keeps.some
      rw [whole_isOne.mp one, zpow_one]
      exact base
    · exact Keeps.none
  | sum | minus => exact Keeps.none
  | log | and | or | xor | implies | equals | order | mem => simp [valueAt?] at value

theorem binaryRule?_value {evaluate : Expr → Computation Expr} {op : BinaryOp} {a b : Expr}
    (value : valueAt? ρ (.binary op a b) = some v) :
    Keeps ρ v (binaryRule? c evaluate op a b) := by
  have folded : ∀ x y, a = .num x → b = .num y →
      Keeps ρ v (do return (← op.compute? c x y).map Expr.num) := by
    rintro x y rfl rfl
    rw [compute?_value value, pure_bind]
    exact Keeps.some (valueAt?_num.mpr rfl)
  have identity := identityRule?_value (c := c) evaluate value
  cases op with
  | sum | minus | mul | div | pow =>
    simp only [binaryRule?]
    split
    · exact folded _ _ rfl rfl
    · exact identity
  | log | and | or | xor | implies | equals | order | mem => simp [valueAt?] at value

/-- A computation whose results follow an operator expression, to be shown value by value. -/
theorem follows_of_value {op : BinaryOp} {a b : Expr} {m : Computation Expr}
    (each : ∀ v, valueAt? ρ (.binary op a b) = some v →
      Returns m fun r => valueAt? ρ r = some v) :
    Returns m (Follows ρ (.binary op a b)) := by
  have values := Returns.all fun v => Returns.all (each v)
  refine values.mono ?_
  intro r value
  exact ⟨fun z same => Expr.noConfusion same, value⟩

section Evaluation
variable (all : c.codomain.HoldsFractions)
include all

theorem evaluateBinary_value {evaluate : Expr → Computation Expr} {op : BinaryOp}
    {a b a' b' : Expr} (value : valueAt? ρ (.binary op a' b') = some v) :
    Returns (evaluateNode c evaluate (.binary op a b) [a', b'])
      fun r => valueAt? ρ r = some v := by
  simp only [evaluateNode]
  refine Returns.bind (condition?_value value) ?_
  intro d defined
  rw [if_neg defined]
  obtain ⟨⟨x, left⟩, y, right⟩ := value_operands value
  have rule : Returns (evaluationRule c evaluate (.binary op a b) [a', b'])
      fun r => ∀ e, r = some e → valueAt? ρ e = some v := binaryRule?_value value
  refine Returns.bind (liftConditions_plain .returns (.binary op a b) ?_ rule value _) ?_
  · intro part member
    rcases List.mem_pair.mp member with rfl | rfl
    · exact value_unconditioned left
    · exact value_unconditioned right
  · intro r kept
    refine Returns.pure ?_
    rw [confine_eq (value_parts_not_nan kept)]
    · exact kept
    · rw [value_codomain value]
      exact value_fits all kept

theorem evaluateNode_follows {evaluate : Expr → Computation Expr} (e : Expr) (parts : List Expr)
    (followed : List.Forall₂ (Follows ρ) e.children parts) :
    Returns (evaluateNode c evaluate e parts) (Follows ρ e) := by
  cases e with
  | num z => exact Returns.pure (Follows.refl _)
  | bool b => exact Returns.pure (Follows.refl _)
  | var x =>
    cases constant : isConstantName x with
    | true =>
      refine Returns.trivial.mono fun r _ => Follows.vacuous (by simp) ?_
      simp [valueAt?, constant]
    | false =>
      simp only [evaluateNode, constant, Bool.false_eq_true, if_false]
      exact Returns.pure (Follows.refl _)
  | binary op a b =>
    obtain ⟨a', rest, left, others, rfl⟩ := List.forall₂_cons_left_iff.mp followed
    obtain ⟨b', rest, right, none_left, rfl⟩ := List.forall₂_cons_left_iff.mp others
    obtain rfl := List.forall₂_nil_left_iff.mp none_left
    refine follows_of_value fun v value => ?_
    exact evaluateBinary_value all ((left.binary right).value v value)
  | unary | lam | app | provided | piecewise | interval =>
    exact Returns.trivial.mono fun r _ => Follows.vacuous (by simp) (by simp [valueAt?])

theorem evaluateWithin_follows (fuel : Nat) (e : Expr) :
    Returns (evaluateWithin c fuel e) (Follows ρ e) := by
  cases fuel with
  | zero => exact Returns.throw
  | succ fuel => exact foldM_returns (evaluateNode_follows all) e

/-- What an expression evaluates to has its value wherever it has one. -/
theorem evaluate_follows (e : Expr) : Returns (evaluate c e) (Follows ρ e) :=
  evaluateWithin_follows all allowance e

theorem evaled_follows (e : Expr) : Returns (evaled c e) (Follows ρ e) := by
  refine Returns.bind Returns.trivial fun _ _ => ?_
  exact evaluate_follows all e

omit all in
/-- What is found to be nonzero is so wherever it has a value. -/
theorem provablyNonzero_value {evaluate : Expr → Computation Expr} {e : Expr}
    (faithful : Returns (evaluate e) (Follows ρ e)) (value : valueAt? ρ e = some v) :
    Returns (provablyNonzero c evaluate e) fun found => found = true → v ≠ 0 := by
  refine Returns.bind Returns.trivial fun _ _ => ?_
  refine Returns.bind faithful ?_
  intro r followed
  have same := followed.value v value
  split
  · next z =>
    refine Returns.pure ?_
    intro found
    rw [valueAt?_num.mp same] at found
    rintro rfl
    simp [Number.ofRat_isZero.mpr rfl] at found
  · refine Returns.pure ?_
    intro found
    cases found

theorem nonzero_value {e : Expr} (value : valueAt? ρ e = some v) :
    Returns (provablyNonzero c (evaluate c) e) fun found => found = true → v ≠ 0 :=
  provablyNonzero_value (evaluate_follows all e) value

end Evaluation
end Expr
end ComputerAlgebra

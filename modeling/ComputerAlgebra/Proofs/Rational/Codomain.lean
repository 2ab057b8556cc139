import ComputerAlgebra.Proofs.Exact.Evaluation
import ComputerAlgebra.Proofs.Expr.Children
import ComputerAlgebra.Proofs.Rational.Arithmetic
import ComputerAlgebra.Proofs.Rational.Closed
import Mathlib.Algebra.Order.Ring.Cast

/-!
Rational expressions under any codomain. Without variables an expression evaluates to its value or to
NaN, which it does also where a number on the way is outside the codomain; a codomain with all
fractions never is in the way.
-/

namespace ComputerAlgebra

namespace Expr

variable {c : Config} {ρ : Assignment}

def confined (c : Config) (x : Option Rat) : Option Rat :=
  x.filter fun q => numberFits (.ofRat q) c.codomain

theorem confined_eq_some {x : Option Rat} {v : Rat} (known : confined c x = some v) : x = some v :=
  (Option.filter_eq_some_iff.mp known).1

theorem confined_eq_self (all : c.codomain.HoldsFractions) (x : Option Rat) : confined c x = x := by
  cases x with
  | none => rfl
  | some q => exact if_pos (all q)

private theorem confined_number (x : Option Rat) :
    (if numberFits (.ofValue x) c.codomain then Number.ofValue x else .nan) =
      .ofValue (confined c x) := by
  cases x with
  | none => split <;> rfl
  | some q =>
    by_cases inside : numberFits (.ofRat q) c.codomain = true
    · have kept : confined c (some q) = some q := if_pos inside
      rw [kept]
      exact if_pos inside
    · have dropped : confined c (some q) = none := if_neg inside
      rw [dropped]
      exact if_neg inside

section Operators
variable {op : BinaryOp} (x y : Option Rat)

/-- An operator that is defined at its operands and computes a value of them. -/
private theorem literalValue_value {z w : Number} {d : Option Bool} {v : Option Rat}
    (condition : condition? c (.binary op (.num z) (.num w)) [.num z, .num w] = pure d)
    (defined : d ≠ some false) (computed : op.compute? c z w = pure (some (.ofValue v))) :
    literalValue c op z w = pure (.ofValue (confined c v)) := by
  simp only [literalValue, condition, pure_bind, if_neg defined, computed, Option.getD_some,
    confined_number]

private theorem literalValue_undefined {z w : Number}
    (condition : condition? c (.binary op (.num z) (.num w)) [.num z, .num w] = pure (some false)) :
    literalValue c op z w = pure .nan := by
  simp only [literalValue, condition, pure_bind, if_true]

theorem literalValue_sum : literalValue c .sum (.ofValue x) (.ofValue y) =
    pure (.ofValue (confined c (x.bind fun p => y.map fun q => p + q))) := by
  refine literalValue_value (d := some true) rfl (by simp) ?_
  simp only [BinaryOp.compute?, Number.add_ofValue, pure_bind]

theorem literalValue_minus : literalValue c .minus (.ofValue x) (.ofValue y) =
    pure (.ofValue (confined c (x.bind fun p => y.map fun q => p - q))) := by
  refine literalValue_value (d := some true) rfl (by simp) ?_
  simp only [BinaryOp.compute?, Number.sub_ofValue, pure_bind]

theorem literalValue_mul : literalValue c .mul (.ofValue x) (.ofValue y) =
    pure (.ofValue (confined c (x.bind fun p => y.map fun q => p * q))) := by
  refine literalValue_value (d := some true) rfl (by simp) ?_
  simp only [BinaryOp.compute?, Number.mul_ofValue, pure_bind]

theorem literalValue_div : literalValue c .div (.ofValue x) (.ofValue y) =
    pure (.ofValue (confined c (x.bind fun p => y.bind fun q => quotient? p q))) := by
  cases y with
  | none =>
    refine literalValue_value (d := some true) rfl (by simp) ?_
    rw [BinaryOp.compute?, show Number.ofValue none = Number.nan from rfl, Number.div_nan_right,
      pure_bind]
    cases x <;> rfl
  | some q =>
    by_cases zero : q = 0
    · rw [literalValue_undefined]
      · cases x <;> simp [quotient?, zero, confined, Number.ofValue]
      · simp [condition?, isZero, Number.ofValue, Number.ofRat_isZero.mpr zero]
    · have apart : (Number.ofRat q).isZero = false := by
        rw [Bool.eq_false_iff]
        exact fun found => zero (Number.ofRat_isZero.mp found)
      refine literalValue_value (d := some true) ?_ (by simp) ?_
      · simp [condition?, isZero, Number.ofValue, apart, isSet, isNumber, number?]
      · cases x with
        | none => rfl
        | some p =>
          simp only [BinaryOp.compute?, Number.ofValue, Number.div_ofRat c p zero, pure_bind,
            Option.bind_some, quotient?, if_neg zero]

theorem literalValue_pow (n : Int) : literalValue c .pow (.ofValue x) (.ofInt n) =
    pure (.ofValue (confined c (x.bind fun p => power? p n))) := by
  cases x with
  | none =>
    refine literalValue_value (d := some true) rfl (by simp) ?_
    rfl
  | some p =>
    have real : (Expr.num (.ofInt n)).real?.isSome = true := rfl
    have sign : (Expr.num (.ofInt n)).isNegative = decide (n < 0) := by
      simp [isNegative, Number.ofInt, Number.isNegative, RealNumber.isNegative]
    by_cases undefined : p = 0 ∧ n < 0
    · rw [literalValue_undefined]
      · simp [power?, undefined, confined, Number.ofValue]
      · have zero := Number.ofRat_isZero.mpr undefined.1
        simp [condition?, isZero, Number.ofValue, zero, real, sign, undefined.2]
    · have defined : n < 0 → p ≠ 0 := fun below zero => undefined ⟨zero, below⟩
      refine literalValue_value (d := some true) ?_ (by simp) ?_
      · simp only [condition?, Number.ofValue, real, sign]
        split
        · next zero =>
          have vanishes : p = 0 := Number.ofRat_isZero.mp ((Bool.and_eq_true _ _).mp zero).1
          have above : ¬ n < 0 := fun below => defined below vanishes
          simp [above]
        · rfl
      · simp only [BinaryOp.compute?, Number.ofValue, Number.pow_ofRat c defined, pure_bind,
          Option.bind_some, power?, if_neg undefined]

end Operators

/-- A rational expression without variables is arithmetic on fractions. -/
theorem IsRational.closedArithmetic {e : Expr} (rational : IsRational e)
    (closed : ∀ y, y ∉ e.names) : IsClosedArithmetic e := by
  have parts {op : BinaryOp} {a b part : Expr} (member : part ∈ [a, b])
      (all : ∀ y, y ∉ (Expr.binary op a b).names) : ∀ y, y ∉ part.names :=
    fun y named => all y (names_child member named)
  induction rational with
  | num q => exact .num rfl
  | @var x plain => exact absurd (by simp) (closed x)
  | sum _ _ iha ihb =>
    exact .operation (by decide) (iha (parts (by simp) closed)) (ihb (parts (by simp) closed))
  | minus _ _ iha ihb =>
    exact .operation (by decide) (iha (parts (by simp) closed)) (ihb (parts (by simp) closed))
  | mul _ _ iha ihb =>
    exact .operation (by decide) (iha (parts (by simp) closed)) (ihb (parts (by simp) closed))
  | div _ _ iha ihb =>
    exact .operation (by decide) (iha (parts (by simp) closed)) (ihb (parts (by simp) closed))
  | pow _ n ih => exact .operation (by decide) (ih (parts (by simp) closed)) (.num rfl)

/-- What is found for an expression in place of its value: the value, or nothing where the codomain is
in the way. -/
private def FoundIn (c : Config) (found value : Option Rat) : Prop :=
  (∀ v, found = some v → value = some v) ∧ (c.codomain.HoldsFractions → found = value)

private theorem FoundIn.operation {x y x' y' : Option Rat} (left : FoundIn c x' x)
    (right : FoundIn c y' y) (f : Rat → Rat → Option Rat) :
    FoundIn c (confined c (x'.bind fun p => y'.bind (f p))) (x.bind fun p => y.bind (f p)) := by
  constructor
  · intro v known
    obtain ⟨p, first, rest⟩ := Option.bind_eq_some_iff.mp (confined_eq_some known)
    obtain ⟨q, second, result⟩ := Option.bind_eq_some_iff.mp rest
    rw [left.1 p first, right.1 q second]
    exact result
  · intro all
    rw [confined_eq_self all, left.2 all, right.2 all]

private theorem FoundIn.total {x y x' y' : Option Rat} (left : FoundIn c x' x)
    (right : FoundIn c y' y) (f : Rat → Rat → Rat) :
    FoundIn c (confined c (x'.bind fun p => y'.map (f p))) (x.bind fun p => y.map (f p)) := by
  simpa only [Option.map_eq_bind, Function.comp_def] using
    left.operation right fun p q => some (f p q)

private theorem FoundIn.self (x : Option Rat) : FoundIn c x x := ⟨fun _ => id, fun _ => rfl⟩

theorem closedValue_rational {e : Expr} (rational : IsRational e) (closed : ∀ y, y ∉ e.names) :
    ∃ x, closedValue c e = pure (.ofValue x) ∧ FoundIn c x (valueAt? ρ e) := by
  have parts {op : BinaryOp} {a b part : Expr} (member : part ∈ [a, b])
      (all : ∀ y, y ∉ (Expr.binary op a b).names) : ∀ y, y ∉ part.names :=
    fun y named => all y (names_child member named)
  induction rational with
  | num q => exact ⟨some q, rfl, .self _⟩
  | @var x plain => exact absurd (by simp) (closed x)
  | @sum a b _ _ iha ihb =>
    obtain ⟨x, first, left⟩ := iha (parts (by simp) closed)
    obtain ⟨y, second, right⟩ := ihb (parts (by simp) closed)
    refine ⟨_, ?_, left.total right fun p q => p + q⟩
    rw [closedValue, first, second, pure_bind, pure_bind, literalValue_sum]
  | @minus a b _ _ iha ihb =>
    obtain ⟨x, first, left⟩ := iha (parts (by simp) closed)
    obtain ⟨y, second, right⟩ := ihb (parts (by simp) closed)
    refine ⟨_, ?_, left.total right fun p q => p - q⟩
    rw [closedValue, first, second, pure_bind, pure_bind, literalValue_minus]
  | @mul a b _ _ iha ihb =>
    obtain ⟨x, first, left⟩ := iha (parts (by simp) closed)
    obtain ⟨y, second, right⟩ := ihb (parts (by simp) closed)
    refine ⟨_, ?_, left.total right fun p q => p * q⟩
    rw [closedValue, first, second, pure_bind, pure_bind, literalValue_mul]
  | @div a b _ _ iha ihb =>
    obtain ⟨x, first, left⟩ := iha (parts (by simp) closed)
    obtain ⟨y, second, right⟩ := ihb (parts (by simp) closed)
    refine ⟨_, ?_, left.operation right quotient?⟩
    rw [closedValue, first, second, pure_bind, pure_bind, literalValue_div]
  | @pow a _ n ih =>
    obtain ⟨x, first, left⟩ := ih (parts (by simp) closed)
    have exponent : (Expr.num (.ofInt n)).integer? = some n := integer?_eq_some.mpr rfl
    refine ⟨confined c (x.bind fun p => power? p n), ?_, ?_⟩
    · rw [closedValue, first, closedValue, pure_bind, pure_bind, literalValue_pow]
    · rw [valueAt?, exponent]
      exact left.operation (.self (some (0 : Rat))) fun p _ => power? p n

/-- Without variables a rational expression evaluates to a fraction only if that is its value, and
under a codomain with all fractions it evaluates to its value, NaN when it has none. -/
theorem evaluate_rational {e : Expr} (rational : IsRational e) (closed : ∀ y, y ∉ e.names) :
    ∃ x, evaluate c e = pure (.num (.ofValue x)) ∧ (∀ v, x = some v → valueAt? ρ e = some v) ∧
      (c.codomain.HoldsFractions → x = valueAt? ρ e) := by
  obtain ⟨x, computed, found⟩ := closedValue_rational (c := c) (ρ := ρ) rational closed
  refine ⟨x, ?_, found⟩
  rw [evaluate_closed (rational.closedArithmetic closed), computed]
  rfl

/-- With fractions for all its variables a rational expression evaluates to a fraction only if that is
its value there, and under a codomain with all fractions it evaluates to its value, NaN when it has
none. -/
theorem evaluate_assigned {e : Expr} (rational : IsRational e) {s : List (String × Rat)}
    (covered : ∀ x ∈ e.names, x ∈ s.map Prod.fst) :
    ∃ t x, e.assign s = .ok t ∧ evaluate c t = pure (.num (.ofValue x)) ∧
      (∀ v, x = some v → valueAt? (Assignment.ofList s) e = some v) ∧
      (c.codomain.HoldsFractions → x = valueAt? (Assignment.ofList s) e) := by
  obtain ⟨t, assigned, closed, names, values⟩ := assign_rational s rational
  have nameless : ∀ y, y ∉ t.names := fun y named => (names y named).2 (covered y (names y named).1)
  obtain ⟨x, evaluated, found⟩ := evaluate_rational (c := c) (ρ := fun _ => none) closed nameless
  rw [values] at found
  exact ⟨t, x, assigned, evaluated, found⟩

end Expr
end ComputerAlgebra

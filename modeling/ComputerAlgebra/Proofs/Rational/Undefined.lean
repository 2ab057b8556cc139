import ComputerAlgebra.Proofs.Rational.Guarded
import ComputerAlgebra.Proofs.Rational.Preservation
import ComputerAlgebra.Proofs.Rational.Simplification
import ComputerAlgebra.Proofs.Simplification.Sorting
import Mathlib.Algebra.MvPolynomial.Eval

/-!
Rational expressions as quotients of polynomials. Wherever an expression has a value there is a
presentation with a divisor that does not vanish, so a value that simplification finds where the
expression itself has none is the value of a rational function that continues the expression.
-/

namespace ComputerAlgebra.Expr

open MvPolynomial

variable {ρ : Assignment} {v : Rat} {e : Expr} {p q : MvPolynomial String Rat}

/-- The point of an assignment, with zero for the variables that it leaves out. -/
def Assignment.point (ρ : Assignment) (x : String) : Rat := (ρ x).getD 0

/-- The quotient of two polynomials agrees with an expression wherever that has a value. -/
def Presents (p q : MvPolynomial String Rat) (e : Expr) : Prop :=
  ∀ σ w, valueAt? σ e = some w → w * eval σ.point q = eval σ.point p

/-- A value that continues an expression at an assignment: the one of a quotient of polynomials that
presents the expression and whose divisor does not vanish there. -/
def Continues (ρ : Assignment) (e : Expr) (v : Rat) : Prop :=
  ∃ p q, Presents p q e ∧ eval ρ.point q ≠ 0 ∧ v * eval ρ.point q = eval ρ.point p

section Presentation
variable {a b : Expr} {p' q' : MvPolynomial String Rat}

theorem Presents.sum (left : Presents p q a) (right : Presents p' q' b) :
    Presents (p * q' + p' * q) (q * q') (.binary .sum a b) := by
  intro σ w value
  obtain ⟨x, first, y, second, rfl⟩ := valueAt?_sum.mp value
  rw [map_add, map_mul, map_mul, map_mul, ← left σ x first, ← right σ y second]
  ring

theorem Presents.minus (left : Presents p q a) (right : Presents p' q' b) :
    Presents (p * q' - p' * q) (q * q') (.binary .minus a b) := by
  intro σ w value
  obtain ⟨x, first, y, second, rfl⟩ := valueAt?_minus.mp value
  rw [map_sub, map_mul, map_mul, map_mul, ← left σ x first, ← right σ y second]
  ring

theorem Presents.mul (left : Presents p q a) (right : Presents p' q' b) :
    Presents (p * p') (q * q') (.binary .mul a b) := by
  intro σ w value
  obtain ⟨x, first, y, second, rfl⟩ := valueAt?_mul.mp value
  rw [map_mul, map_mul, ← left σ x first, ← right σ y second]
  ring

theorem Presents.div (left : Presents p q a) (right : Presents p' q' b) :
    Presents (p * q') (q * p') (.binary .div a b) := by
  intro σ w value
  obtain ⟨x, first, y, second, apart, rfl⟩ := valueAt?_div.mp value
  rw [map_mul, map_mul, ← left σ x first, ← right σ y second]
  field_simp

theorem Presents.power (base : Presents p q a) (n : Nat) :
    Presents (p ^ n) (q ^ n) (.binary .pow a (.num (.ofInt n))) := by
  intro σ w value
  obtain ⟨k, exponent, x, found, -, rfl⟩ := valueAt?_pow.mp value
  rw [← Number.ofInt_injective (Expr.num.inj exponent), zpow_natCast, map_pow, map_pow,
    ← base σ x found, mul_pow]

theorem Presents.inverse (base : Presents p q a) (n : Nat) :
    Presents (q ^ n) (p ^ n) (.binary .pow a (.num (.ofInt (-n)))) := by
  intro σ w value
  obtain ⟨k, exponent, x, found, defined, rfl⟩ := valueAt?_pow.mp value
  obtain rfl := Number.ofInt_injective (Expr.num.inj exponent)
  rw [map_pow, map_pow, ← base σ x found, mul_pow, zpow_neg, zpow_natCast]
  rcases Nat.eq_zero_or_pos n with rfl | above
  · simp
  · have apart : x ≠ 0 := defined (by omega)
    field_simp

/-- Where a rational expression has a value, one of its presentations has a divisor that does not
vanish. -/
theorem exists_presents (rational : IsRational e) : ∀ {v : Rat}, valueAt? ρ e = some v →
    ∃ p q, Presents p q e ∧ eval ρ.point q ≠ 0 := by
  induction rational with
  | num z =>
    intro v value
    refine ⟨C z, 1, fun σ w found => ?_, by simp⟩
    simp [valueAt?_ofRat.mp found]
  | @var x plain =>
    intro v value
    refine ⟨X x, 1, fun σ w found => ?_, by simp⟩
    simp [Assignment.point, (valueAt?_var.mp found).2]
  | sum _ _ iha ihb =>
    intro v value
    obtain ⟨x, left, y, right, -⟩ := valueAt?_sum.mp value
    obtain ⟨p, q, first, regular⟩ := iha left
    obtain ⟨p', q', second, regular'⟩ := ihb right
    exact ⟨_, _, first.sum second, by simpa using ⟨regular, regular'⟩⟩
  | minus _ _ iha ihb =>
    intro v value
    obtain ⟨x, left, y, right, -⟩ := valueAt?_minus.mp value
    obtain ⟨p, q, first, regular⟩ := iha left
    obtain ⟨p', q', second, regular'⟩ := ihb right
    exact ⟨_, _, first.minus second, by simpa using ⟨regular, regular'⟩⟩
  | mul _ _ iha ihb =>
    intro v value
    obtain ⟨x, left, y, right, -⟩ := valueAt?_mul.mp value
    obtain ⟨p, q, first, regular⟩ := iha left
    obtain ⟨p', q', second, regular'⟩ := ihb right
    exact ⟨_, _, first.mul second, by simpa using ⟨regular, regular'⟩⟩
  | div _ _ iha ihb =>
    intro v value
    obtain ⟨x, left, y, right, apart, -⟩ := valueAt?_div.mp value
    obtain ⟨p, q, first, regular⟩ := iha left
    obtain ⟨p', q', second, regular'⟩ := ihb right
    refine ⟨_, _, first.div second, ?_⟩
    rw [map_mul, ← second ρ y right]
    exact mul_ne_zero regular (mul_ne_zero apart regular')
  | @pow a _ n ih =>
    intro v value
    obtain ⟨k, exponent, x, base, defined, -⟩ := valueAt?_pow.mp value
    obtain rfl := Number.ofInt_injective (Expr.num.inj exponent)
    obtain ⟨p, q, presents, regular⟩ := ih base
    obtain ⟨m, rfl | rfl⟩ := Int.eq_nat_or_neg n
    · exact ⟨_, _, presents.power m, by simpa using fun zero => absurd zero regular⟩
    · refine ⟨_, _, presents.inverse m, ?_⟩
      rw [map_pow, ← presents ρ x base]
      rcases Nat.eq_zero_or_pos m with rfl | above
      · simp
      · exact pow_ne_zero m (mul_ne_zero (defined (by omega)) regular)

end Presentation

/-- A value of what has all values of an expression continues the expression. -/
theorem continues_of_values {r : Expr}
    (kept : ∀ τ w, valueAt? τ e = some w → valueAt? τ r = some w) (value : valueAt? ρ r = some v) :
    Continues ρ e v := by
  obtain ⟨p, q, presents, regular⟩ := exists_presents (isRational_of_valueAt? value) value
  refine ⟨p, q, fun σ w found => ?_, regular, presents ρ v value⟩
  exact presents σ w (kept σ w found)

end ComputerAlgebra.Expr

/-!
When simplification keeps an expression undefined. A rational expression that has a value somewhere
stays undefined at an assignment where the operation that fails is its outermost one, and wherever
no value continues it. Otherwise what comes out may have a value there, which continues the
expression.
-/

namespace ComputerAlgebra.Expr

variable {c : Config} {ρ σ : Assignment} {e r : Expr} {v : Rat}

theorem valueAt?_congr : (∀ x ∈ e.names, ρ x = σ x) → valueAt? ρ e = valueAt? σ e := by
  induction e using valueAt?.induct with
  | case1 z => exact fun _ => rfl
  | case2 x constant => simp [valueAt?, constant]
  | case3 x plain =>
    intro agree
    simp [valueAt?, agree x (by simp)]
  | case4 a b iha ihb | case5 a b iha ihb | case6 a b iha ihb | case7 a b iha ihb =>
    intro agree
    have left := iha fun x named => agree x (names_child (by simp [children]) named)
    have right := ihb fun x named => agree x (names_child (by simp [children]) named)
    simp only [valueAt?, left, right]
  | case8 a n ih =>
    intro agree
    have base := ih fun x named => agree x (names_child (by simp [children]) named)
    simp only [valueAt?, base]
  | case9 e => simp [valueAt?]

/-- An expression with a value somewhere has the same value where its own variables alone are given
their fractions. -/
theorem value_of_names (value : valueAt? σ e = some v) :
    valueAt? (fun x => if x ∈ e.names then σ x else none) e = some v := by
  rw [← value]
  exact valueAt?_congr fun x named => by simp [named]

section Undefined
variable (all : c.codomain.HoldsFractions)
include all

/-- A value of what simplification makes of an expression continues the expression. -/
theorem simplify_continues (level : Int) (e : Expr) :
    Returns (simplify c level e) fun r => ∀ ρ v, valueAt? ρ r = some v → Continues ρ e v := by
  have kept : Returns (simplify c level e) fun r =>
      ∀ (τ : Assignment) (w : Rat) (_ : valueAt? τ e = some w), valueAt? τ r = some w :=
    Returns.all fun τ => Returns.all fun w => Returns.all fun value =>
      (value_keptByRounds all τ w).simplify level value
  exact kept.mono fun r values ρ v value => continues_of_values values value

/-- What simplification makes of an expression that has a value somewhere is a rational expression
over the variables of that expression. -/
theorem simplify_rational (level : Int) (somewhere : valueAt? σ e = some v) :
    Returns (simplify c level e) fun r => IsRational r ∧ ∀ x ∈ r.names, x ∈ e.names := by
  have kept := (value_keptByRounds all _ v).simplify level (value_of_names somewhere)
  refine kept.mono fun r value => ⟨isRational_of_valueAt? value, fun x named => ?_⟩
  have given := names_assigned value x named
  by_contra foreign
  simp [foreign] at given

/-- Where the operands have values, or no value continues the expression, simplification finds no
value for an expression that has none. -/
theorem simplify_undefined (rational : IsRational e) (level : Int)
    (somewhere : valueAt? σ e = some v) (covered : ∀ x ∈ e.names, (ρ x).isSome)
    (exposed : (∀ part ∈ e.children, (valueAt? ρ part).isSome) ∨ ∀ w, ¬ Continues ρ e w)
    (undefined : valueAt? ρ e = none) : Returns (simplify c level e) fun r => valueAt? ρ r = none := by
  rcases exposed with operands | essential
  · have singular := singular_of_operands rational undefined covered operands
    refine ((singular_keptByRounds all ρ σ v).simplify level ⟨singular, somewhere⟩).mono ?_
    exact fun r kept => kept.1.undefined
  · refine (simplify_continues all level e).mono fun r continues => ?_
    rw [Option.eq_none_iff_forall_ne_some]
    exact fun w value => essential w (continues ρ w value)

end Undefined

/-- Simplification keeps a rational expression undefined. An expression that has a value somewhere
and evaluates to NaN with fractions for all its variables still does once it is simplified, provided
that its operands have values there, so that its outermost operation fails, or that no value
continues it there. -/
theorem rational_undefined_preserved (complex : c.codomain = .complex) (rational : IsRational e)
    (level : Int) (somewhere : valueAt? σ e = some v) {s : List (String × Rat)}
    (covered : ∀ x ∈ e.names, x ∈ s.map Prod.fst)
    (exposed : (∀ part ∈ e.children, (valueAt? (Assignment.ofList s) part).isSome) ∨
      ∀ w, ¬ Continues (Assignment.ofList s) e w)
    {t : Expr} (assigned : e.assign s = .ok t) {u w : FloatUnit}
    (undefined : t.evaled c u = .ok (.num .nan) w) {u₁ u₂ : FloatUnit}
    (returned : e.simplify c level u₁ = .ok r u₂) :
    ∃ t', r.assign s = .ok t' ∧ ∀ w', t'.evaluate c w' = .ok (.num .nan) w' ∧
      (t'.checkDepth c = .ok () → t'.evaled c w' = .ok (.num .nan) w') := by
  have all : c.codomain.HoldsFractions := complex ▸ Domain.holdsFractions_complex
  have missing : valueAt? (Assignment.ofList s) e = none := by
    have found := value_of_evaled all rational covered assigned undefined
    cases value : valueAt? (Assignment.ofList s) e with
    | none => rfl
    | some q =>
      rw [value] at found
      cases found
  obtain ⟨rational', names⟩ := simplify_rational all level somewhere u₁ r u₂ returned
  have still : valueAt? (Assignment.ofList s) r = none :=
    simplify_undefined all rational level somewhere
      (fun x named => isSome_ofList.mpr (covered x named)) exposed missing u₁ r u₂ returned
  obtain ⟨t', assigned', evaluates⟩ := assigned_evaluates (c := c) all rational'
    fun x named => covered x (names x named)
  rw [still] at evaluates
  refine ⟨t', assigned', fun w' => ⟨evaluates w', fun shallow => ?_⟩⟩
  rw [evaled_eq shallow]
  exact evaluates w'

/-- The reciprocal of `x + x` has no value where `x` is zero. A round of passes makes it the reciprocal of `2 x`,
which has none either. -/
theorem rational_undefined_preserved_reciprocal :
    ∃ e r t : Expr, e = .binary .div 1 (.binary .sum (.var "x") (.var "x")) ∧
      r = .binary .div 1 (.binary .mul 2 (.var "x")) ∧ IsRational e ∧
      valueAt? (Assignment.ofList [("x", 1)]) e = some (1 / 2) ∧
      (∀ x ∈ e.names, x ∈ [("x", (0 : Rat))].map Prod.fst) ∧
      (∀ part ∈ e.children, (valueAt? (Assignment.ofList [("x", 0)]) part).isSome) ∧
      e.assign [("x", 0)] = .ok t ∧ t.evaled .default ⟨50⟩ = .ok (.num .nan) ⟨50⟩ ∧
      e.simplify .default 1 ⟨50⟩ = .ok r ⟨50⟩ ∧
      ∃ t', r.assign [("x", 0)] = .ok t' ∧ ∀ w', t'.evaluate .default w' = .ok (.num .nan) w' := by
  let e : Expr := .binary .div 1 (.binary .sum (.var "x") (.var "x"))
  let r : Expr := .binary .div 1 (.binary .mul 2 (.var "x"))
  have x : IsRational (.var "x") := .var (by decide)
  have rational : IsRational e := .div (.num 1) (.sum x x)
  have somewhere : valueAt? (Assignment.ofList [("x", 1)]) e = some (1 / 2) := by decide +kernel
  have covered : ∀ x ∈ e.names, x ∈ [("x", (0 : Rat))].map Prod.fst := by decide +kernel
  have operands : ∀ part ∈ e.children, (valueAt? (Assignment.ofList [("x", 0)]) part).isSome := by
    decide +kernel
  have undefined : (Expr.binary .div 1 (.binary .sum 0 0)).evaled .default ⟨50⟩ = .ok (.num .nan) ⟨50⟩ := by
    decide +kernel
  have simplified : e.simplify .default 1 ⟨50⟩ = .ok r ⟨50⟩ := by
    rw [simplify, settledOrBest]
    simp only [show (1 : Int).natAbs = 1 from rfl, rounds_one_eq_within]
    decide +kernel
  have assigned : e.assign [("x", 0)] = .ok (.binary .div 1 (.binary .sum 0 0)) := by rfl
  refine ⟨e, r, .binary .div 1 (.binary .sum 0 0), rfl, rfl, rational, somewhere, covered, operands, assigned,
    undefined, simplified, ?_⟩
  obtain ⟨t', assigned', preserved⟩ := rational_undefined_preserved (by rfl) rational 1 somewhere
    covered (.inl operands) assigned undefined simplified
  exact ⟨t', assigned', fun w' => (preserved w').1⟩

/-- A zeroth power hides that its base is undefined: with zero for `x` the power `(1 / x)^0`
evaluates to NaN, and simplification makes one of it at every level. -/
theorem zeroth_power_hides_undefined :
    ∃ e t : Expr, e = .binary .pow (.binary .div 1 (.var "x")) (.num (.ofInt 0)) ∧ IsRational e ∧
      e.assign [("x", 0)] = .ok t ∧ t.evaled .default ⟨50⟩ = .ok (.num .nan) ⟨50⟩ ∧
      ∀ level, e.simplify .default level ⟨50⟩ = .ok 1 ⟨50⟩ ∧
        (1 : Expr).assign [("x", 0)] = .ok 1 ∧ (1 : Expr).evaled .default ⟨50⟩ = .ok 1 ⟨50⟩ := by
  let e : Expr := .binary .pow (.binary .div 1 (.var "x")) (.num (.ofInt 0))
  have rational : IsRational e := .pow (.div (.num 1) (.var (by decide))) 0
  have reduced : e.innerSimplified .default ⟨50⟩ = .ok 1 ⟨50⟩ := by decide +kernel
  refine ⟨e, .binary .pow (.binary .div 1 0) (.num (.ofInt 0)), rfl, rational, by rfl,
    by decide +kernel, fun level => ⟨?_, by rfl, by decide +kernel⟩⟩
  exact simplify_settled reduced (by simp [e, children]) rfl level

end ComputerAlgebra.Expr

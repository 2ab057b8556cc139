import ComputerAlgebra.Expr.Operand
import Mathlib.Algebra.Order.Field.Rat
import Mathlib.Tactic.Tauto

/-!
Rational expressions and their meaning. An assignment gives fractions to some of the variables, and
an expression has a value there when all its variables have one, no divisor is zero and no power of
zero has a negative exponent. The value is an option, so an expression that is undefined at an
assignment has none, whatever surrounds it.
-/

namespace ComputerAlgebra

namespace Number

theorem rational?_eq_some {z : Number} {q : Rat} : z.rational? = some q ↔ z = ofRat q := by
  constructor
  · intro found
    rcases z with (p | x | s | _) | ⟨re, im⟩ <;>
      simp [rational?, real?, RealNumber.rational?] at found
    rw [found, ofRat]
  · rintro rfl
    rfl

theorem integer?_eq_some {z : Number} {n : Int} : z.integer? = some n ↔ z = ofInt n := by
  constructor
  · intro found
    rcases z with (q | x | s | _) | ⟨re, im⟩ <;>
      simp [integer?, real?, RealNumber.integer?] at found
    rw [ofInt, ← found.2, Rat.coe_int_num_of_den_eq_one found.1]
  · rintro rfl
    simp [integer?, real?, RealNumber.integer?, ofInt]

end Number

namespace Expr

theorem rational?_eq_some {e : Expr} {q : Rat} :
    e.rational? = some q ↔ e = .num (.ofRat q) := by
  cases e with
  | num z => simp [rational?, Number.rational?_eq_some]
  | var | bool | unary | binary | lam | app | provided | piecewise | interval => simp [rational?]

theorem integer?_eq_some {e : Expr} {n : Int} : e.integer? = some n ↔ e = .num (.ofInt n) := by
  cases e with
  | num z => simp [integer?, Number.integer?_eq_some]
  | var | bool | unary | binary | lam | app | provided | piecewise | interval => simp [integer?]

/-- The sums, differences, products, quotients and whole powers over fractions and variables. -/
inductive IsRational : Expr → Prop
  | num (q : Rat) : IsRational (.num (.ofRat q))
  | var {x : String} (plain : isConstantName x = false) : IsRational (.var x)
  | sum {a b : Expr} (left : IsRational a) (right : IsRational b) : IsRational (.binary .sum a b)
  | minus {a b : Expr} (left : IsRational a) (right : IsRational b) :
    IsRational (.binary .minus a b)
  | mul {a b : Expr} (left : IsRational a) (right : IsRational b) : IsRational (.binary .mul a b)
  | div {a b : Expr} (left : IsRational a) (right : IsRational b) : IsRational (.binary .div a b)
  | pow {a : Expr} (base : IsRational a) (n : Int) :
    IsRational (.binary .pow a (.num (.ofInt n)))

abbrev Assignment := String → Option Rat

def quotient? (x y : Rat) : Option Rat := if y = 0 then none else some (x / y)

def power? (x : Rat) (n : Int) : Option Rat := if x = 0 ∧ n < 0 then none else some (x ^ n)

def valueAt? (ρ : Assignment) : Expr → Option Rat
  | .num z => z.rational?
  | .var x => if isConstantName x then none else ρ x
  | .binary .sum a b =>
    (valueAt? ρ a).bind fun x => (valueAt? ρ b).map fun y => x + y
  | .binary .minus a b =>
    (valueAt? ρ a).bind fun x => (valueAt? ρ b).map fun y => x - y
  | .binary .mul a b =>
    (valueAt? ρ a).bind fun x => (valueAt? ρ b).map fun y => x * y
  | .binary .div a b =>
    (valueAt? ρ a).bind fun x => (valueAt? ρ b).bind fun y => quotient? x y
  | .binary .pow a n => n.integer?.bind fun k => (valueAt? ρ a).bind fun x => power? x k
  | _ => none

section Inversion
variable {ρ : Assignment} {a b : Expr} {v : Rat}

theorem quotient?_eq_some {x y : Rat} : quotient? x y = some v ↔ y ≠ 0 ∧ x / y = v := by
  by_cases zero : y = 0 <;> simp [quotient?, zero]

theorem power?_eq_some {x : Rat} {n : Int} :
    power? x n = some v ↔ (n < 0 → x ≠ 0) ∧ x ^ n = v := by
  by_cases undefined : x = 0 ∧ n < 0
  · simp [power?, undefined]
  · simp only [power?, undefined, if_false, Option.some.injEq]
    tauto

private theorem bind_map_eq_some {α : Type} {f : α → α → α} {first second : Option α} {v : α} :
    (first.bind fun x => second.map fun y => f x y) = some v ↔
      ∃ x, first = some x ∧ ∃ y, second = some y ∧ f x y = v := by
  simp [Option.bind_eq_some_iff]

@[simp] theorem valueAt?_num {z : Number} :
    valueAt? ρ (.num z) = some v ↔ z = .ofRat v := Number.rational?_eq_some

@[simp] theorem valueAt?_var {x : String} :
    valueAt? ρ (.var x) = some v ↔ isConstantName x = false ∧ ρ x = some v := by
  change (if isConstantName x then none else ρ x) = some v ↔ _
  cases isConstantName x <;> simp

@[simp] theorem valueAt?_sum : valueAt? ρ (.binary .sum a b) = some v ↔
    ∃ x, valueAt? ρ a = some x ∧ ∃ y, valueAt? ρ b = some y ∧ x + y = v := bind_map_eq_some

@[simp] theorem valueAt?_minus : valueAt? ρ (.binary .minus a b) = some v ↔
    ∃ x, valueAt? ρ a = some x ∧ ∃ y, valueAt? ρ b = some y ∧ x - y = v := bind_map_eq_some

@[simp] theorem valueAt?_mul : valueAt? ρ (.binary .mul a b) = some v ↔
    ∃ x, valueAt? ρ a = some x ∧ ∃ y, valueAt? ρ b = some y ∧ x * y = v := bind_map_eq_some

@[simp] theorem valueAt?_div : valueAt? ρ (.binary .div a b) = some v ↔
    ∃ x, valueAt? ρ a = some x ∧ ∃ y, valueAt? ρ b = some y ∧ y ≠ 0 ∧ x / y = v := by
  change ((valueAt? ρ a).bind fun x => (valueAt? ρ b).bind fun y => quotient? x y) = some v ↔ _
  simp [Option.bind_eq_some_iff, quotient?_eq_some]

@[simp] theorem valueAt?_pow {n : Expr} : valueAt? ρ (.binary .pow a n) = some v ↔
    ∃ k, n = .num (.ofInt k) ∧ ∃ x, valueAt? ρ a = some x ∧ (k < 0 → x ≠ 0) ∧ x ^ k = v := by
  change (n.integer?.bind fun k => (valueAt? ρ a).bind fun x => power? x k) = some v ↔ _
  simp [Option.bind_eq_some_iff, power?_eq_some, integer?_eq_some]

theorem isRational_of_valueAt? {e : Expr} : ∀ {v : Rat}, valueAt? ρ e = some v → IsRational e := by
  induction e using valueAt?.induct with
  | case1 z =>
    intro v value
    rw [valueAt?_num.mp value]
    exact .num v
  | case2 x constant =>
    intro v value
    simp [constant] at value
  | case3 x plain =>
    intro v value
    exact .var (by simpa using plain)
  | case4 a b iha ihb =>
    intro v value
    obtain ⟨x, left, y, right, -⟩ := valueAt?_sum.mp value
    exact .sum (iha left) (ihb right)
  | case5 a b iha ihb =>
    intro v value
    obtain ⟨x, left, y, right, -⟩ := valueAt?_minus.mp value
    exact .minus (iha left) (ihb right)
  | case6 a b iha ihb =>
    intro v value
    obtain ⟨x, left, y, right, -⟩ := valueAt?_mul.mp value
    exact .mul (iha left) (ihb right)
  | case7 a b iha ihb =>
    intro v value
    obtain ⟨x, left, y, right, -⟩ := valueAt?_div.mp value
    exact .div (iha left) (ihb right)
  | case8 a n ih =>
    intro v value
    obtain ⟨k, rfl, x, base, -⟩ := valueAt?_pow.mp value
    exact .pow (ih base) k
  | case9 e =>
    intro v value
    simp [valueAt?] at value

end Inversion
end Expr
end ComputerAlgebra

import ComputerAlgebra.Expr.Operand

/-!
Rational multiples of π and the exact values of the circular functions at those among them that are
twelfths of π with a denominator of 1, 2, 3, 4 or 6.
-/

namespace ComputerAlgebra.Expr

/-- The fraction `q` when an expression is written as `q * pi`: as `pi` itself, or multiplied or
divided by fractions. -/
def piMultiple? : Expr → Option Rat
  | .var x => if x = "pi" then some 1 else none
  | .binary .mul a b =>
    match a.rational?, b.rational? with
    | some q, _ => (piMultiple? b).map (· * q)
    | none, some q => (piMultiple? a).map (· * q)
    | none, none => none
  | .binary .div a b =>
    match b.rational? with
    | some q => if q = 0 then none else (piMultiple? a).map (· / q)
    | none => none
  | _ => none

/-- An angle in steps of π/12, moved by `shift` steps and reduced to one period. -/
def twelfths? (angle : Expr) (period shift : Int) : Option Nat :=
  match angle.piMultiple? with
  | some q => if [1, 2, 3, 4, 6].contains q.den
      then some (((q * 12).num + shift) % period).toNat else none
  | none => none

def rootOver (radicand denominator : Nat) : Expr :=
  let root := sqrt (.num (Number.ofInt radicand))
  if denominator = 1 then root else .binary .div root (.num (Number.ofInt denominator))

def sineTable? : Nat → Option Expr
  | 0 => some 0
  | 2 => some half
  | 3 => some (rootOver 2 2)
  | 4 => some (rootOver 3 2)
  | 6 => some 1
  | _ => none

def tangentTable? : Nat → Option Expr
  | 0 => some 0
  | 2 => some (rootOver 3 3)
  | 3 => some 1
  | 4 => some (rootOver 3 1)
  | _ => none

def oppositeValue (value : Expr) : Expr :=
  match value.rational? with
  | some q => .num (Number.ofRat (-q))
  | none => .binary .mul minusOne value

def shiftedSine? (angle : Expr) (shift : Int) : Option Expr := do
  let n ← twelfths? angle 24 shift
  let below := 12 < n
  let n := if below then n - 12 else n
  let value ← sineTable? (if 6 < n then 12 - n else n)
  return if below then oppositeValue value else value

def exactSin? (angle : Expr) : Option Expr := shiftedSine? angle 0

def exactCos? (angle : Expr) : Option Expr := shiftedSine? angle 6

/-- The tangent by steps of π/12 in one period; there is none at a right angle. -/
def tangentAt? (n : Nat) : Option Expr :=
  if n = 6 then none
  else if 6 < n then (tangentTable? (12 - n)).map oppositeValue
  else tangentTable? n

def exactTan? (angle : Expr) : Option Expr := (twelfths? angle 12 0).bind tangentAt?

def exactCotan? (angle : Expr) : Option Expr :=
  (twelfths? angle 12 0).bind fun n => tangentAt? ((18 - n) % 12)

def reciprocal? (value : Expr) : Option Expr :=
  match value with
  | .num z => z.rational?.bind fun q => if q = 0 then none else some (.num (Number.ofRat q⁻¹))
  | value => some (.binary .div 1 value)

def exactCircular? (f : Circular) (angle : Expr) : Option Expr :=
  match f with
  | .sin => exactSin? angle
  | .cos => exactCos? angle
  | .tan => exactTan? angle
  | .cotan => exactCotan? angle
  | .sec => (exactCos? angle).bind reciprocal?
  | .cosec => (exactSin? angle).bind reciprocal?
  | _ => none

end ComputerAlgebra.Expr

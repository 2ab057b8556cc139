import ComputerAlgebra.Evaluation.Basic
import ComputerAlgebra.Simplification.Angle

/-!
The rules of simplification for one operator. They fold exact numbers only and apply identities of
the operator; an identity that would hide an undefined value asks for a proof that it is not there.
-/

namespace ComputerAlgebra

def Circular.inverse? : Circular → Option Circular
  | .sin => some .arcsin
  | .cos => some .arccos
  | .tan => some .arctan
  | .cotan => some .arccotan
  | .sec => some .arcsec
  | .cosec => some .arccosec
  | _ => none

namespace Expr

variable (c : Config)

def whenExact (z : Option Number) : Option Expr :=
  match z with
  | some z => if z.isExact then some (.num z) else none
  | none => none

def simplifyUnary? (op : UnaryOp) (a : Expr) : Computation (Option Expr) :=
  match op, a with
  | .not, .bool b => return some (.bool !b)
  | .not, _ | .phi, _ => return none
  | op, .num z => return whenExact (← op.compute? c z)
  | .signum, .unary .signum x => return some (.unary .signum x)
  | .abs, .unary .abs x => return some (.unary .abs x)
  | .abs, .binary .mul m x => return if m.isMinusOne then some (.unary .abs x) else none
  | .circular f, .unary (.circular g) x =>
    return if f.inverse? = some g then some x else exactCircular? f a
  | .circular f, a => return exactCircular? f a
  | _, _ => return none

def validLogBase (e : Expr) : Computation Bool := do
  match ← e.evaled c with
  | .num z => return z.isFinite && !z.isZero && z != 1
  | _ => return false

def nonzero (e : Expr) : Computation Bool := provablyNonzero c (evaluate c) e

def positive (e : Expr) : Computation Bool := provablyPositive c (evaluate c) e

def simplifyIdentity? (op : BinaryOp) (a b : Expr) : Computation (Option Expr) := do
  match op with
  | .sum => return if a.isZero then some b else if b.isZero then some a else none
  | .minus =>
    if b.isZero then return some a
    else if a.isZero then return some (← negate c b)
    else return none
  | .mul =>
    if a.isZero || b.isZero then return some 0
    if a.isOne then return some b
    if b.isOne then return some a
    match b with
    | .binary .mul m x =>
      if a.isMinusOne && m.isMinusOne then return some x
      else return if a = b then some (.binary .pow a 2) else none
    | _ => return if a = b then some (.binary .pow a 2) else none
  | .div =>
    if b.isOne then return some a
    if b.isMinusOne then return some (← negate c a)
    if a.isZero then
      if ← nonzero c b then return some 0
    if a = b then
      if ← nonzero c b then return some 1
    return none
  | .pow =>
    if a.isOne || b.isZero then return some 1
    if b.isOne then return some a
    if b.isMinusOne then return some (.binary .div 1 a)
    if a.isZero then
      if ← positive c b then return some 0
    return none
  | .log =>
    if b.isOne then return some 0
    if a = b then
      if ← validLogBase c a then return some 1
    return none
  | _ => return none

def exactEquals? (a b : Expr) : Option Bool :=
  if a = b then some true
  else match a, b with
    | .num x, .num y => if x.isExact && y.isExact then some false else none
    | .bool _, .bool _ => some false
    | _, _ => none

def exactOrder? (test : Comparison) (a b : Expr) : Computation (Option Bool) :=
  match a.real?, b.real? with
  | some x, some y => do
    if x.isExact && y.isExact then return some (← x.holds c test y) else return none
  | _, _ => return none

def simplifyBinary? (op : BinaryOp) (a b : Expr) : Computation (Option Expr) :=
  match op with
  | .and | .or | .xor | .implies => return connectiveRule? op a b
  | .equals => return (exactEquals? a b).map .bool
  | .order test => return (← exactOrder? c test a b).map .bool
  | .mem => return (← contains? c b a).map .bool
  | op =>
    match a, b with
    | .num x, .num y =>
      if op = .div && y.isZero then return none else return whenExact (← op.compute? c x y)
    | a, b => simplifyIdentity? c op a b

end Expr
end ComputerAlgebra

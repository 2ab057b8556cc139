import ComputerAlgebra.Evaluation.Condition
import ComputerAlgebra.Expr.Measure
import ComputerAlgebra.Expr.Variables
import ComputerAlgebra.Number.Functions

/-!
The rules of evaluation for one operator. A rule sees evaluated operands and gives the value of the
node, or none when the node stays as it is. `evaluate` stands for the evaluation of a tree of its
own, which some identities need as a side condition.
-/

namespace ComputerAlgebra

def Circular.compute (c : Config) : Circular → Number → Computation Number
  | .sin, z => z.sin c
  | .cos, z => z.cos c
  | .tan, z => z.tan c
  | .cotan, z => z.cotan c
  | .sec, z => z.sec c
  | .cosec, z => z.cosec c
  | .arcsin, z => z.arcsin c
  | .arccos, z => z.arccos c
  | .arctan, z => z.arctan c
  | .arccotan, z => z.arccotan c
  | .arcsec, z => z.arcsec c
  | .arccosec, z => z.arccosec c

def UnaryOp.compute? (c : Config) : UnaryOp → Number → Computation (Option Number)
  | .factorial, z => return some (← z.factorial c)
  | .phi, z => return z.phi?
  | .signum, z => return some (← z.signum c)
  | .abs, z => return some (← z.abs c)
  | .circular f, z => return some (← f.compute c z)
  | .not, _ => return none

def BinaryOp.compute? (c : Config) : BinaryOp → Number → Number → Computation (Option Number)
  | .sum, x, y => return some (← x.add c y)
  | .minus, x, y => return some (← x.sub c y)
  | .mul, x, y => return some (← x.mul c y)
  | .div, x, y => return some (← x.div c y)
  | .pow, x, y => return some (← x.pow c y)
  | .log, x, y => return some (← x.log c y)
  | _, _, _ => return none

namespace Expr

def provablyNonzero (c : Config) (evaluate : Expr → Computation Expr) (e : Expr) :
    Computation Bool := do
  checkDepth c e
  match ← evaluate e with
  | .num z => return z.isFinite && !z.isZero
  | _ => return false

def provablyPositive (c : Config) (evaluate : Expr → Computation Expr) (e : Expr) :
    Computation Bool := do
  checkDepth c e
  match ← evaluate e with
  | .num (.real r) => return r.isFinite && !r.isZero && !r.isNegative
  | _ => return false

def connectiveRule? : BinaryOp → Expr → Expr → Option Expr
  | .and, .bool false, _ | .and, _, .bool false => some (.bool false)
  | .and, .bool true, b => some b
  | .and, a, .bool true => some a
  | .or, .bool true, _ | .or, _, .bool true => some (.bool true)
  | .or, .bool false, b => some b
  | .or, a, .bool false => some a
  | .xor, .bool x, .bool y => some (.bool (x != y))
  | .xor, .bool false, b => some b
  | .xor, a, .bool false => some a
  | .xor, .bool true, b => some (.unary .not b)
  | .xor, a, .bool true => some (.unary .not a)
  | .implies, .bool false, _ | .implies, _, .bool true => some (.bool true)
  | .implies, .bool true, b => some b
  | .implies, a, .bool false => some (.unary .not a)
  | _, _, _ => none

/-- Equality of values; inexact numbers are equal within the tolerance. -/
def equalsValue? (c : Config) (a b : Expr) : Computation (Option Bool) :=
  if a = b then return some true
  else match a, b with
    | .num x, .num y => return some (← Number.closeWithin c c.equalityBound x y)
    | .bool _, .bool _ => return some false
    | _, _ => return none

def orderValue? (c : Config) (test : Comparison) (a b : Expr) : Computation (Option Bool) :=
  match a.real?, b.real? with
  | some x, some y => return some (← x.holds c test y)
  | _, _ => return none

def unaryRule? (c : Config) (op : UnaryOp) (a : Expr) : Computation (Option Expr) :=
  match op, a with
  | .not, .bool b => return some (.bool !b)
  | op, .num z => return (← op.compute? c z).map .num
  | _, _ => return none

def identityRule? (c : Config) (evaluate : Expr → Computation Expr) (op : BinaryOp) (a b : Expr) :
    Computation (Option Expr) :=
  match op with
  | .mul =>
    return if a.isZero || b.isZero then some 0 else if a.isOne then some b
      else if b.isOne then some a else none
  | .div => do
    if b.isOne then return some a
    else if a.isZero then return if ← provablyNonzero c evaluate b then some 0 else none
    else return none
  | .pow =>
    return if a.isOne || b.isZero then some 1 else if b.isOne then some a else none
  | _ => return none

def binaryRule? (c : Config) (evaluate : Expr → Computation Expr) (op : BinaryOp) (a b : Expr) :
    Computation (Option Expr) :=
  match op with
  | .and | .or | .xor | .implies => return connectiveRule? op a b
  | .equals => return (← equalsValue? c a b).map .bool
  | .order test => return (← orderValue? c test a b).map .bool
  | .mem => return (← contains? c b a).map .bool
  | op =>
    match a, b with
    | .num x, .num y => return (← op.compute? c x y).map .num
    | a, b => identityRule? c evaluate op a b

/-- `x ↦ f(x)` is `f` when `f` does not mention `x`. -/
def etaRule? (parameter : String) (body : Expr) : Option Expr :=
  match body with
  | .app f [.var y] => if y = parameter ∧ parameter ∉ f.freeVars then some f else none
  | _ => none

/-- A condition that is known gives the expression or NaN; two conditions become one. -/
def providedRule? (e p : Expr) : Option Expr :=
  match e, p with
  | e, .bool b => some (if b then e else .num .nan)
  | .provided e q, p => some (.provided e (.binary .and q p))
  | _, _ => none

end Expr
end ComputerAlgebra

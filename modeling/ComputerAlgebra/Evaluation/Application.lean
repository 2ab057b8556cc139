import ComputerAlgebra.Expr.Operand
import ComputerAlgebra.Expr.Substitution

/-!
Reduction of an application by one step: a head that names a built-in function becomes its operator,
and a head that is a function takes its first argument in.
-/

namespace ComputerAlgebra.Expr

/-- The functions that are known by name, with the arguments they take. -/
def builtin? (name : String) (arguments : List Expr) : Option Expr :=
  match name, arguments with
  | "sin", [a] => some (.unary (.circular .sin) a)
  | "cos", [a] => some (.unary (.circular .cos) a)
  | "tan", [a] => some (.unary (.circular .tan) a)
  | "cotan", [a] => some (.unary (.circular .cotan) a)
  | "sec", [a] => some (.unary (.circular .sec) a)
  | "cosec", [a] => some (.unary (.circular .cosec) a)
  | "arcsin", [a] => some (.unary (.circular .arcsin) a)
  | "arccos", [a] => some (.unary (.circular .arccos) a)
  | "arctan", [a] => some (.unary (.circular .arctan) a)
  | "arccotan", [a] => some (.unary (.circular .arccotan) a)
  | "arcsec", [a] => some (.unary (.circular .arcsec) a)
  | "arccosec", [a] => some (.unary (.circular .arccosec) a)
  | "sqrt", [a] => some (sqrt a)
  | "ln", [a] => some (ln a)
  | "exp", [a] => some (exp a)
  | "log", [b, a] => some (.binary .log b a)
  | "abs", [a] => some (.unary .abs a)
  | "sign", [a] => some (.unary .signum a)
  | "factorial", [a] => some (.unary .factorial a)
  | "phi", [a] => some (.unary .phi a)
  | _, _ => none

def isRedex : Expr → Bool
  | .app (.lam _ _) _ => true
  | _ => false

def beta? (head : Expr) (arguments : List Expr) : Except Fault (Option Expr) :=
  match head, arguments with
  | .lam p body, a :: rest => do
    let reduced ← body.substitute (.var p) a
    return some (if rest.isEmpty then reduced else .app reduced rest)
  | _, _ => .ok none

/-- One step of reduction. A redex that is `self` again is not reduced, since that would go on
forever. -/
def reduceOnce? (self head : Expr) (arguments : List Expr) : Except Fault (Option Expr) := do
  let builtin := match head with
    | .var name => builtin? name arguments
    | _ => none
  match builtin with
  | some e => return some e
  | none =>
    match ← beta? head arguments with
    | some reduced => return if reduced.isRedex && reduced = self then none else some reduced
    | none => return none

end ComputerAlgebra.Expr

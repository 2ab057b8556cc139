import ComputerAlgebra.Expr.Measure
import ComputerAlgebra.Expr.Variables

/-!
Substitution for free occurrences. A function whose parameter is the substituted variable is left
alone, and a parameter that would capture a variable of the inserted value is renamed first.
-/

namespace ComputerAlgebra.Expr

/-- Replaces the free occurrences of a variable by another one that occurs nowhere. -/
def rename (x y : String) : Expr → Expr :=
  fold fun e parts => match e with
    | .var z => if z = x then .var y else e
    | .lam p _ => if p = x then e else e.withChildren parts
    | _ => e.withChildren parts

/-- Substitution in expressions of at most the given depth; `bound` lists the variables that are
free in the value. A pattern that is no variable has no name to keep a new parameter apart from. -/
def substituteWithin (x value : Expr) (bound : List String) : Nat → Expr → Except Fault Expr
  | 0, e => .ok e
  | depth + 1, e =>
    if e = x then .ok value
    else match e with
      | .lam p body =>
        let absent := match x with
          | .var y => y = p || !e.names.contains y
          | _ => false
        if absent then .ok e
        else if bound.contains p then
          match x with
          | .var y => do
            let q := freshName p (y :: join e.names value.names)
            return .lam q (← substituteWithin x value bound depth (rename p q body))
          | _ => .error .variableRequired
        else do return .lam p (← substituteWithin x value bound depth body)
      | _ => do
        return e.withChildren (← e.children.mapM (substituteWithin x value bound depth))

def substitute (e x value : Expr) : Except Fault Expr :=
  substituteWithin x value value.freeVars e.depth e

def instantiate : Expr → Expr → Except Fault Expr
  | .lam p body, argument => body.substitute (.var p) argument
  | _, _ => .error .functionRequired

end ComputerAlgebra.Expr

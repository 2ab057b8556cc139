import ComputerAlgebra.Expr.Kind

/-!
The variables of an expression, as lists of names without repetition, and names that are not taken.
-/

namespace ComputerAlgebra.Expr

def join (xs ys : List String) : List String := xs ++ ys.filter fun y => !xs.contains y

def names : Expr → List String :=
  fold fun e parts => match e with
    | .var x => [x]
    | _ => parts.foldl join []

def vars (e : Expr) : List String := e.names.filter fun x => !isConstantName x

def freeVars : Expr → List String :=
  fold fun e parts => match e with
    | .var x => if isConstantName x then [] else [x]
    | .lam p _ => (parts.foldl join []).filter (· ≠ p)
    | _ => parts.foldl join []

def freshIndex (base : String) (taken : List String) : Nat → Nat → Nat
  | 0, i => i
  | fuel + 1, i =>
    if taken.contains s!"{base}_{i}" then freshIndex base taken fuel (i + 1) else i

/-- The first of `base_1`, `base_2`, … that is not taken. -/
def freshName (base : String) (taken : List String) : String :=
  s!"{base}_{freshIndex base taken taken.length 1}"

end ComputerAlgebra.Expr

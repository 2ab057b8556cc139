import ComputerAlgebra.Expr.Operand

/-!
Comparison of operands of which one may still be a literal. By size only numbers compare; equality
is defined for all operands.
-/

namespace ComputerAlgebra.Operand

/-- Whether a comparison by size holds. A literal takes part as the number that it denotes. When an
operand is not real, the more special number of two speaks first. -/
def compare (c : Config) (test : Comparison) (a b : Operand) : Computation Bool :=
  match a, b with
  | .expr (.num x), .expr (.num y) =>
    if y.isReal && !x.isReal then Number.compare c test.swap y x else Number.compare c test x y
  | .expr (.num x), .literal l => do
    match ← coerce? c (.literal l) with
    | some y => Number.compare c test x y
    | none => throw .unsupported
  | .literal l, .expr (.num y) => do
    match ← coerce? c (.literal l) with
    | some x => Number.compare c test.swap y x
    | none => throw .unsupported
  | _, _ => throw .unsupported

/-- Whether an expression equals a literal. A number equals the literals that denote it. Text and
truth values equal no number, and floats no expression at all, though that takes the text of the
expression. -/
def equalsLiteral (c : Config) (e : Expr) (l : Literal) : Computation Bool :=
  match e, l with
  | e, .float _ | e, .complexFloat _ _ => do
    discard (e.text c)
    return false
  | .num _, .bool _ | .num _, .none | .num _, .text _ | .num _, .list _ => return false
  | .num z, l => return z = (← Number.ofLiteral c l)
  | _, _ => return false

def equals (c : Config) (a b : Operand) : Computation Bool :=
  match a, b with
  | .expr x, .expr y => return x = y
  | .expr e, .literal l | .literal l, .expr e => equalsLiteral c e l
  | _, _ => return false

end ComputerAlgebra.Operand

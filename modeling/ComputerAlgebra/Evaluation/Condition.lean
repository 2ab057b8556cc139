import ComputerAlgebra.Expr.Kind

/-!
Where a node is defined, as far as its reduced parts tell: division by zero, powers of zero,
factorials and totients outside their domain, comparisons of what has no order.
-/

namespace ComputerAlgebra.Expr

def inInterval? (c : Config) (element low high : Expr) : Computation (Option Bool) :=
  match element.real?, low.real?, high.real? with
  | some x, some l, some h => do
    if x.isNaN || l.isNaN || h.isNaN then return none
    if ← l.holds c .lessOrEqual x then return some (← x.holds c .lessOrEqual h)
    else return some false
  | _, _, _ => return none

def contains? (c : Config) (collection element : Expr) : Computation (Option Bool) :=
  match collection with
  | .interval low high => inInterval? c element low high
  | _ => return none

def hasNoOrder : Expr → Bool
  | .bool _ | .interval _ _ => true
  | .num z => !z.isReal || z.isNaN
  | _ => false

/-- Whether the node is defined for the given parts; none when that is undecided. -/
def condition? (c : Config) : Expr → List Expr → Computation (Option Bool)
  | .binary .div _ _, [_, b] => do
    if b.isZero then return some false
    else if b.isSet then return (← contains? c b 0).map not
    else return if b.isNumber then some true else none
  | .binary .pow _ _, [a, n] =>
    return if a.isZero && n.real?.isSome then some !n.isNegative else some true
  | .unary .factorial _, [a] =>
    match a.integer? with
    | some n => return some (0 ≤ n)
    | none => return some true
  | .unary .phi _, [a] => return if a.isNumber then some a.integer?.isSome else none
  | .binary (.order _) _ _, [a, b] =>
    return if a.hasNoOrder || b.hasNoOrder then some false
    else if a.isNumber && b.isNumber then some true else none
  | .binary .mem _ _, [_, s] =>
    match s with
    | .num _ | .bool _ => return some false
    | _ => return if s.isSet then some true else none
  | _, _ => return some true

end ComputerAlgebra.Expr

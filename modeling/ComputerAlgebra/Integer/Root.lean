import ComputerAlgebra.Integer.Rounding

/-!
Whole roots of natural numbers. `floorRoot` runs Newton's iteration downward from a
power of two above the root; `exactRoot?` keeps the answer only when it is exact.
-/

namespace ComputerAlgebra

def newtonStep (n k x : Nat) : Nat :=
  ((k - 1) * x + n / x.pow (k - 1)) / k

/-- Newton's iteration for the `k`-th root of `n`, which stops when it no longer goes down. -/
def newtonRoot (n k x : Nat) : Nat :=
  if newtonStep n k x < x then newtonRoot n k (newtonStep n k x) else x
termination_by x

/-- The largest `r` with `r ^ k ≤ n`, for a positive degree `k`. -/
def floorRoot (n k : Nat) : Nat :=
  if n < 2 then n else newtonRoot n k (1 <<< ((bitLength n + k - 1) / k))

def floorSqrt (n : Nat) : Nat := floorRoot n 2

/-- The natural number whose `k`-th power is `n`, if there is one. Negative radicands and
degrees below one have no root. -/
def exactRoot? (n k : Int) : Option Int :=
  if n < 0 ∨ k < 1 then none
  else
    let root := floorRoot n.toNat k.toNat
    if root.pow k.toNat = n.toNat then some root else none

end ComputerAlgebra

/-!
Logarithms of fractions that are whole numbers. Base and target are made greater than one, and the
powers of the base are run through until they reach the target.
-/

namespace ComputerAlgebra

/-- The exponent at which the powers of `a / b`, from `p / q` on, first reach `c / d`; `k` counts
the powers. The exponent is given when the power meets the target exactly. -/
def reachPower? (a b c d : Nat) : Nat → Nat → Nat → Nat → Option Nat
  | 0, _, _, _ => none
  | fuel + 1, k, p, q =>
    if p * d < c * q then reachPower? a b c d fuel (k + 1) (p * a) (q * b)
    else if p = c ∧ q = d then some k else none

/-- The `k` with `base ^ k = x`, for `x` and `base` greater than one. By Bernoulli's inequality a
power beyond `x / (base - 1)` has passed the target. -/
def powerIndex? (x base : Rat) : Option Nat :=
  let steps := (x / (base - 1)).ceil.toNat + 2
  reachPower? base.num.natAbs base.den x.num.natAbs x.den steps 0 1 1

/-- The integer `k` with `base ^ k = x`, for a positive `x` and a positive `base` other than one. -/
def exactLog? (x base : Rat) : Option Int :=
  if x ≤ 0 ∨ base ≤ 0 ∨ base = 1 then none
  else if x = 1 then some 0
  else
    let above := fun (q : Rat) => if q < 1 then q⁻¹ else q
    let sign : Int := if (base < 1) = (x < 1) then 1 else -1
    (powerIndex? (above x) (above base)).map (sign * ·)

end ComputerAlgebra

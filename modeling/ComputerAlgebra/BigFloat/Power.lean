import ComputerAlgebra.BigFloat.Basic

/-!
Integer powers of floating-point numbers. Small powers are exact before they are rounded; large ones
square a mantissa that is kept to some digits more than asked for.
-/

namespace ComputerAlgebra.BigFloat

/-- A positive mantissa cut to at most `bits` binary digits, downward or upward. The pair
`(m, e)` stands for `m * 2^e`. -/
def cutMantissa (bits : Nat) (up : Bool) : Nat × Int → Nat × Int
  | (m, e) =>
    let excess := bitLength m - bits
    let raised := if up then m + (1 <<< excess) - 1 else m
    (raised >>> excess, e + excess)

/-- Binary powering of `square`, multiplied into `result`; each product is cut to `work`
binary digits in the given direction. -/
def cutPower (work : Nat) (up : Bool) : Nat → Nat → Nat × Int → Nat × Int → Nat × Int
  | 0, _, _, result => result
  | fuel + 1, n, (m, e), (rm, re) =>
    if n = 0 then (rm, re)
    else
      let result := if n % 2 = 1 then cutMantissa work up (rm * m, re + e) else (rm, re)
      cutPower work up fuel (n / 2) (cutMantissa work up (m * m, e + e)) result

def powPositive (r : Rounding) (x : Dyadic) (n : Nat) : Dyadic :=
  let (m, k) := parts x
  if m.natAbs = 1 then .ofIntWithPrec (if n % 2 = 1 then m else 1) (k * n)
  else if n ≤ 2 ∨ bitLength m.natAbs * n < 1000 then roundDyadic r (x ^ n)
  else
    let (size, e) := cutPower (r.bits + 4 * bitLength n + 4) (r.direction = .awayFromZero)
      (bitLength n) n (m.natAbs, -k) (1, 0)
    let signed : Int := if m < 0 ∧ n % 2 = 1 then -size else size
    roundDyadic r (.ofIntWithPrec signed (-e))

/-- An integer power of a dyadic number; none for a negative power of zero. -/
def powDyadic? (r : Rounding) (x : Dyadic) (n : Int) : Option Dyadic :=
  if n = 0 then some 1
  else if 0 < n then some (powPositive r x n.toNat)
  else if n = -1 then quotient? r 1 x
  else quotient? r 1 (powPositive ⟨r.bits + 5, r.direction.reciprocal⟩ x n.natAbs)

def powInt? (r : Rounding) (x : BigFloat) (n : Int) : Option BigFloat :=
  match x with
  | .finite x => (powDyadic? r x n).map .finite
  | .nan => some .nan
  | .infinity s =>
    if 0 < n then some (.infinity (s && n % 2 = 1))
    else if n = 0 then some .nan
    else some (.finite 0)

end ComputerAlgebra.BigFloat

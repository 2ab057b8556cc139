import ComputerAlgebra.BigFloat.Order
import ComputerAlgebra.BigFloat.Sum

/-!
Binary floating-point numbers with a mantissa of any length and an unbounded exponent.
The finite values are the dyadic rationals, so equal numbers are equal values; every
operation gives the exact result, rounded once to a given count of bits.
-/

namespace ComputerAlgebra

/-- A dyadic rational or one of the three special values. -/
inductive BigFloat where
  | finite (x : Dyadic)
  | infinity (negative : Bool)
  | nan
deriving DecidableEq

namespace BigFloat

def isNegative (x : Dyadic) : Bool := x < 0

def absDyadic (x : Dyadic) : Dyadic := if x < 0 then -x else x

def floorDyadic : Dyadic → Int
  | .zero => 0
  | .ofOdd n k _ => if 0 ≤ k then n >>> k.toNat else n <<< (-k).toNat

/-- The integer nearest to `x`, ties to even; it is zero below one half. -/
def nearestInt : Dyadic → Int
  | .zero => 0
  | .ofOdd n k _ => if bitLength n.natAbs < k then 0 else scaleNearest n (-k)

/-- `x * 2^scale`, cut toward zero to an integer. -/
def toFixed (scale : Int) : Dyadic → Int
  | .zero => 0
  | .ofOdd n k _ =>
    if k ≤ scale then n <<< (scale - k).toNat else shiftTowardZero n (k - scale).toNat

def ofFixed (n : Int) (scale : Int) : Dyadic := .ofIntWithPrec n scale

def sqrtDyadic (r : Rounding) (x : Dyadic) : Dyadic :=
  let (n, k) := parts x
  if n ≤ 0 then 0
  else
    -- Two further digits, an even scale, and a last digit that tells an inexact root.
    let wanted := 2 * (r.bits + 2) - bitLength n.natAbs
    let shift := if (k + wanted) % 2 = 0 then wanted else wanted + 1
    let radicand := n.toNat <<< shift
    let root := floorSqrt radicand
    let sticky : Int := if root * root = radicand then 2 * root else 2 * root + 1
    roundDyadic r (.ofIntWithPrec sticky ((k + shift) / 2 + 1))

/-- Functions that reduce their argument by a period or by a multiple of log 2 have no value beyond
this magnitude: that many digits of the argument lie before the point. -/
def maxMagnitude : Int := 1 <<< 24

section Arithmetic
variable (r : Rounding)

def add : BigFloat → BigFloat → BigFloat
  | .finite x, .finite y => .finite (addDyadic r x y)
  | .nan, _ | _, .nan => .nan
  | .infinity s, .infinity t => if s = t then .infinity s else .nan
  | .infinity s, .finite _ | .finite _, .infinity s => .infinity s

def neg : BigFloat → BigFloat
  | .finite x => .finite (roundDyadic r (-x))
  | .infinity s => .infinity !s
  | .nan => .nan

def sub (x y : BigFloat) : BigFloat :=
  match x, y with
  | .finite a, .finite b => .finite (addDyadic r a (-b))
  | _, _ => add r x (neg r y)

def mul : BigFloat → BigFloat → BigFloat
  | .finite x, .finite y => .finite (roundDyadic r (x * y))
  | .nan, _ | _, .nan => .nan
  | .infinity s, .infinity t => .infinity (s != t)
  | .infinity s, .finite x | .finite x, .infinity s =>
    if x = 0 then .nan else .infinity (s != isNegative x)

/-- The quotient; none for a zero divisor, unless the dividend is NaN-free and infinite. -/
def div? : BigFloat → BigFloat → Option BigFloat
  | .finite x, .finite y => (quotient? r x y).map .finite
  | x, .finite y =>
    if y = 0 then none
    else match x with
      | .infinity s => some (.infinity (s != isNegative y))
      | _ => some .nan
  | .finite _, .infinity _ => some (.finite 0)
  | _, _ => some .nan

end Arithmetic

def shift (x : BigFloat) (k : Int) : BigFloat :=
  match x with
  | .finite x => .finite (x <<< k)
  | x => x

def opposite : BigFloat → BigFloat
  | .finite x => .finite (-x)
  | .infinity s => .infinity !s
  | .nan => .nan

def abs : BigFloat → BigFloat
  | .finite x => .finite (absDyadic x)
  | .infinity _ => .infinity false
  | .nan => .nan

def isZero (x : BigFloat) : Bool := x = .finite 0

def isFinite : BigFloat → Bool
  | .finite _ => true
  | _ => false

def negative : BigFloat → Bool
  | .finite x => isNegative x
  | .infinity s => s
  | .nan => false

/-- The order of two floats; NaN counts as equal to everything and is excluded by the callers. -/
def order : BigFloat → BigFloat → Ordering
  | .finite x, .finite y => if x < y then .lt else if y < x then .gt else .eq
  | .infinity s, .infinity t => if s = t then .eq else if s then .lt else .gt
  | .infinity s, .finite _ => if s then .lt else .gt
  | .finite _, .infinity t => if t then .gt else .lt
  | _, _ => .eq

end BigFloat
end ComputerAlgebra

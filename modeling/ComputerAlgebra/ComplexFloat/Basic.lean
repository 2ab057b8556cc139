import ComputerAlgebra.BigFloat.Circular
import ComputerAlgebra.BigFloat.Power

/-!
Complex numbers with floating-point components: arithmetic, exponential, logarithm and powers on
the principal branch, whose arguments lie above -π and reach π. Operations that divide have no
value where the divisor is zero.
-/

namespace ComputerAlgebra

structure ComplexFloat where
  re : BigFloat
  im : BigFloat
deriving DecidableEq

namespace BigFloat

def exactMul : BigFloat → BigFloat → BigFloat
  | .finite x, .finite y => .finite (x * y)
  | x, y => mul 1 x y

def zero : BigFloat := .finite 0

/-- A power of a float that is not negative, or of any float to a whole exponent. Half-integer
exponents go through the square root, all others through the logarithm; whole exponents too large to
be written down have no power. -/
def pow? (r : Rounding) (x t : BigFloat) : Option BigFloat :=
  let w := r.more 10
  let general := exp r (exactMul t (log w x))
  match t with
  | .finite e =>
    let (n, k) := parts e
    if k < -maxMagnitude then none
    else if k ≤ 0 then powInt? r x (n <<< (-k).toNat)
    else if k = 1 then
      if n = 1 then some (sqrt r x)
      else if n = -1 then div? r (.finite 1) (sqrt w x)
      else powInt? r (sqrt w x) n
    else some general
  | _ => some general

end BigFloat

namespace ComplexFloat
open BigFloat (Rounding isZero shift opposite exactMul)

def ofReal (x : BigFloat) : ComplexFloat := ⟨x, .zero⟩

variable (r : Rounding)

def add (z w : ComplexFloat) : ComplexFloat := ⟨z.re.add r w.re, z.im.add r w.im⟩

def sub (z w : ComplexFloat) : ComplexFloat := ⟨z.re.sub r w.re, z.im.sub r w.im⟩

def mul (z w : ComplexFloat) : ComplexFloat :=
  ⟨(exactMul z.re w.re).sub r (exactMul z.im w.im),
    (exactMul z.re w.im).add r (exactMul z.im w.re)⟩

def scale (x : BigFloat) (z : ComplexFloat) : ComplexFloat := ⟨z.re.mul r x, z.im.mul r x⟩

def round (z : ComplexFloat) : ComplexFloat := scale r (.finite 1) z

def abs (z : ComplexFloat) : BigFloat :=
  if isZero z.re then z.im.abs.mul r (.finite 1)
  else if isZero z.im then z.re.abs.mul r (.finite 1)
  else BigFloat.sqrt r ((exactMul z.re z.re).add (r.step 4) (exactMul z.im z.im))

def inv? (z : ComplexFloat) : Option ComplexFloat := do
  let norm := (exactMul z.re z.re).add (r.step 10) (exactMul z.im z.im)
  return ⟨← z.re.div? r norm, opposite (← z.im.div? r norm)⟩

def exp (z : ComplexFloat) : ComplexFloat :=
  if isZero z.re then
    let (c, s) := BigFloat.cosSin r z.im
    ⟨c, s⟩
  else if isZero z.im then ofReal (BigFloat.exp r z.re)
  else
    let size := BigFloat.exp (r.more 4) z.re
    let (c, s) := BigFloat.cosSin (r.more 4) z.im
    ⟨size.mul r c, size.mul r s⟩

/-- The sum of two squares whose logarithm is wanted. Near one it is found anew with digits enough
to hold all of it. -/
def squareSum (x y : Dyadic) : Dyadic :=
  let rough := BigFloat.addDyadic (r.step 20) (x * x) (y * y)
  let excess := BigFloat.addDyadic ⟨10, .towardZero⟩ rough (-1)
  if excess = 0 ∨ BigFloat.magnitude excess < -10 then
    let places := max (BigFloat.parts (x * x)).2 (BigFloat.parts (y * y)).2
    BigFloat.addDyadic (r.step (20 + places).toNat) (x * x) (y * y)
  else rough

def logAbs (z : ComplexFloat) : BigFloat :=
  match z.re, z.im with
  | .nan, _ | _, .nan => .nan
  | .infinity _, _ | _, .infinity _ => .infinity false
  | .finite x, .finite y =>
    if y = 0 then BigFloat.log r (.finite (BigFloat.absDyadic x))
    else if x = 0 then BigFloat.log r (.finite (BigFloat.absDyadic y))
    else shift (BigFloat.log r (.finite (squareSum r x y))) (-1)

def log (z : ComplexFloat) : ComplexFloat := ⟨logAbs r z, BigFloat.angle r z.im z.re⟩

def sqrt? (z : ComplexFloat) : Option ComplexFloat := do
  if isZero z.im then
    return if z.re.negative then ⟨.zero, BigFloat.sqrt r (opposite z.re)⟩
      else ofReal (BigFloat.sqrt r z.re)
  let work := r.step 20
  -- The sum of two numbers of one sign keeps all its digits.
  let sum := (abs work z).add work z.re.abs
  let large := BigFloat.sqrt r (shift sum (-1))
  let small ← z.im.div? r (BigFloat.sqrt work (shift sum 1))
  if !z.re.negative then return ⟨large, small⟩
  else if z.im.negative then return ⟨opposite small, opposite large⟩
  else return ⟨small, large⟩

def intPower (a b : Int) : Nat → Int × Int
  | 0 => (1, 0)
  | n + 1 =>
    let (c, d) := intPower a b n
    (a * c - b * d, a * d + b * c)

/-- How a component enters a short power: its mantissa, the power of two below it, and its width. A
component that is not finite has no mantissa and counts as zero; its place and width only bear on
which powers are short. -/
def component : BigFloat → Int × Int × Int
  | .finite x => let (n, k) := BigFloat.parts x; (n, k, bitLength n.natAbs)
  | .infinity false => (0, 456, -2)
  | .infinity true => (0, 789, -3)
  | .nan => (0, 123, -1)

/-- A positive power of a number with two nonzero components. Short powers are exact before they are
rounded, long ones go through the logarithm. -/
def powPositive (z : ComplexFloat) (n : Nat) : ComplexFloat :=
  if n = 1 then round r z
  else if n = 2 then
    ⟨(exactMul z.re z.re).sub r (exactMul z.im z.im), shift (z.re.mul r z.im) 1⟩
  else
    let (a, k, v) := component z.re
    let (b, l, w) := component z.im
    let common := max k l
    if n * ((k - l).natAbs + max v w) < 10000 then
      let (c, d) := intPower (a <<< (common - k).toNat) (b <<< (common - l).toNat) n
      let value := fun m => BigFloat.finite (BigFloat.roundDyadic r (.ofIntWithPrec m (common * n)))
      ⟨value c, value d⟩
    else exp r (scale (r.step 10) (.finite (n : Int)) (log (r.step 10) z))

def powInt? (z : ComplexFloat) (n : Int) : Option ComplexFloat := do
  if isZero z.im then return ofReal (← BigFloat.powInt? r z.re n)
  if isZero z.re then
    let v ← BigFloat.powInt? r z.im n
    return match n % 4 with
      | 0 => ofReal v
      | 1 => ⟨.zero, v⟩
      | 2 => ofReal (opposite v)
      | _ => ⟨.zero, opposite v⟩
  if n = 0 then return ofReal (.finite 1)
  if n = -1 then inv? r z
  else if n < 0 then inv? r (powPositive (r.step 4) z n.natAbs)
  else return powPositive r z n.natAbs

def powReal? (z : ComplexFloat) (t : BigFloat) : Option ComplexFloat := do
  let work := r.step 10
  let general := exp r (scale work t (log work z))
  match t with
  | .finite e =>
    let (n, k) := BigFloat.parts e
    if k < -BigFloat.maxMagnitude then none
    else if k ≤ 0 then powInt? r z (n <<< (-k).toNat)
    else if k = 1 then powInt? r (← sqrt? work z) n
    else return general
  | _ => return general

def pow? (z w : ComplexFloat) : Option ComplexFloat :=
  if isZero w.im then powReal? r z w.re
  else
    let work := r.step 10
    some (exp r (mul work (log work z) w))

end ComplexFloat
end ComputerAlgebra

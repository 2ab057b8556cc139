import ComputerAlgebra.ComplexFloat.Gamma
import ComputerAlgebra.Integer.Log
import ComputerAlgebra.Number.Order

/-!
Functions on numbers: powers, logarithms, circular functions and their inverses, absolute value,
sign, factorial and Euler's totient. Exact arguments give exact values where a rule finds them; all
else is computed in floats and recognised again.
-/

namespace ComputerAlgebra.Number

variable (c : Config)

def maxExactPower : Nat := 4096

def maxRootDegree : Nat := 64

def maxExactFactorial : Int := 10000

def maxTotientDivisor : Nat := tenTo 6

/-- Binary powering: `square` runs through the powers of the base whose exponents are powers of
two, `n` holds the digits that are left. -/
def powLoop (result square : Number) (n : Nat) : Computation Number :=
  if _h : n = 0 then return result
  else do
    let result ← if n % 2 = 1 then mul c result square else pure result
    if n / 2 = 0 then return result
    else powLoop result (← mul c square square) (n / 2)
termination_by n
decreasing_by omega

/-- The float computation of a power. Negative real bases count as complex. -/
def floatPow (base exponent : Number) : Option ComplexFloat :=
  let z := base.toComplexFloat c
  let w := exponent.toComplexFloat c
  if base.isNegative then (z.round c.bits).pow? c.bits w
  else if base.isReal && exponent.isReal then (z.re.pow? c.bits w.re).map .ofReal
  else z.pow? c.bits w

/-- A power of a fraction. The powers of one and minus one go by the parity of the exponent, which
may be too large to multiply that often. -/
def ratPow (q : Rat) (n : Nat) : Rat :=
  if q = 1 ∨ q = -1 then (if n % 2 = 1 then q else 1) else q ^ n

theorem ratPow_eq (q : Rat) (n : Nat) : ratPow q n = q ^ n := by
  unfold ratPow
  split
  · next unit =>
    induction n with
    | zero => simp
    | succ n ih =>
      rw [Rat.pow_succ, ← ih]
      rcases unit with rfl | rfl <;> rcases Nat.mod_two_eq_zero_or_one n with h | h <;>
        simp [h, Nat.add_mod, show (-1 : Rat) * -1 = 1 by decide +kernel]
  · rfl

def powInt (base : Number) (n : Int) : Computation Number :=
  if base.isZero then return if 0 < n then 0 else positiveInfinity
  else match base.rational? with
    | some q =>
      let power := ratPow q n.natAbs
      return ofRat (if n < 0 then power⁻¹ else power)
    | none =>
      if base.isExact && n.natAbs ≤ maxExactPower then do
        let power ← powLoop c 1 base n.natAbs
        if n < 0 then div c 1 power else return power
      else
        let z := base.toComplexFloat c
        ofComputation c <|
          if base.isReal then (z.re.powInt? c.bits n).map .ofReal else z.powInt? c.bits n

def exactRoot? (q : Rat) (degree : Nat) : Option Rat :=
  if maxRootDegree < degree || (q < 0 && degree % 2 == 0) then none
  else
    let root := fun (n : Nat) => ComputerAlgebra.exactRoot? n degree
    match root q.num.natAbs, root q.den with
    | some n, some d => some (mkRat (if q < 0 then -n else n) d.toNat)
    | _, _ => none

def rootOf? (base exponent : Number) : Option (Rat × Int) :=
  match base.rational?, exponent.rational? with
  | some q, some e => (exactRoot? q e.den).map (·, e.num)
  | _, _ => none

/-- `base ^ exponent` on the principal branch; `0 ^ 0` is one. -/
def pow (base exponent : Number) : Computation Number := do
  if base.isNaN || exponent.isNaN then return nan
  if exponent.isZero then return 1
  match exponent.integer? with
  | some n => powInt c base n
  | none =>
    match rootOf? base exponent with
    | some (root, n) => powInt c (ofRat root) n
    | none =>
      if !base.isZero then ofComputation c (floatPow c base exponent)
      else if exponent.isReal then return if exponent.isNegative then positiveInfinity else 0
      else return if ← exponent.re.holds c .greater 0 then 0 else nan

def half : Number := ofRat (1 / 2)

def sqrt (z : Number) : Computation Number := pow c z half

def ln (z : Number) : Computation Number :=
  if z.isNaN then return nan
  else if z.isZero then return negativeInfinity
  else if z = 1 then return 0
  else
    let w := z.toComplexFloat c
    ofComputation c <| some <|
      if z.isNegative then (w.round c.bits).log c.bits
      else if z.isReal then .ofReal (w.re.log c.bits)
      else w.log c.bits

def exponentOf? (base z : Number) : Option Int :=
  match base.rational?, z.rational? with
  | some b, some x => exactLog? x b
  | _, _ => none

/-- The logarithm in a base; exact when `z` is a power of the base. -/
def log (base z : Number) : Computation Number := do
  if base.isNaN || z.isNaN then return nan
  match exponentOf? base z with
  | some k => return ofInt k
  | none =>
    let numerator ← ln c z
    div c numerator (← ln c base)

def sin (z : Number) : Computation Number :=
  if z.isNaN then return nan else if z.isZero then return 0
  else ofComputation c (some ((z.toComplexFloat c).sin c.bits))

def cos (z : Number) : Computation Number :=
  if z.isNaN then return nan else if z.isZero then return 1
  else ofComputation c (some ((z.toComplexFloat c).cos c.bits))

def tan (z : Number) : Computation Number := do
  let s ← sin c z
  div c s (← cos c z)

def cotan (z : Number) : Computation Number := do
  let k ← cos c z
  div c k (← sin c z)

def sec (z : Number) : Computation Number := do div c 1 (← cos c z)
def cosec (z : Number) : Computation Number := do div c 1 (← sin c z)

def arcsin (z : Number) : Computation Number :=
  if z.isNaN then return nan else ofComputation c ((z.toComplexFloat c).arcsin? c.bits)

def arccos (z : Number) : Computation Number :=
  if z.isNaN then return nan else ofComputation c ((z.toComplexFloat c).arccos? c.bits)

def arctan (z : Number) : Computation Number :=
  if z.isNaN then return nan else ofComputation c (some ((z.toComplexFloat c).arctan c.bits))

def arccotan (z : Number) : Computation Number := do arctan c (← div c 1 z)
def arcsec (z : Number) : Computation Number := do arccos c (← div c 1 z)
def arccosec (z : Number) : Computation Number := do arcsin c (← div c 1 z)

def abs (z : Number) : Computation Number :=
  match z with
  | .real x => do return .real (← if x.isNegative then x.neg else pure x)
  | .complex re im => do
    if !z.isFinite then return positiveInfinity
    let square ← re.mul c re
    sqrt c (.real (← square.add c (← im.mul c im)))

/-- `z / |z|`, and zero at zero. -/
def signum (z : Number) : Computation Number :=
  match z with
  | .real x =>
    return if x.isNaN then nan else if x.isZero then 0 else ofInt (if x.isNegative then -1 else 1)
  | .complex _ _ => do div c z (← abs c z)

/-- `1 · 2 ⋯ n`, multiplied in halves so that the factors stay balanced. -/
def productUpTo (low high : Nat) : Nat :=
  if _h : high < low then 1
  else if low = high then low
  else
    let middle := (low + high) / 2
    productUpTo low middle * productUpTo (middle + 1) high
termination_by high + 1 - low
decreasing_by all_goals omega

/-- `Γ(z + 1)`; undefined at the negative integers. -/
def factorial (z : Number) : Computation Number :=
  if z.isNaN then return nan
  else
    let viaGamma := fun (_ : Unit) =>
      let w := z.toComplexFloat c
      ofComputation c (ComplexFloat.gamma? c.bits ⟨w.re.add c.bits (.finite 1), w.im⟩)
    match z.integer? with
    | some n =>
      if n < 0 then return nan
      else if n ≤ maxExactFactorial then return ofInt (productUpTo 1 n.toNat)
      else viaGamma ()
    | none => viaGamma ()

def stripFactor (d n : Nat) : Nat :=
  if _h : 1 < d ∧ 0 < n ∧ n % d = 0 then stripFactor d (n / d) else n
termination_by n
decreasing_by exact Nat.div_lt_self _h.2.1 _h.1

/-- Trial division: `n` is what is left of the argument, and `result` the totient less the factors
that `n` contributes. None when a factor beyond the trial bound is left. -/
def totientLoop : Nat → Nat → Nat → Nat → Option Nat
  | 0, _, _, _ => none
  | fuel + 1, divisor, n, result =>
    if n < divisor * divisor then some (if 1 < n then result - result / n else result)
    else if maxTotientDivisor < divisor then none
    else
      let next := if divisor = 2 then 3 else divisor + 2
      if n % divisor = 0 then
        totientLoop fuel next (stripFactor divisor n) (result - result / divisor)
      else totientLoop fuel next n result

def totient? (n : Nat) : Option Nat := totientLoop maxTotientDivisor 2 n n

/-- Euler's totient; zero for the other integers, NaN for other numbers, and none when an integer
has a factor too large to be found. -/
def phi? (z : Number) : Option Number :=
  match z.integer? with
  | none => some nan
  | some n => if n ≤ 0 then some 0 else (totient? n.toNat).map fun t => ofInt t

def constant (name : String) : Computation Number := do
  Computation.settle c
  match name with
  | "pi" => return .real (← RealNumber.ofFloat c (.finite (BigFloat.piDyadic c.bits)))
  | "e" => return .real (← RealNumber.ofFloat c (.finite (BigFloat.eDyadic c.bits)))
  | _ => throw (.unknownConstant name)

/-- Whether two numbers differ by at most a tolerance, which is only asked for when it matters: NaN
is close to itself only, and so is each infinity. -/
def closeWithin (tolerance : Except Fault Rat) (a b : Number) : Computation Bool := do
  if a = b then return true
  if !a.isFinite || !b.isFinite then return false
  let distance ← abs c (← sub c a b)
  distance.re.holds c .lessOrEqual (.rational (← tolerance))

end ComputerAlgebra.Number

import ComputerAlgebra.BigFloat.Fixed

/-!
The exponential function and the natural logarithm. The work is done in fixed point with enough
extra digits that rounding the answer gives the nearest value.
-/

namespace ComputerAlgebra.BigFloat

def guardBits : Nat := 30

/-- `exp x`: a multiple of log 2 is split off, which only moves the exponent. -/
def expDyadic (bits : Nat) (x : Dyadic) : Dyadic :=
  let top := magnitude x
  if x = 0 ∨ top < -(bits : Int) - 10 then 1
  else
    let w := bits + guardBits
    let g := w + top.toNat + 10
    let scaled := toFixed g x
    let unit := Fixed.ln2 g
    let n := scaled / unit
    let rest := shiftTowardZero (scaled - n * unit) (g - w)
    roundDyadic bits (ofFixed (Fixed.exp w rest) w <<< n)

/-- `log x` for a positive `x`. Near one, the distance from one fixes how many digits are lost and
have to be added. -/
def logDyadic (bits : Nat) (x : Dyadic) : Dyadic :=
  if x = 1 then 0
  else
    let top := magnitude x
    -- The mantissa lies between 0.7 and 1.4.
    let mantissa := x >>> top
    let (mantissa, e) := if 5 * mantissa < 7 * ofFixed 1 1 then (mantissa <<< (1 : Int), top - 1)
      else (mantissa, top)
    let lost := if e = 0 then (-(magnitude (mantissa - 1))).toNat else 0
    let w := bits + guardBits + lost + bitLength e.natAbs
    let sum := Fixed.log w (toFixed w mantissa) + e * Fixed.ln2 w
    roundDyadic bits (ofFixed sum w)

def exp (r : Rounding) : BigFloat → BigFloat
  | .finite x =>
    if maxMagnitude < magnitude x then .nan
    else .finite (roundDyadic r (expDyadic r.workingBits x))
  | .infinity true => .finite 0
  | .infinity false => .infinity false
  | .nan => .nan

def log (r : Rounding) : BigFloat → BigFloat
  | .finite x =>
    if x = 0 then .infinity true else .finite (roundDyadic r (logDyadic r.workingBits x))
  | .infinity _ => .infinity false
  | .nan => .nan

def sqrt (r : Rounding) : BigFloat → BigFloat
  | .finite x => .finite (sqrtDyadic r x)
  | .infinity _ => .infinity false
  | .nan => .nan

/-- Hyperbolic cosine and sine. For a small argument the sine comes from a short series, since the
difference of two exponentials would lose its digits. -/
def coshSinhDyadic (bits : Nat) (x : Dyadic) : Dyadic × Dyadic :=
  let top := magnitude x
  if x = 0 ∨ top < -(bits : Int) then (1, roundDyadic bits x)
  else
    let w := bits + guardBits + 2 * (-top).toNat
    let up := expDyadic w x
    let down := (quotient? w 1 up).getD 0
    (addDyadic bits up down >>> (1 : Int), addDyadic bits up (-down) >>> (1 : Int))

def coshSinh (r : Rounding) : BigFloat → BigFloat × BigFloat
  | .finite x =>
    if maxMagnitude < magnitude x then (.nan, .nan)
    else
      let (c, s) := coshSinhDyadic r.workingBits x
      (.finite (roundDyadic r c), .finite (roundDyadic r s))
  | .infinity s => (.infinity false, .infinity s)
  | .nan => (.nan, .nan)

def piDyadic (r : Rounding) : Dyadic :=
  let w := r.bits + guardBits
  roundDyadic r (ofFixed (Fixed.pi w) w)

def eDyadic (bits : Nat) : Dyadic := expDyadic bits 1

end ComputerAlgebra.BigFloat

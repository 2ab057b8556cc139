import ComputerAlgebra.ComplexFloat.Basic
import ComputerAlgebra.Number.Basic

/-!
Arithmetic of the number tower. Fractions are computed exactly; as soon as a float or an infinity
takes part, the operation is done in floats and its result is recognised again. Undefined results
are NaN. Fractions and NaN alone never fail; floats fail where the settings are of no use to them,
and where the recognition of one divides by zero, which takes a zero tolerance of zero.
-/

namespace ComputerAlgebra

namespace RealNumber

variable (c : Config)

/-- The opposite, with as many digits as the float unit has. -/
def neg (x : RealNumber) : Computation RealNumber :=
  return x.opposite (← Computation.unitBits)

def add (a b : RealNumber) : Computation RealNumber :=
  match a, b with
  | .rational p, .rational q => return .rational (p + q)
  | _, _ =>
    if a.isNaN || b.isNaN then return .nan
    else ofFloat c ((a.toFloat c.bits).add c.bits (b.toFloat c.bits))

def sub (a b : RealNumber) : Computation RealNumber := do add c a (← b.neg)

def mul (a b : RealNumber) : Computation RealNumber :=
  match a, b with
  | .rational p, .rational q => return .rational (p * q)
  | _, _ =>
    if a.isNaN || b.isNaN then return .nan
    else ofFloat c ((a.toFloat c.bits).mul c.bits (b.toFloat c.bits))

/-- Division by zero gives the infinity with the sign of the dividend. -/
def divZero (a : RealNumber) : RealNumber :=
  if a.isZero || a.isNaN then .nan else .infinity a.isNegative

def div (a b : RealNumber) : Computation RealNumber :=
  if a.isNaN || b.isNaN then return .nan
  else if b.isZero then return divZero a
  else match a, b with
    | .rational p, .rational q => return .rational (p / q)
    | _, _ => do
      Computation.settle c
      match (a.toFloat c.bits).div? c.bits (b.toFloat c.bits) with
      | some x => ofFloat c x
      | none => throw .divisionByZero

end RealNumber

namespace Number

variable (c : Config)

def add (a b : Number) : Computation Number :=
  match a, b with
  | .real x, .real y => return .real (← x.add c y)
  | _, _ => do
    if a.isNaN || b.isNaN then return nan
    let re ← a.re.add c b.re
    ofParts c re (← a.im.add c b.im)

def neg : Number → Computation Number
  | .real x => return .real (← x.neg)
  | .complex re im => do
    let re ← re.neg
    ofParts c re (← im.neg)

def sub (a b : Number) : Computation Number := do add c a (← neg c b)

/-- Within a complex product a zero part wins even over an infinite one. -/
def mulParts (a b : RealNumber) : Computation RealNumber :=
  if a.isZero || b.isZero then return .rational 0 else a.mul c b

def mul (a b : Number) : Computation Number :=
  match a, b with
  | .real x, .real y => return .real (← x.mul c y)
  | _, _ => do
    if a.isNaN || b.isNaN then return nan
    let rr ← mulParts c a.re b.re
    let re ← rr.sub c (← mulParts c a.im b.im)
    let ri ← mulParts c a.re b.im
    ofParts c re (← ri.add c (← mulParts c a.im b.re))

def divZero : Number → Computation Number
  | .real x => return .real x.divZero
  | .complex re im =>
    let part := fun (x : RealNumber) => if x.isZero then x else x.divZero
    ofParts c (part re) (part im)

def div (a b : Number) : Computation Number := do
  if a.isNaN || b.isNaN then return nan
  if b.isZero then return ← divZero c a
  match a, b with
  | .real x, .real y => return .real (← x.div c y)
  | .complex re im, .real y =>
    let re ← re.div c y
    ofParts c re (← im.div c y)
  | _, .complex d e =>
    let dd ← d.mul c d
    let norm ← dd.add c (← e.mul c e)
    let rd ← a.re.mul c d
    let re ← rd.add c (← a.im.mul c e)
    let id ← a.im.mul c d
    let im ← id.sub c (← a.re.mul c e)
    let re ← re.div c norm
    ofParts c re (← im.div c norm)

def ofComplexFloat (z : ComplexFloat) : Computation Number := do
  let re ← RealNumber.ofFloat c z.re
  ofParts c re (← RealNumber.ofFloat c z.im)

/-- A number as a complex float. The parts of a complex number are rounded, a real number is left as
it is. -/
def toComplexFloat : Number → ComplexFloat
  | .real x => .ofReal (x.toFloat c.bits)
  | .complex x y => .round c.bits ⟨x.toFloat c.bits, y.toFloat c.bits⟩

/-- The number that a floating-point computation found. Where it has no value, or the recognition
of its value divides by zero, the answer is NaN. -/
def ofComputation (z : Option ComplexFloat) : Computation Number := do
  Computation.settle c
  match z with
  | none => return nan
  | some z =>
    try ofComplexFloat c z
    catch
      | .divisionByZero => return nan
      | f => throw f

end Number
end ComputerAlgebra

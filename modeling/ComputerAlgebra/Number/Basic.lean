import ComputerAlgebra.BigFloat.Text
import ComputerAlgebra.Computation
import ComputerAlgebra.Fraction.Recovery

/-!
The numbers of the algebra system: exact fractions, inexact floats, the two infinities, NaN, and
complex numbers over these. A computed float is exchanged for an exact number whenever it lies
within the tolerance of an integer or a short continued fraction reproduces it.
-/

namespace ComputerAlgebra

/-- A real number. Fractions, infinities and NaN are exact, floats are not. -/
inductive RealNumber where
  | rational (q : Rat)
  | float (x : Dyadic)
  | infinity (negative : Bool)
  | nan
deriving DecidableEq

inductive Number where
  | real (r : RealNumber)
  | complex (re im : RealNumber)
deriving DecidableEq

namespace RealNumber

instance (n : Nat) : OfNat RealNumber n := ⟨.rational n⟩

def isNaN : RealNumber → Bool
  | .nan => true
  | _ => false

def isFinite : RealNumber → Bool
  | .rational _ | .float _ => true
  | _ => false

def isExact : RealNumber → Bool
  | .float _ => false
  | _ => true

def isZero : RealNumber → Bool
  | .rational q => q = 0
  | _ => false

def isNegative : RealNumber → Bool
  | .rational q => q < 0
  | .float x => x < 0
  | .infinity s => s
  | .nan => false

def rational? : RealNumber → Option Rat
  | .rational q => some q
  | _ => none

def integer? : RealNumber → Option Int
  | .rational q => if q.den = 1 then some q.num else none
  | _ => none

def toFloat (bits : Nat) : RealNumber → BigFloat
  | .rational q => .finite (BigFloat.ofRat bits q)
  | .float x => .finite x
  | .infinity s => .infinity s
  | .nan => .nan

def tolerance (c : Config) : Except Fault Dyadic := (c.zeroBound).map (BigFloat.ofRat c.bits)

/-- The fraction that a float stands for under the settings, if it is not too large. -/
def recover? (c : Config) (tolerance x : Dyadic) : Except Fault (Option Rat) := do
  let bound ← c.partBound
  let size := BigFloat.finite (BigFloat.absDyadic (BigFloat.roundDyadic c.bits x))
  if bound = .nan || bound.order size = .lt then return none
  else
    let search : Fraction.Search := ⟨c.bits, .finite tolerance, bound⟩
    search.run (← c.searchDepth) x

/-- The number that a computed float stands for. Floats with hardly any digits after the point are
left alone, since all of them look whole. -/
def ofDyadic (c : Config) (x : Dyadic) : Except Fault RealNumber := do
  if x = 0 then return .rational 0
  else if (c.bits : Int) - 32 ≤ BigFloat.magnitude x then return .float x
  else
    let tolerance ← tolerance c
    let nearest := BigFloat.nearestInt x
    let distance := BigFloat.absDyadic (BigFloat.roundDyadic c.bits (x - (nearest : Dyadic)))
    if distance < tolerance then return .rational nearest
    else
      match ← recover? c tolerance x with
      | some q => return .rational q
      | none => return .float x

def ofFloat (c : Config) (x : BigFloat) : Computation RealNumber := do
  Computation.settle c
  match x with
  | .finite x => ofDyadic c x
  | .infinity s => return .infinity s
  | .nan => return .nan

def render : RealNumber → String
  | .rational q => Config.fractionText q
  | .float x => BigFloat.render 15 x
  | .infinity negative => if negative then "-oo" else "+oo"
  | .nan => "NaN"

def opposite (bits : Nat) : RealNumber → RealNumber
  | .rational q => .rational (-q)
  | .float x => .float (BigFloat.roundDyadic bits (-x))
  | .infinity s => .infinity !s
  | .nan => .nan

end RealNumber

namespace Number

instance (n : Nat) : OfNat Number n := ⟨.real (.rational n)⟩

def ofRat (q : Rat) : Number := .real (.rational q)
def ofInt (n : Int) : Number := .real (.rational n)
def nan : Number := .real .nan
def positiveInfinity : Number := .real (.infinity false)
def negativeInfinity : Number := .real (.infinity true)
def imaginaryUnit : Number := .complex (.rational 0) (.rational 1)

instance : Inhabited Number := ⟨.real (.rational 0)⟩

def re : Number → RealNumber
  | .real r => r
  | .complex re _ => re

def im : Number → RealNumber
  | .real _ => .rational 0
  | .complex _ im => im

def real? : Number → Option RealNumber
  | .real r => some r
  | .complex _ _ => none

def rational? (z : Number) : Option Rat := z.real?.bind RealNumber.rational?

def integer? (z : Number) : Option Int := z.real?.bind RealNumber.integer?

def isReal : Number → Bool
  | .real _ => true
  | .complex _ _ => false

def isNaN : Number → Bool
  | .real r => r.isNaN
  | .complex _ _ => false

def isFinite : Number → Bool
  | .real r => r.isFinite
  | .complex re im => re.isFinite && im.isFinite

def isExact : Number → Bool
  | .real r => r.isExact
  | .complex re im => re.isExact && im.isExact

def isZero : Number → Bool
  | .real r => r.isZero
  | .complex _ _ => false

def isNegative : Number → Bool
  | .real r => r.isNegative
  | .complex _ _ => false

/-- Whether an imaginary part is an inexact value within the tolerance of zero. -/
def isNegligible (c : Config) : RealNumber → Computation Bool
  | .float y => do
    let size := BigFloat.absDyadic (BigFloat.roundDyadic (← Computation.unitBits) y)
    Computation.settle c
    return size < (← RealNumber.tolerance c)
  | _ => return false

/-- A number from its parts: real when the imaginary part is zero or negligible, NaN when either
part is. -/
def ofParts (c : Config) (re im : RealNumber) : Computation Number := do
  if re.isNaN || im.isNaN then return nan
  else if im.isZero then return .real re
  else if ← isNegligible c im then return .real re
  else return .complex re im

def imaginaryText (im : RealNumber) : String :=
  if im = .rational 1 then "i" else if im = .rational (-1) then "-i" else s!"{im.render}i"

def render (c : Config) : Number → String
  | .real r => r.render
  | .complex re im =>
    if re.isZero then imaginaryText im
    else if im.isNegative then s!"{re.render} - {imaginaryText (im.opposite c.bits)}"
    else s!"{re.render} + {imaginaryText im}"

def comparesFloats : Number → Bool
  | .real _ => false
  | .complex re im => !re.isZero && im.rational?.isNone

def text (c : Config) (z : Number) : Computation String := do
  if z.comparesFloats then Computation.settle c
  return z.render c

end Number
end ComputerAlgebra

import ComputerAlgebra.BigFloat.Basic

/-!
Double precision numbers: 53 binary digits, exponents from -1074 to 971, and a sign also on
zero. Values enter by rounding to nearest with ties to even.
-/

namespace ComputerAlgebra

/-- A double precision number. A finite one is `± mantissa * 2^exponent`, with a mantissa below
`2^53` that reaches `2^52` unless the exponent is the least one. -/
inductive Binary64 where
  | finite (negative : Bool) (mantissa : Nat) (exponent : Int)
  | infinity (negative : Bool)
  | nan
deriving DecidableEq

namespace Binary64

def minExponent : Int := -1074
def maxExponent : Int := 971

def zero (negative : Bool) : Binary64 := .finite negative 0 minExponent

/-- The double nearest to `n / d`; too large values give an infinity. -/
def ofQuotient (negative : Bool) (n d : Nat) : Binary64 :=
  if n = 0 then zero negative
  else
    let exponent := max (BigFloat.quotientMagnitude n d - 53) minExponent
    let mantissa := (nearestEven ((n <<< (-exponent).toNat : Nat) : Int)
      (d <<< exponent.toNat)).toNat
    let (mantissa, exponent) :=
      if mantissa = 1 <<< 53 then (1 <<< 52, exponent + 1) else (mantissa, exponent)
    if maxExponent < exponent then .infinity negative else .finite negative mantissa exponent

def ofRat (q : Rat) : Binary64 := ofQuotient (q < 0) q.num.natAbs q.den

/-- A dyadic number is first rounded to 53 bits and then to the exponents of a double; far
below the least double only the sign is left. -/
def ofDyadic (x : Dyadic) : Binary64 :=
  let y := BigFloat.roundDyadic 53 x
  let top := BigFloat.magnitude y
  let negative : Bool := y < 0
  if top < -1100 ∧ y ≠ 0 then zero negative
  else if 1100 < top then .infinity negative
  else
    let (n, k) := BigFloat.parts y
    ofQuotient negative (n.natAbs <<< (-k).toNat) (1 <<< k.toNat)

def ofBigFloat : BigFloat → Binary64
  | .finite x => ofDyadic x
  | .infinity s => .infinity s
  | .nan => .nan

def toBigFloat : Binary64 → BigFloat
  | .finite negative m e =>
    let size : Int := m
    .finite (.ofIntWithPrec (if negative then -size else size) (-e))
  | .infinity s => .infinity s
  | .nan => .nan

def toRat? : Binary64 → Option Rat
  | .finite negative m e =>
    let size : Rat := if 0 ≤ e then ((m <<< e.toNat : Nat) : Rat) else mkRat m (1 <<< (-e).toNat)
    some (if negative then -size else size)
  | _ => none

def isZero : Binary64 → Bool
  | .finite _ m _ => m == 0
  | _ => false

end Binary64
end ComputerAlgebra

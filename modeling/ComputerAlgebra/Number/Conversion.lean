import ComputerAlgebra.Number.Literal

/-!
Conversions around the number tower: the double nearest to a number, the fraction that a literal
denotes, and the fraction that it equals exactly.
-/

namespace ComputerAlgebra

namespace RealNumber

/-- The nearest double. A fraction beyond the range of doubles is refused, a float becomes an
infinity there. -/
def toDouble : RealNumber → Except Fault Binary64
  | .rational q =>
    match Binary64.ofRat q with
    | .infinity _ => .error .overflow
    | x => .ok x
  | .float x => .ok (Binary64.ofDyadic x)
  | .infinity s => .ok (.infinity s)
  | .nan => .ok .nan

end RealNumber

namespace Number

def toDouble : Number → Except Fault Binary64
  | .real r => r.toDouble
  | .complex _ _ => .error .unsupported

def toDoubles (z : Number) : Except Fault (Binary64 × Binary64) := do
  let re ← z.re.toDouble
  return (re, ← z.im.toDouble)

end Number

namespace Literal

/-- The fraction that a literal was meant to denote, with a bound on the denominator of a double.
Text is no fraction even when it is an integer, and a float is one only when it is whole. -/
def toFraction (bound : Int) : Literal → Except Fault Rat
  | .fraction q => .ok q
  | .int n => .ok n
  | .bool b => .ok (if b then 1 else 0)
  | .double x => Fraction.ofDouble bound x
  | .float (.finite x) =>
    let shown := floatText floatDigits (.finite x)
    if x.toRat.den = 1 then .ok x.toRat
    else .error (if shown.contains 'e' then .unsupported else .noFraction)
  | .float _ => .error .noFraction
  | .text s =>
    .error <| match Text.readInteger? s.toList with
      | some _ => .noFraction
      | Option.none => .unreadableInteger (String.ofList ((Text.quoted s).toList.take 200))
  | l => .error (.noInteger l.typeName)

def exactFraction : Literal → Except Fault Rat
  | .fraction q => .ok q
  | .int n => .ok n
  | .bool b => .ok (if b then 1 else 0)
  | .double x =>
    match x.toRat? with
    | some q => .ok q
    | Option.none => .error (if x = .nan then .noFraction else .overflow)
  | .text s =>
    match Text.WrittenQuotient.read? s with
    | some q => if q.denominator = 0 then .error .divisionByZero else .ok q.toRat
    | Option.none => .error .noFraction
  | _ => .error .unsupported

end Literal
end ComputerAlgebra

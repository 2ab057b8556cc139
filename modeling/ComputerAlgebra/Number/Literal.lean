import ComputerAlgebra.BigFloat.Reader
import ComputerAlgebra.Number.Arithmetic

/-!
Numbers from literals. A double stands for the short fraction that it was meant to denote, text is
read as an exact number first and as a float second, and floats are recognised like computed ones.
-/

namespace ComputerAlgebra

namespace RealNumber

def ofDouble (x : Binary64) : Except Fault RealNumber :=
  match x with
  | .nan => .ok .nan
  | .infinity s => .ok (.infinity s)
  | x => (Fraction.ofDouble Fraction.defaultBound x).map .rational

/-- A number from text: an exact number, or else a float. Under settings whose digits are no number
no text is a float. -/
def ofText (c : Config) (s : String) : Computation RealNumber := do
  match Text.WrittenQuotient.read? s with
  | some q => if q.denominator = 0 then throw .divisionByZero else return .rational q.toRat
  | none =>
    if c.precisionFault? = some .noFraction then throw (.unreadableNumber (Text.quoted s))
    Computation.settle c
    match ← BigFloat.read? c.bits s with
    | some x => ofFloat c x
    | none => throw (.unreadableNumber (Text.quoted s))

def ofLiteral (c : Config) : Literal → Computation RealNumber
  | .bool _ => throw .booleanNumber
  | .int n => return .rational n
  | .fraction q => return .rational q
  | .double x => ofDouble x
  | .text s => ofText c s
  | .float x => ofFloat c x
  | l => throw (.notNumeric l.typeName)

end RealNumber

namespace Number

/-- The number that a literal denotes. Truth values are not numbers. -/
def ofLiteral (c : Config) : Literal → Computation Number
  | .complexDouble re im => do
    let re ← RealNumber.ofDouble re
    ofParts c re (← RealNumber.ofDouble im)
  | .complexFloat re im => ofComplexFloat c ⟨re, im⟩
  | .none => throw (.notExpression (Literal.typeName .none))
  | .bool b => throw (.notExpression (Literal.typeName (.bool b)))
  | .list items => throw (.notExpression (Literal.typeName (.list items)))
  | l => return .real (← RealNumber.ofLiteral c l)

end Number
end ComputerAlgebra

import ComputerAlgebra.Binary64.Basic
import ComputerAlgebra.Text.Decimal

/-! Reading of doubles from decimal text and the names of the special values. -/

namespace ComputerAlgebra.Binary64
open Text

/-- The double nearest to a decimal. Numbers far outside the range are not written out. -/
def ofDecimal (d : WrittenDecimal) : Binary64 :=
  let top := (Nat.toDigits 10 d.digits).length + d.exponent
  if d.digits = 0 ∨ top < -400 then zero d.negative
  else if 400 < top then .infinity d.negative
  else
    let q := WrittenQuotient.ofDecimal d
    ofQuotient q.negative q.numerator q.denominator

def read? (s : String) : Option Binary64 :=
  let (negative, rest) := takeSign ((strip s.toList).map Char.toLower)
  match String.ofList rest with
  | "inf" | "infinity" => some (.infinity negative)
  | "nan" => some .nan
  | _ => (WrittenDecimal.read? s).map ofDecimal

end ComputerAlgebra.Binary64

import ComputerAlgebra.BigFloat.Power
import ComputerAlgebra.Fault
import ComputerAlgebra.Text.Decimal

/-!
Reading of floating-point numbers: the names of the special values in any case, quotients of two
integers, and decimals. A number may end in the letter l.
-/

namespace ComputerAlgebra.BigFloat
open Text

def splitAll (mark : Char) : List Char → List (List Char)
  | [] => [[]]
  | c :: rest =>
    match splitAll mark rest with
    | [] => [[c]]
    | part :: parts => if c = mark then [] :: part :: parts else (c :: part) :: parts

def dropTrailing (c : Char) (cs : List Char) : List Char :=
  (cs.reverse.dropWhile (· = c)).reverse

def readScientific? (cs : List Char) : Option (Int × Int) := do
  let cs := dropTrailing 'l' cs
  let _ ← WrittenDecimal.read? (String.ofList cs)
  let (mantissa, exponent) ← match splitAll 'e' cs with
    | [m] => some (m, 0)
    | [m, e] => (readInteger? e).map (m, ·)
    | _ => none
  match splitAll '.' mantissa with
  | [whole, fraction] =>
    let fraction := dropTrailing '0' fraction
    let n ← readInteger? (whole ++ fraction)
    return (n, exponent - fraction.length)
  | _ => return (← readInteger? mantissa, exponent)

def maxDecimalExponent : Nat := 400

/-- A mantissa times a power of ten, rounded. Of a mantissa that goes with a large power of ten, and
of the power, ten more digits are kept, and the rest is cut off. -/
def ofScientific (r : Rounding) (mantissa exponent : Int) : Dyadic :=
  if exponent.natAbs ≤ maxDecimalExponent then
    roundQuotient r (mantissa * tenTo exponent.toNat) (tenTo (-exponent).toNat)
  else
    let work := r.step 10
    roundDyadic r (roundDyadic work mantissa * (powDyadic? work 10 exponent).getD 0)

def read? (bits : Nat) (s : String) : Except Fault (Option BigFloat) :=
  let cs := (strip s.toList).map Char.toLower
  match String.ofList cs with
  | "inf" | "+inf" => .ok (some (.infinity false))
  | "-inf" => .ok (some (.infinity true))
  | "nan" => .ok (some .nan)
  | _ =>
    if cs.contains '/' then
      match splitAll '/' cs with
      | [p, q] =>
        match readInteger? (dropTrailing 'l' p), readInteger? (dropTrailing 'l' q) with
        | some n, some d =>
          if d = 0 then .error .divisionByZero
          else .ok (some (.finite (roundQuotient bits (if d < 0 then -n else n) d.natAbs)))
        | _, _ => .ok none
      | _ => .ok none
    else .ok ((readScientific? cs).map fun (m, e) => .finite (ofScientific bits m e))

end ComputerAlgebra.BigFloat

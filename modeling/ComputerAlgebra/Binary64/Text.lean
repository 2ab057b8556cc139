import ComputerAlgebra.Binary64.Basic
import ComputerAlgebra.Text.Character

/-!
Text of doubles: the shortest decimal that reads back, the exact form in base sixteen, and
reading of decimals.
-/

namespace ComputerAlgebra.Binary64

/-- Whether the decimal `digits * 10^power` reads back as `mantissa * 2^exponent`. The decimals
that do so lie between the midpoints to the neighbours, and the midpoints belong to an even
mantissa. -/
def readsBack (mantissa : Nat) (exponent : Int) (digits : Nat) (power : Int) : Bool :=
  let value := (digits * tenTo power.toNat) <<< (-exponent).toNat * 4
  let unit := tenTo (-power).toNat <<< exponent.toNat
  let high := (4 * mantissa + 2) * unit
  let narrow := mantissa == 1 <<< 52 && minExponent < exponent
  let low := (4 * mantissa - if narrow then 1 else 2) * unit
  if mantissa % 2 = 0 then low ≤ value && value ≤ high else low < value && value < high

/-- The decimal position of the first digit: the power of ten that is just above the value. -/
def decimalMagnitude (n d : Nat) : Int :=
  let guess : Int :=
    (BigFloat.quotientMagnitude n d - 1) * 30103 / 100000
  let above := fun (p : Int) => n * tenTo (-p).toNat < d * tenTo p.toNat
  if above guess then guess else if above (guess + 1) then guess + 1 else guess + 2

/-- Searches the grids of `count`, `count + 1`, … digits for a decimal that reads back. Of the two
neighbours of the value on a grid the nearer one is taken, on a tie the even one. -/
def shortestFrom (mantissa : Nat) (exponent : Int) (n d : Nat) (top : Int) :
    Nat → Nat → Nat × Int
  | 0, count => (n / d, top - count)
  | fuel + 1, count =>
    let power := top - count
    let low := n * tenTo (-power).toNat / (d * tenTo power.toNat)
    let near := (nearestEven ((n * tenTo (-power).toNat : Nat) : Int) (d * tenTo power.toNat)).toNat
    let far := if near = low then low + 1 else low
    if readsBack mantissa exponent near power then (near, power)
    else if readsBack mantissa exponent far power then (far, power)
    else shortestFrom mantissa exponent n d top fuel (count + 1)

/-- The fewest decimal digits that read back, and the position of the point: the value is
`0.digits * 10^position`. -/
def shortest (mantissa : Nat) (exponent : Int) : List Char × Int :=
  let n := mantissa <<< exponent.toNat
  let d := 1 <<< (-exponent).toNat
  let top := decimalMagnitude n d
  let (digits, power) := shortestFrom mantissa exponent n d top 17 1
  let text := Nat.toDigits 10 digits
  let kept := (text.reverse.dropWhile (· = '0')).reverse
  (kept, power + text.length)

/-- Positional between 10⁻⁴ and 10¹⁶, with at least one digit after the point; otherwise an
exponent of two digits or more. -/
def layout (digits : List Char) (position : Int) : String :=
  if -4 < position ∧ position ≤ 16 then
    if position ≤ 0 then
      String.ofList ('0' :: '.' :: List.replicate (-position).toNat '0' ++ digits)
    else
      let split := position.toNat
      let whole := digits.take split
      let rest := digits.drop split
      String.ofList (whole ++ List.replicate (split - whole.length) '0' ++
        '.' :: (if rest.isEmpty then ['0'] else rest))
  else
    let power := position - 1
    let size := Nat.toDigits 10 power.natAbs
    let padded := if size.length < 2 then '0' :: size else size
    let tail := match digits.drop 1 with
      | [] => []
      | rest => '.' :: rest
    String.ofList (digits.take 1 ++ tail ++ 'e' :: (if power < 0 then '-' else '+') :: padded)

def render : Binary64 → String
  | .nan => "nan"
  | .infinity negative => if negative then "-inf" else "inf"
  | .finite negative mantissa exponent =>
    let body :=
      if mantissa = 0 then "0.0"
      else
        let (digits, position) := shortest mantissa exponent
        layout digits position
    if negative then s!"-{body}" else body

/-- The exact text in base sixteen: thirteen digits after the point and a binary exponent. -/
def renderHex : Binary64 → String
  | .nan => "nan"
  | .infinity negative => if negative then "-inf" else "inf"
  | .finite negative mantissa exponent =>
    let body :=
      if mantissa = 0 then "0x0.0p+0"
      else
        let power := exponent + 52
        let digits := Nat.toDigits 16 (mantissa % (1 <<< 52))
        let padded := List.replicate (13 - digits.length) '0' ++ digits
        let sign := if power < 0 then "" else "+"
        s!"0x{mantissa >>> 52}.{String.ofList padded}p{sign}{power}"
    if negative then s!"-{body}" else body

end ComputerAlgebra.Binary64

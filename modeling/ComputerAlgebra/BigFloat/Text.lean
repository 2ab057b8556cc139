import ComputerAlgebra.BigFloat.Fixed
import ComputerAlgebra.BigFloat.Power

/-!
Decimal text of floating-point numbers. The value is cut to a few digits more than asked
for, and the last kept digit is rounded up when the digit after it is five or more.
Numbers near one are written in positional form, all others with an exponent.
-/

namespace ComputerAlgebra.BigFloat

/-- `10^n` with at most `bits` binary digits. Small powers are cut from their exact value. -/
def powerOfTen (bits : Nat) (up : Bool) (n : Nat) : Nat × Int :=
  if 3 * n < 1000 then cutMantissa bits up (Nat.pow 5 n, n)
  else cutMantissa bits up
    (cutPower (bits + 4 * bitLength n + 4) up (bitLength n) n (5, 1) (1, 0))

/-- The quotient of two positive values, cut downward to `bits` binary digits. -/
def cutQuotient (bits : Nat) : Nat × Int → Nat × Int → Nat × Int
  | (m, e), (d, f) =>
    let extra := bits + bitLength d + 2 - bitLength m
    cutMantissa bits false ((m <<< extra) / d, e - extra - f)

def dividePowerOfTen (bits : Nat) (x : Nat × Int) (n : Int) : Nat × Int :=
  cutQuotient bits x <|
    if 0 ≤ n then powerOfTen bits false n.toNat
    else cutQuotient bits (1, 0) (powerOfTen (bits + 5) true (-n).toNat)

def decimalExponent (e : Int) : Int :=
  let w := bitLength e.natAbs + 5
  let g := 2 * w + 20
  (e * Fixed.ln2 g).tdiv (Fixed.ln10 g)

/-- The leading decimal digits of a positive number and the exponent of the first one. At
least `count` digits are given; they are exact up to their cut-off. -/
def leadingDigits (count : Nat) (x : Dyadic) : List Char × Int :=
  let bits := count * 33219280948873624 / 10000000000000000 + 10
  let (n, k) := parts x
  let m := n.natAbs
  let top := magnitude x
  let (m, e, offset) : Nat × Int × Int :=
    if top.natAbs ≤ 3500 then (m, -k, 0)
    else
      let ten := decimalExponent (-k)
      let (m, e) := dividePowerOfTen bits (m, -k) ten
      (m, e, ten)
  let scale := ((bits : Int) - e - bitLength m).toNat
  let places := (scale * 10000000000000000 * 2 + 33219280948873624) / (2 * 33219280948873624)
  let fixed := if 0 ≤ e + scale then m <<< (e + scale).toNat else m >>> (-(e + scale)).toNat
  let digits := Nat.toDigits 10 ((fixed * tenTo places) >>> scale)
  (digits, offset + digits.length - places - 1)

/-- Rounds a string of digits half up to its first `count` digits, and tells whether a
carry made the number one digit longer. -/
def roundDigits (count : Nat) (digits : List Char) : List Char × Bool :=
  match digits.drop count with
  | next :: _ =>
    if '5' ≤ next then
      let kept := (digits.take count).reverse
      let nines := kept.takeWhile (· = '9')
      match kept.dropWhile (· = '9') with
      | [] => ('1' :: List.replicate (count - 1) '0', true)
      | d :: front =>
        ((nines.map fun _ => '0') ++ Char.ofNat (d.toNat + 1) :: front |>.reverse, false)
    else (digits.take count, false)
  | [] => (digits.take count, false)

def stripZeros (whole fraction : List Char) : List Char :=
  let kept := (fraction.reverse.dropWhile (· = '0')).reverse
  whole ++ '.' :: (if kept.isEmpty then ['0'] else kept)

def layout (count : Nat) (digits : List Char) (exponent : Int) : String :=
  let smallest := min (-((count / 3 : Nat) : Int)) (-5)
  if smallest < exponent ∧ exponent < count then
    if exponent < 0 then
      let padded := List.replicate (-exponent).toNat '0' ++ digits
      String.ofList (stripZeros (padded.take 1) (padded.drop 1))
    else
      let split := exponent.toNat + 1
      String.ofList (stripZeros (digits.take split) (digits.drop split))
  else
    let body := String.ofList (stripZeros (digits.take 1) (digits.drop 1))
    if exponent = 0 then body
    else if 0 < exponent then s!"{body}e+{exponent}" else s!"{body}e{exponent}"

def render (count : Nat) (x : Dyadic) : String :=
  if x = 0 then "0.0"
  else
    let (raw, exponent) := leadingDigits (count + 3) (absDyadic x)
    let (digits, carried) := roundDigits count raw
    let body := layout count digits (if carried then exponent + 1 else exponent)
    if x < 0 then s!"-{body}" else body

end ComputerAlgebra.BigFloat

import ComputerAlgebra.BigFloat.Basic

/-!
Fixed-point arithmetic: an integer `n` stands for `n / 2^w` at a scale `w`. Every product
is cut toward zero, so the terms of a series reach zero and the sum ends. The constants
π, log 2 and log 10 are found here from quickly converging arctangent series.
-/

namespace ComputerAlgebra.Fixed

def mul (w : Nat) (x y : Int) : Int := shiftTowardZero (x * y) w

def div (w : Nat) (x y : Int) : Int := (x <<< w).tdiv y

def sqrt (w : Nat) (x : Int) : Int := floorSqrt (x <<< w).toNat

/-- Adds the terms that follow from `term` by `next` until one of them is zero. The sum
starts with `total`, and `i` counts the terms. -/
def series (next : Nat → Int → Int) : Nat → Nat → Int → Int → Int
  | 0, _, _, total => total
  | fuel + 1, i, term, total =>
    if term = 0 then total else series next fuel (i + 1) (next i term) (total + term)

/-- Adds the terms `powers / (2 i + 1)`, where `powers` goes from one step to the next by
`next`. Each step has to shrink the power by half at least. -/
def oddSeries (next : Int → Int) : Nat → Nat → Int → Int → Int
  | 0, _, _, total => total
  | fuel + 1, i, power, total =>
    if power = 0 then total
    else oddSeries next fuel (i + 1) (next power) (total + power.tdiv (2 * i + 1))

def arctanInv (w n : Nat) : Int :=
  oddSeries (fun power => -(power.tdiv (n * n))) w 0 ((1 <<< w : Nat) / n : Nat) 0

def artanhInv (w n : Nat) : Int :=
  oddSeries (fun power => power.tdiv (n * n)) w 0 ((1 <<< w : Nat) / n : Nat) 0

/-- Extra digits for the constants, beyond the truncation errors of their series. -/
def guard (w : Nat) : Nat := w + 2 * bitLength w + 10

/-- π at scale `w`, from Machin's formula. -/
def pi (w : Nat) : Int :=
  let g := guard w
  shiftTowardZero (16 * arctanInv g 5 - 4 * arctanInv g 239) (g - w)

def ln2 (w : Nat) : Int :=
  let g := guard w
  shiftTowardZero (18 * artanhInv g 26 - 2 * artanhInv g 4801 + 8 * artanhInv g 8749) (g - w)

def ln10 (w : Nat) : Int :=
  let g := guard w
  shiftTowardZero (46 * artanhInv g 31 + 34 * artanhInv g 49 + 20 * artanhInv g 161) (g - w)

/-- `exp x` at scale `w` for `|x| ≤ 1`: the argument is halved several times, and the value
of the series is squared as often. -/
def exp (w : Nat) (x : Int) : Int :=
  let halvings := floorSqrt w + 2
  let g := w + 2 * halvings + 10
  let small := shiftTowardZero (x <<< (g - w)) halvings
  let one : Int := 1 <<< g
  let sum := series (fun i term => (mul g term small).tdiv (i + 1)) g 0 one 0
  let powered := (List.range halvings).foldl (fun y _ => mul g y y) sum
  shiftTowardZero powered (g - w)

/-- `(cos x, sin x)` at scale `w` for `|x| ≤ 1`: the argument is halved several times, and the
angle is doubled as often. -/
def cosSin (w : Nat) (x : Int) : Int × Int :=
  let halvings := floorSqrt w / 2 + 2
  let g := w + 3 * halvings + 12
  let small := shiftTowardZero (x <<< (g - w)) halvings
  let square := mul g small small
  let one : Int := 1 <<< g
  let cosine := series
    (fun i term => -((mul g term square).tdiv ((2 * i + 1) * (2 * i + 2)))) g 0 one 0
  let sine := series
    (fun i term => -((mul g term square).tdiv ((2 * i + 2) * (2 * i + 3)))) g 0 small 0
  let (c, s) := (List.range halvings).foldl
    (fun (c, s) _ => (2 * mul g c c - one, 2 * mul g c s)) (cosine, sine)
  (shiftTowardZero c (g - w), shiftTowardZero s (g - w))

/-- `arctan x` at scale `w` for `|x| ≤ 1`: the angle is halved several times, and the value of
the series is doubled as often. -/
def arctan (w : Nat) (x : Int) : Int :=
  let halvings := floorSqrt w / 2 + 2
  let g := w + 2 * halvings + 12
  let one : Int := 1 <<< g
  let small := (List.range halvings).foldl
    (fun y _ => div g y (one + sqrt g (one + mul g y y))) (x <<< (g - w))
  let square := mul g small small
  let sum := oddSeries (fun power => -(mul g power square)) g 0 small 0
  shiftTowardZero (sum <<< halvings) (g - w)

/-- `log x` at scale `w` for `1/2 ≤ x ≤ 2`: the argument is replaced by its square root several
times, and the value of the series is doubled as often. -/
def log (w : Nat) (x : Int) : Int :=
  let roots := floorSqrt w / 2 + 2
  let g := w + 2 * roots + 12
  let one : Int := 1 <<< g
  let near := (List.range roots).foldl (fun y _ => sqrt g y) (x <<< (g - w))
  let ratio := div g (near - one) (near + one)
  let square := mul g ratio ratio
  let sum := oddSeries (fun power => mul g power square) g 0 ratio 0
  shiftTowardZero (sum <<< (roots + 1)) (g - w)

end ComputerAlgebra.Fixed

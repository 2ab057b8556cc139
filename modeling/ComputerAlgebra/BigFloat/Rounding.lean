import ComputerAlgebra.Integer.Root

/-!
Dyadic rationals rounded to a given count of binary digits: integers over a power of two, and
quotients. A count of digits alone stands for rounding to nearest, ties to even.
-/

namespace ComputerAlgebra.BigFloat

/-- How many binary digits are kept of a value, and on which side of it the kept digits lie. -/
structure Rounding where
  bits : Nat
  direction : Direction := .nearest

namespace Rounding

instance ofBits : Coe Nat Rounding := ⟨fun bits => ⟨bits, .nearest⟩⟩

instance ofNumeral (bits : Nat) : OfNat Rounding bits := ⟨⟨bits, .nearest⟩⟩

def more (r : Rounding) (digits : Nat) : Rounding := { r with bits := r.bits + digits }

/-- Some more digits, for a step on the way to a rounded value; what follows them is cut off. -/
def step (r : Rounding) (digits : Nat) : Rounding := ⟨r.bits + digits, .towardZero⟩

/-- Digits with which a value is found that no quotient of integers gives. To know on which side of
it the kept digits lie takes some more of them. -/
def workingBits (r : Rounding) : Nat :=
  match r.direction with
  | .nearest => r.bits
  | _ => r.bits + 20

end Rounding

/-- The exponent `e` with `2^(e-1) ≤ |x| < 2^e`; zero has exponent zero. -/
def magnitude : Dyadic → Int
  | .zero => 0
  | .ofOdd n k _ => bitLength n.natAbs - k

def roundDyadic (r : Rounding) : Dyadic → Dyadic
  | .zero => .zero
  | .ofOdd n k odd =>
    let excess := bitLength n.natAbs - r.bits
    if excess = 0 then .ofOdd n k odd
    else .ofIntWithPrec (r.direction.quotient n (1 <<< excess)) (k - excess)

/-- The exponent `e` with `2^(e-1) ≤ |n / d| < 2^e`, for nonzero `n` and `d`. -/
def quotientMagnitude (n : Int) (d : Nat) : Int :=
  let guess := (bitLength n.natAbs : Int) - bitLength d
  if d <<< guess.toNat ≤ n.natAbs <<< (-guess).toNat then guess + 1 else guess

def roundQuotient (r : Rounding) (n : Int) (d : Nat) : Dyadic :=
  if n = 0 then 0
  else
    let scale := (r.bits : Int) - quotientMagnitude n d
    .ofIntWithPrec (r.direction.quotient (n <<< scale.toNat) (d <<< (-scale).toNat)) scale

def parts : Dyadic → Int × Int
  | .zero => (0, 0)
  | .ofOdd n k _ => (n, k)

def quotient? (r : Rounding) (x y : Dyadic) : Option Dyadic :=
  let (n, k) := parts x
  let (d, l) := parts y
  if d = 0 then none
  else some (roundQuotient r (if d < 0 then -n else n) d.natAbs >>> (k - l))

/-- A fraction as a float: the numerator is rounded first, then its quotient. -/
def ofRat (bits : Nat) (q : Rat) : Dyadic :=
  let (n, k) := parts (roundDyadic bits q.num)
  roundQuotient bits n q.den >>> k

end ComputerAlgebra.BigFloat

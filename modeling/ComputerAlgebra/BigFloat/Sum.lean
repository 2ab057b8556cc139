import ComputerAlgebra.BigFloat.Rounding

/-!
Rounded sums of dyadic rationals. A term far below the last digit of the other one only tells on
which side of that number the sum lies, so it is never brought over the same power of two. The
answer is the exact sum, rounded once.
-/

namespace ComputerAlgebra.BigFloat

/-- Terms of at most this magnitude are hidden by `x`: they are smaller than its last digit, and
than a quarter of the last of `bits` digits. -/
def hiddenMagnitude (bits : Nat) (x : Dyadic) : Int :=
  match x with
  | .zero => 0
  | .ofOdd _ k _ => min (-k) (magnitude x - bits - 2)

/-- The sum of `x` and a number of magnitude `top` with the sign of `y`. -/
def nudge (top : Int) (x y : Dyadic) : Dyadic :=
  match y with
  | .zero => x
  | .ofOdd m _ _ => x + .ofIntWithPrec m.sign (1 - top)

/-- The rounded sum. A term too small to show in the sum is not aligned with the other one; only its
sign takes part. -/
def addDyadic (r : Rounding) (x y : Dyadic) : Dyadic :=
  if x = 0 ∨ y = 0 then roundDyadic r (x + y)
  else if magnitude y ≤ hiddenMagnitude r.bits x then
    roundDyadic r (nudge (hiddenMagnitude r.bits x) x y)
  else if magnitude x ≤ hiddenMagnitude r.bits y then
    roundDyadic r (nudge (hiddenMagnitude r.bits y) y x)
  else roundDyadic r (x + y)

/-- The rounding of a number that is smaller than `x` in size by less than any digit that shows. -/
def roundInside (r : Rounding) (x : Dyadic) : Dyadic :=
  match r.direction with
  | .nearest => roundDyadic r x
  | _ => addDyadic r x (-(x >>> ((r.bits : Int) + 30)))

end ComputerAlgebra.BigFloat

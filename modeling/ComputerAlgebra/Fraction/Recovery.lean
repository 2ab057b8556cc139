import ComputerAlgebra.BigFloat.Basic
import ComputerAlgebra.Fault

/-!
Recovery of a short fraction from a floating-point value. The partial quotients of the value are
found one by one; the search succeeds as soon as a remainder falls below the tolerance.
-/

namespace ComputerAlgebra.Fraction
open BigFloat

/-- How a value is searched for a fraction: the precision of the remainders, the remainder that
counts as zero, and the largest partial quotient. -/
structure Search where
  bits : Nat
  tolerance : BigFloat
  maxPart : BigFloat

/-- The whole part of a value, which has double precision only. A value without digits after the
point is not written out first. -/
def wholePart (x : Dyadic) : Dyadic :=
  roundDyadic 53 (if (parts x).2 ≤ 0 then x else floorDyadic x)

def Search.quotients? (s : Search) : Nat → Dyadic → Except Fault (Option (List Int))
  | 0, _ => .ok none
  | steps + 1, x =>
    let whole := wholePart x
    if s.maxPart.order (.finite (absDyadic whole)) = .lt then .ok none
    else
      let rest := addDyadic s.bits x (-whole)
      if s.tolerance.order (.finite rest) = .gt then .ok (some [floorDyadic whole])
      else
        match quotient? s.bits 1 rest with
        | none => .error .divisionByZero
        | some next =>
          (s.quotients? steps next).map (Option.map (floorDyadic whole :: ·))

def ofQuotients : List Int → Except Fault Rat
  | [] => .ok 0
  | [q] => .ok q
  | q :: rest => do
    let tail ← ofQuotients rest
    if tail = 0 then .error .divisionByZero else .ok (q + 1 / tail)

def Search.run (s : Search) (depth : Int) (x : Dyadic) : Except Fault (Option Rat) := do
  match ← s.quotients? (depth + 1).toNat x with
  | none => .ok none
  | some quotients => (ofQuotients quotients).map some

/-- The fraction of any float. An infinity is too large a partial quotient, and NaN is none. -/
def Search.runFloat (s : Search) (depth : Int) : BigFloat → Except Fault (Option Rat)
  | .finite x => s.run depth x
  | .infinity _ => .ok none
  | .nan => if depth < 0 then .ok none else .error .noFraction

end ComputerAlgebra.Fraction

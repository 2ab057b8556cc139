import ComputerAlgebra.ComplexFloat.Circular

/-!
The gamma function. The argument is moved to the right until Stirling's series converges fast, and
the left half plane is reached by reflection. Poles have no value.
-/

namespace ComputerAlgebra.ComplexFloat
open BigFloat (isZero opposite)

/-- One row of the recurrence for the tangent numbers, from the `k`-th entry on. -/
def tangentRow (k : Nat) : Nat → Nat → List Nat → List Nat
  | _, _, [] => []
  | j, before, t :: rest =>
    let value := (j - k) * before + (j - k + 2) * t
    value :: tangentRow k (j + 1) value rest

def tangentRows : Nat → Nat → List Nat → List Nat
  | 0, _, ts => ts
  | _, _, [] => []
  | fuel + 1, k, t :: rest =>
    match rest with
    | [] => [t]
    | _ => t :: tangentRows fuel (k + 1) (tangentRow k k 0 rest)

def factorials (n : Nat) : List Nat :=
  ((List.range n).foldl (fun (acc, f) k => (f :: acc, f * (k + 1))) (([] : List Nat), 1)).1.reverse

def tangentNumbers (n : Nat) : List Nat := tangentRows n 2 (factorials n)

def bernoulliNumbers (n : Nat) : List Rat :=
  (tangentNumbers n).mapIdx fun i t =>
    let k := i + 1
    let four := 1 <<< (2 * k)
    let size := mkRat (2 * k * t : Nat) (four * (four - 1))
    if k % 2 = 1 then size else -size

/-- Stirling's series `Σ B₂ₖ / (2k (2k-1) z^(2k-1))`; `power` is the power of `1/z` that the next
term needs. -/
def stirlingSum (work : Nat) (square : ComplexFloat) :
    Nat → List Rat → ComplexFloat → ComplexFloat → ComplexFloat
  | _, [], _, total => total
  | k, b :: rest, power, total =>
    let coefficient : BigFloat := .finite (BigFloat.ofRat work (b / (2 * k * (2 * k - 1) : Nat)))
    stirlingSum work square (k + 1) rest (mul work power square)
      (add work total (scale work coefficient power))

def stirling? (work : Nat) (z : ComplexFloat) : Option ComplexFloat := do
  let inverse ← inv? work z
  let square := mul work inverse inverse
  let sum := stirlingSum work square 1 (bernoulliNumbers (work / 4 + 10)) inverse (ofReal .zero)
  let half : BigFloat := .finite (Dyadic.ofIntWithPrec 1 1)
  let main := mul work ⟨z.re.sub work half, z.im⟩ (log work z)
  let pi := BigFloat.piDyadic work
  let constant := BigFloat.logDyadic work (pi <<< (1 : Int)) >>> (1 : Int)
  return add work (sub work main z) (add work sum (ofReal (.finite constant)))

def risingProduct (work : Nat) (z : ComplexFloat) (n : Nat) : ComplexFloat :=
  (List.range n).foldl
    (fun p (k : Nat) => mul work p ⟨z.re.add work (.finite (Int.ofNat k)), z.im⟩)
    (ofReal (.finite 1))

def gammaRight? (work : Nat) (z : ComplexFloat) : Option ComplexFloat := do
  let start : Int := match z.re with
    | .finite x => BigFloat.floorDyadic x
    | _ => 0
  let steps := ((work : Int) / 3 - start).toNat
  let shifted : ComplexFloat := ⟨z.re.add work (.finite (steps : Int)), z.im⟩
  let value := exp work (← stirling? work shifted)
  return mul work value (← inv? work (risingProduct work z steps))

def sinPi (work : Nat) (x y : Dyadic) : ComplexFloat :=
  let n := BigFloat.nearestInt x
  let pi := BigFloat.piDyadic work
  let scaled := fun d => BigFloat.finite (BigFloat.roundDyadic work (pi * d))
  let s := sin work ⟨scaled (x - n), scaled y⟩
  if n % 2 = 0 then s else ⟨opposite s.re, opposite s.im⟩

/-- Gamma of a finite argument. The digits carried grow with the size of the argument, since the
logarithm of the value is of that size. -/
def gammaFinite? (bits : Nat) (x y : Dyadic) : Option ComplexFloat := do
  let size := (max (BigFloat.magnitude x) (BigFloat.magnitude y)).toNat
  let tiny := (-(BigFloat.magnitude x)).toNat
  let work := bits + 40 + 2 * size + (if y = 0 then min tiny (2 * bits) else 0)
  let z : ComplexFloat := ⟨.finite x, .finite y⟩
  let half : Dyadic := .ofIntWithPrec 1 1
  let value ←
    if half ≤ x then gammaRight? work z
    else do
      let mirrored ← gammaRight? work ⟨.finite (BigFloat.addDyadic work 1 (-x)), .finite (-y)⟩
      let denominator ← inv? work (mul work (sinPi work x y) mirrored)
      pure (scale work (.finite (BigFloat.piDyadic work)) denominator)
  return scale bits (.finite 1) value

/-- The gamma function; none at its poles and for arguments too large. -/
def gamma? (bits : Nat) (z : ComplexFloat) : Option ComplexFloat :=
  match z.re, z.im with
  | .finite x, .finite y =>
    if BigFloat.maxMagnitude < max (BigFloat.magnitude x) (BigFloat.magnitude y) then none
    else if y = 0 ∧ x ≤ 0 ∧ ((BigFloat.floorDyadic x : Int) : Dyadic) = x then none
    else gammaFinite? bits x y
  | .infinity false, .finite y => if y = 0 then some z else some (ofReal .nan)
  | _, _ => some (ofReal .nan)

end ComputerAlgebra.ComplexFloat

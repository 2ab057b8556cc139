import ComputerAlgebra.BigFloat.Exponential

/-!
Circular functions and their inverses. An angle is reduced by a multiple of π/2 with as many
digits of π as the size of the angle and the smallness of the rest demand.
-/

namespace ComputerAlgebra.BigFloat

/-- An angle less the nearest multiple of π/2, in fixed point: the multiple, the rest, and the
scale of the rest. -/
structure ReducedAngle where
  quarter : Int
  rest : Int
  scale : Nat

def reduceAngleAt (digits : Nat) (x : Dyadic) : ReducedAngle :=
  let scale := digits + (magnitude x).toNat + 5
  let angle := toFixed scale x
  let right := shiftTowardZero (Fixed.pi (scale + 1)) 2
  let quarter := (2 * angle + right) / (2 * right)
  ⟨quarter, angle - quarter * right, scale⟩

def reduceAngle (wanted : Nat) (x : Dyadic) : Nat → Nat → ReducedAngle
  | 0, digits => reduceAngleAt digits x
  | fuel + 1, digits =>
    let reduced := reduceAngleAt digits x
    let kept := bitLength reduced.rest.natAbs - (reduced.scale - digits)
    if wanted ≤ kept then reduced
    else reduceAngle wanted x fuel (if reduced.rest = 0 then 2 * digits else digits + wanted - kept)

def cosSinDyadic (bits : Nat) (x : Dyadic) : Dyadic × Dyadic :=
  if x = 0 ∨ magnitude x < -(bits : Int) then (1, roundDyadic bits x)
  else
    let reduced := reduceAngle (bits + guardBits) x 20 (bits + guardBits)
    let (c, s) := Fixed.cosSin reduced.scale reduced.rest
    let value := fun n => roundDyadic bits (ofFixed n reduced.scale)
    match reduced.quarter % 4 with
    | 0 => (value c, value s)
    | 1 => (value (-s), value c)
    | 2 => (value (-c), value (-s))
    | _ => (value s, value (-c))

/-- Cosine and sine; an infinite or too large angle has neither. Those of a very small angle lie
just inside one and the angle itself. -/
def cosSin (r : Rounding) : BigFloat → BigFloat × BigFloat
  | .finite x =>
    if x = 0 then (.finite 1, .finite 0)
    else if maxMagnitude < magnitude x then (.nan, .nan)
    else if magnitude x < -(r.bits : Int) - 10 then
      (.finite (roundInside r 1), .finite (roundInside r x))
    else
      let (c, s) := cosSinDyadic r.workingBits x
      (.finite (roundDyadic r c), .finite (roundDyadic r s))
  | _ => (.nan, .nan)

def arctanDyadic (bits : Nat) (x : Dyadic) : Dyadic :=
  let top := magnitude x
  if x = 0 ∨ top < -(bits : Int) then roundDyadic bits x
  else if absDyadic x ≤ 1 then
    let w := bits + guardBits + (-top).toNat
    roundDyadic bits (ofFixed (Fixed.arctan w (toFixed w x)) w)
  else
    let w := bits + guardBits
    let inverse := toFixed w ((quotient? (Rounding.more w 10) 1 (absDyadic x)).getD 0)
    let right := shiftTowardZero (Fixed.pi (w + 1)) 2
    let angle := ofFixed (right - Fixed.arctan w inverse) w
    roundDyadic bits (if x < 0 then -angle else angle)

/-- The arctangent; that of a very small number lies just inside the number. -/
def arctan (r : Rounding) : BigFloat → BigFloat
  | .finite x =>
    if x ≠ 0 ∧ magnitude x < -(r.bits : Int) - 20 then .finite (roundInside r x)
    else .finite (roundDyadic r (arctanDyadic r.workingBits x))
  | .infinity s =>
    let right := piDyadic r >>> (1 : Int)
    .finite (if s then -right else right)
  | .nan => .nan

/-- The angle of the point `(x, y)`, between -π and π. Four more digits are found for the slope and
for its arctangent, and cut off. -/
def angle (r : Rounding) (y x : BigFloat) : BigFloat :=
  let pi := BigFloat.finite (piDyadic r)
  let right := BigFloat.finite (piDyadic r >>> (1 : Int))
  match y, x with
  | .nan, _ | _, .nan | .infinity _, .infinity _ => .nan
  | .infinity s, .finite _ => if s then right.opposite else right
  | .finite y, .infinity s =>
    if !s then .finite 0 else if y < 0 then pi.opposite else pi
  | .finite y, .finite x =>
    if y = 0 then (if x < 0 then pi else .finite 0)
    else
      let upper := match quotient? (r.step 4) (absDyadic y) x with
        | none => right
        | some slope =>
          let acute := arctan (r.step 4) (.finite slope)
          if x < 0 then (BigFloat.finite (piDyadic (r.step 4))).add r acute
          else acute.add r (.finite 0)
      if y < 0 then upper.opposite else upper

/-- The arcsine for `|x| ≤ 1`: twice the arctangent of `x / (1 + sqrt (1 - x²))`. -/
def arcsin (r : Rounding) (x : Dyadic) : BigFloat :=
  let w := r.step 15
  let leg := sqrtDyadic w (addDyadic w 1 (-(x * x)))
  let half := (quotient? w x (addDyadic w 1 leg)).getD 0
  (arctan r (.finite half)).shift 1

/-- The arccosine for `|x| ≤ 1`: twice the arctangent of `sqrt (1 - x²) / (1 + x)`. -/
def arccos (r : Rounding) (x : Dyadic) : BigFloat :=
  let w := r.step 15
  let leg := sqrtDyadic w (addDyadic w 1 (-(x * x)))
  match quotient? w leg (addDyadic w 1 x) with
  | none => .finite (piDyadic r)
  | some half => (arctan r (.finite half)).shift 1

end ComputerAlgebra.BigFloat

import ComputerAlgebra.ComplexFloat.Basic

/-!
Circular functions of complex numbers and their inverses. The inverse functions follow Hull,
Fairgrieve and Tang: with `z = x + iy`, the half sum `α` and half difference `β` of the distances
from `z` to -1 and 1 give `arcsin β` and `log (α + sqrt (α² - 1))` as the parts of the answer.
-/

namespace ComputerAlgebra.ComplexFloat
open BigFloat (Rounding isZero shift opposite exactMul)

variable (r : Rounding)

def sin (z : ComplexFloat) : ComplexFloat :=
  if isZero z.im then ofReal (BigFloat.cosSin r z.re).2
  else if isZero z.re then ⟨.zero, (BigFloat.coshSinh r z.im).2⟩
  else
    let (c, s) := BigFloat.cosSin (r.step 6) z.re
    let (ch, sh) := BigFloat.coshSinh (r.step 6) z.im
    ⟨s.mul r ch, c.mul r sh⟩

def cos (z : ComplexFloat) : ComplexFloat :=
  if isZero z.im then ofReal (BigFloat.cosSin r z.re).1
  else if isZero z.re then ofReal (BigFloat.coshSinh r z.im).1
  else
    let (c, s) := BigFloat.cosSin (r.step 6) z.re
    let (ch, sh) := BigFloat.coshSinh (r.step 6) z.im
    ⟨c.mul r ch, opposite (s.mul r sh)⟩

/-- `(i/2) (log (1 - iz) - log (1 + iz))`, and the plain arctangent on the real line. -/
def arctan (z : ComplexFloat) : ComplexFloat :=
  if isZero z.im then ofReal (BigFloat.arctan r z.re)
  else
    let work := r.step 15
    let one : BigFloat := .finite 1
    let upper := log work ⟨one.add work z.im, opposite z.re⟩
    let lower := log work ⟨one.sub work z.im, z.re⟩
    let difference := sub r upper lower
    let re := opposite (shift difference.im (-1))
    let im := shift difference.re (-1)
    let infinite : BigFloat → Bool := fun x => !x.isFinite && x != .nan
    if im = .nan && (infinite z.re || infinite z.im) then ofReal re else ⟨re, im⟩

def arcosh (x : BigFloat) : BigFloat :=
  let work := r.step 15
  let root := BigFloat.sqrt work ((exactMul x x).sub work (.finite 1))
  BigFloat.log r (x.add work root)

/-- The distances from `z` to -1 and 1, their half sum and half difference, for a point of the
closed first quadrant. -/
structure Foci where
  x : BigFloat
  y : BigFloat
  below : BigFloat
  above : BigFloat
  far : BigFloat
  near : BigFloat
  halfSum : BigFloat
  halfDifference : BigFloat

def Foci.of? (work : Rounding) (x y : BigFloat) : Option Foci := do
  let one : BigFloat := .finite 1
  let below := one.sub work x
  let above := one.add work x
  let far := abs work ⟨above, y⟩
  let near := abs work ⟨below, y⟩
  let halfSum := shift (far.add work near) (-1)
  return ⟨x, y, below, above, far, near, halfSum, ← x.div? work halfSum⟩

namespace Foci
variable (work : Rounding) (f : Foci)

def crossover (q : Rat) : BigFloat := .finite (BigFloat.ofRat 53 q)

/-- Arcsine or arccosine of `β`, in a form that keeps its digits near one. -/
def realPart? (cosine : Bool) : Option BigFloat := do
  let inverse : BigFloat → BigFloat
    | .finite b => if cosine then BigFloat.arccos work b else BigFloat.arcsin work b
    | _ => .nan
  if !((crossover (6417 / 10000)).sub work f.halfDifference).negative then
    return inverse f.halfDifference
  let sum := f.halfSum.add work f.x
  let rise ←
    if !f.below.negative then do
      let c ← ((f.y.mul work f.y).div? work (f.far.add work f.above))
      let d := f.near.add work f.below
      pure (BigFloat.sqrt work (shift (sum.mul work (c.add work d)) (-1)))
    else do
      let c ← sum.div? work (f.far.add work f.above)
      let d ← sum.div? work (f.near.sub work f.below)
      pure (f.y.mul work (BigFloat.sqrt work (shift (c.add work d) (-1))))
  let slope ← if cosine then rise.div? work f.x else f.x.div? work rise
  return BigFloat.arctan work slope

/-- `log (α + sqrt (α² - 1))`, in a form that keeps its digits when `α` is near one. -/
def imaginaryPart? : Option BigFloat := do
  let one : BigFloat := .finite 1
  if !((crossover (15 / 10)).sub work f.halfSum).negative then
    let square := f.y.mul work f.y
    let c ← square.div? work (f.far.add work f.above)
    let d ← if (opposite f.below).negative then square.div? work (f.near.add work f.below)
      else some (f.near.sub work f.below)
    let excess := shift (c.add work d) (-1)
    let root := BigFloat.sqrt work (excess.mul work (f.halfSum.add work one))
    return BigFloat.log work (one.add work (excess.add work root))
  else
    let root := BigFloat.sqrt work (((f.halfSum.mul work f.halfSum)).sub work one)
    return BigFloat.log work (f.halfSum.add work root)

end Foci

/-- Parts that came out infinite or undefined count as zero. -/
def settle (x : BigFloat) : BigFloat :=
  match x with
  | .finite x => .finite (BigFloat.roundDyadic r x)
  | _ => .zero

/-- Arcsine or arccosine. On the real line beyond ±1 the values are those of the upper side on the
left, and of the lower side on the right. -/
def arc? (cosine : Bool) (z : ComplexFloat) : Option ComplexFloat := do
  let pi := BigFloat.piDyadic r
  let right := pi >>> (1 : Int)
  if isZero z.im then
    match z.re with
    | .nan => return ofReal .nan
    | .finite x =>
      if BigFloat.absDyadic x ≤ 1 then
        return ofReal (if cosine then BigFloat.arccos r x else BigFloat.arcsin r x)
    | _ => pure ()
    let size := arcosh r z.re.abs
    return match cosine, z.re.negative with
      | true, false => ⟨.zero, size⟩
      | true, true => ⟨.finite pi, opposite size⟩
      | false, false => ⟨.finite right, opposite size⟩
      | false, true => ⟨.finite (-right), size⟩
  let work := r.step 10
  let f ← Foci.of? work z.re.abs z.im.abs
  let re ← f.realPart? work cosine
  let im ← f.imaginaryPart? work
  let re := if !z.re.negative then re
    else if cosine then (BigFloat.finite (BigFloat.piDyadic work)).sub work re else opposite re
  let im := if cosine != z.im.negative then opposite im else im
  return ⟨settle r re, settle r im⟩

def arcsin? (z : ComplexFloat) : Option ComplexFloat := arc? r false z

def arccos? (z : ComplexFloat) : Option ComplexFloat := arc? r true z

end ComputerAlgebra.ComplexFloat

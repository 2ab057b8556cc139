import ComputerAlgebra.Expr.Measure

/-!
Keys by which expressions are put in order: the sort and the content of every node, from the root
on. Floats enter with as many digits as the float unit has.
-/

namespace ComputerAlgebra

namespace RealNumber

def keyText (u : FloatUnit) : RealNumber → String
  | .rational q => Config.fractionText q
  | .float x => BigFloat.render u.digits x
  | .infinity s => if s then "-inf" else "+inf"
  | .nan => "nan"

def roundTripDigits (u : FloatUnit) : Nat :=
  let digits := max 1 ((nearestEven (u.bits * tenTo 16 : Nat) 33219280948873626) - 1)
  (if digits = 15 then 17 else digits + 3).toNat

def partText (u : FloatUnit) : RealNumber → String
  | .rational q => if q.den = 1 then toString q.num else s!"Fraction({q.num}, {q.den})"
  | .float x => s!"mpf('{BigFloat.render (roundTripDigits u) x}')"
  | .infinity s => if s then "mpf('-inf')" else "mpf('+inf')"
  | .nan => "'nan'"

end RealNumber

def Number.keyText (u : FloatUnit) : Number → String
  | .real r => r.keyText u
  | .complex re im => s!"({re.partText u}, {im.partText u})"

namespace Expr

def leafText (u : FloatUnit) : Expr → String
  | .num z => z.keyText u
  | .var x => x
  | .bool b => if b then "True" else "False"
  | _ => "None"

/-- The sort and the content of every node, but not how many parts it has. -/
def canonicalKey (u : FloatUnit) (e : Expr) : List (String × String) :=
  e.nodes.map fun n => (n.kindName, n.leafText u)

/-- The order of two keys: by the first entry in which they differ, a shorter key first. -/
def keyOrder : List (String × String) → List (String × String) → Ordering
  | [], [] => .eq
  | [], _ => .lt
  | _, [] => .gt
  | (k, t) :: rest, (k', t') :: rest' =>
    ((compare k k').then (compare t t')).then (keyOrder rest rest')

end Expr
end ComputerAlgebra

import ComputerAlgebra.Expr.Kind

/-!
Sizes of expression trees: depth, node count, and the score by which the simplest of several
expressions is chosen. The score counts in halves so that it stays a natural number.
-/

namespace ComputerAlgebra

namespace RealNumber

/-- What a real number costs in half points: two points, four more below zero, two more for a unit
fraction. -/
def score (r : RealNumber) : Nat :=
  let unit := match r with
    | .rational q => if q.den ≠ 1 ∧ q.num = 1 then 4 else 0
    | _ => 0
  4 + (if r.isNegative then 8 else 0) + unit

end RealNumber

def Number.score : Number → Nat
  | .real r => r.score
  | .complex re im => 4 + re.score + im.score

namespace Expr

def depth : Expr → Nat := fold fun _ parts => 1 + parts.foldl max 0

def complexity : Expr → Nat := fold fun _ parts => 1 + parts.foldr (· + ·) 0

def ownScore : Expr → Nat
  | .num z => z.score
  | .var x => if isConstantName x then 4 else 8
  | .binary .div _ _ => 6
  | .binary .log _ _ => 5
  | .binary .pow _ n => if n.isNegative then 20 else 4
  | .binary (.order _) a _ => if a.isZero then 8 else 4
  | _ => 4

/-- The score of a tree in half points; the lower, the simpler. -/
def score : Expr → Nat := fold fun e parts => e.ownScore + parts.foldr (· + ·) 0

def scoreText (e : Expr) : String :=
  s!"{e.score / 2}.{e.score % 2 * 5}"

def isFinite : Expr → Bool :=
  fold fun e parts => (match e with | .num z => z.isFinite | _ => true) && parts.all id

def nodes (e : Expr) : List Expr :=
  fold (fun e (parts : List (List Expr → List Expr)) tail =>
    e :: parts.foldr (fun part tail => part tail) tail) e []

def contains (e node : Expr) : Bool := e.nodes.any (· = node)

def simplest (first : Expr) (rest : List Expr) : Expr :=
  (rest.foldl (fun (best, least) e =>
    let s := e.score
    if s < least then (e, s) else (best, least)) (first, first.score)).1

def hasInexact (e : Expr) : Bool :=
  e.nodes.any fun
    | .num z => !z.isExact
    | _ => false

def checkDigits (c : Config) (e : Expr) : Except Fault Unit :=
  if c.shownDigits?.isNone && e.hasInexact then .error .unsupported else .ok ()

def checkDepth (c : Config) (e : Expr) : Except Fault Unit :=
  let depth := e.depth
  if c.isTooDeep depth then .error (.treeTooDeep depth c.maxTreeDepth.plainText) else .ok ()

end Expr
end ComputerAlgebra

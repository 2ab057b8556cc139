import ComputerAlgebra.Expr.Kind

/-!
A total order of expressions that agrees with equality. It compares sorts first and parts second,
and serves to bring equal things together; what a reader sees is ordered by the canonical key
instead.
-/

namespace ComputerAlgebra

namespace RealNumber

def rank : RealNumber → Nat
  | .rational _ => 0
  | .float _ => 1
  | .infinity _ => 2
  | .nan => 3

def cmp : RealNumber → RealNumber → Ordering
  | .rational p, .rational q => (compare p.num q.num).then (compare p.den q.den)
  | .float x, .float y =>
    let (n, k) := BigFloat.parts x
    let (m, l) := BigFloat.parts y
    (compare k l).then (compare n m)
  | .infinity s, .infinity t => compare s t
  | a, b => compare a.rank b.rank

end RealNumber

def Number.cmp : Number → Number → Ordering
  | .real a, .real b => a.cmp b
  | .complex a b, .complex a' b' => (a.cmp a').then (b.cmp b')
  | .real _, .complex _ _ => .lt
  | .complex _ _, .real _ => .gt

namespace Expr

def rank : Expr → Nat
  | .num _ => 0
  | .var _ => 1
  | .bool _ => 2
  | .unary _ _ => 3
  | .binary _ _ _ => 4
  | .lam _ _ => 5
  | .app _ _ => 6
  | .provided _ _ => 7
  | .piecewise _ => 8
  | .interval _ _ => 9

mutual
def cmp : Expr → Expr → Ordering
  | .num z, .num w => z.cmp w
  | .var x, .var y => compare x y
  | .bool b, .bool b' => compare b b'
  | .unary op a, .unary op' a' => (compare op.name op'.name).then (cmp a a')
  | .binary op a b, .binary op' a' b' =>
    ((compare op.name op'.name).then (cmp a a')).then (cmp b b')
  | .lam p body, .lam p' body' => (compare p p').then (cmp body body')
  | .app f args, .app f' args' => (cmp f f').then (cmpList args args')
  | .provided e p, .provided e' p' => (cmp e e').then (cmp p p')
  | .piecewise cases, .piecewise cases' => cmpCases cases cases'
  | .interval low high, .interval low' high' => (cmp low low').then (cmp high high')
  | e, e' => compare e.rank e'.rank
def cmpList : List Expr → List Expr → Ordering
  | [], [] => .eq
  | [], _ :: _ => .lt
  | _ :: _, [] => .gt
  | e :: rest, e' :: rest' => (cmp e e').then (cmpList rest rest')
def cmpCases : List (Expr × Expr) → List (Expr × Expr) → Ordering
  | [], [] => .eq
  | [], _ :: _ => .lt
  | _ :: _, [] => .gt
  | (e, p) :: rest, (e', p') :: rest' =>
    ((cmp e e').then (cmp p p')).then (cmpCases rest rest')
end

end Expr
end ComputerAlgebra

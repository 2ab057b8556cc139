import ComputerAlgebra.Evaluation.Basic
import ComputerAlgebra.Expr.Key
import ComputerAlgebra.Polynomial.Basic

/-!
Expressions as polynomials and back. Sums, differences, products, quotients by a fraction and whole
powers are multiplied out; every other subtree is an atom. The expression of a polynomial lists its
terms by falling degree and then by the keys of their atoms.
-/

namespace ComputerAlgebra

namespace Polynomial

/-- A subtree as an atom; none when its value is an infinity or NaN. -/
def ofAtom (c : Config) (e : Expr) : OptionT Computation Polynomial := do
  let value ← match e with
    | .num _ => pure e
    | e => e.evaluate c
  match value with
  | .num z => if z.isFinite then return atom e else failure
  | _ => return atom e

/-- The polynomial form of an expression; none when an atom is undefined or the form is too large.
The bound on terms is asked for only where polynomials are multiplied. -/
def multiplyOut (c : Config) : Expr → OptionT Computation Polynomial
  | .binary .sum a b => do
    let p ← multiplyOut c a
    return add p (← multiplyOut c b)
  | .binary .minus a b => do
    let q ← multiplyOut c b
    return add (← multiplyOut c a) (scale (-1) q)
  | .binary .mul a b => do
    let p ← multiplyOut c a
    let q ← multiplyOut c b
    OptionT.mk do return mul? (← c.expansionBound) p q
  | .binary .div a b =>
    match b.rational? with
    | some q =>
      if q = 0 then ofAtom c (.binary .div a b)
      else return scale q⁻¹ (← multiplyOut c a)
    | none => ofAtom c (.binary .div a b)
  | .binary .pow a n =>
    match n.integer? with
    | some k =>
      if k < 0 then ofAtom c (.binary .pow a n)
      else do
        let p ← multiplyOut c a
        if k = 0 then return constant 1
        OptionT.mk do return pow? (← c.expansionBound) p k.toNat
    | none => ofAtom c (.binary .pow a n)
  | e =>
    match e.rational? with
    | some q => return constant q
    | none => ofAtom c e

def ofExpr? (c : Config) (e : Expr) : Computation (Option Polynomial) := do
  e.checkDepth c
  (multiplyOut c e).run

abbrev Key := List (String × String)

structure KeyedFactor where
  key : Key
  atom : Expr
  power : Nat

/-- Factors by their keys, larger powers first. -/
def KeyedFactor.order (s t : KeyedFactor) : Ordering :=
  (Expr.keyOrder s.key t.key).then (compare t.power s.power)

structure KeyedTerm where
  factors : List KeyedFactor
  coefficient : Rat

namespace KeyedTerm

def ofTerm (u : FloatUnit) (m : Monomial) (q : Rat) : KeyedTerm :=
  ⟨(m.map fun (a, n) => (⟨a.canonicalKey u, a, n⟩ : KeyedFactor)).mergeSort
    fun s t => s.order t != .gt, q⟩

def degree (t : KeyedTerm) : Nat := t.factors.foldr (·.power + ·) 0

def factorsOrder : List KeyedFactor → List KeyedFactor → Ordering
  | [], [] => .eq
  | [], _ :: _ => .lt
  | _ :: _, [] => .gt
  | s :: rest, t :: rest' => (s.order t).then (factorsOrder rest rest')

/-- Terms by falling degree, then by their factors. -/
def order (s t : KeyedTerm) : Ordering :=
  (compare t.degree s.degree).then (factorsOrder s.factors t.factors)

end KeyedTerm

def keyedTerms (u : FloatUnit) (p : Polynomial) : List KeyedTerm :=
  (p.map fun (m, q) => KeyedTerm.ofTerm u m q).mergeSort fun s t => s.order t != .gt

def factorExpr (a : Expr) (n : Nat) : Expr :=
  if n = 1 then a else .binary .pow a (.num (Number.ofInt n))

def KeyedTerm.product? (t : KeyedTerm) : Option Expr :=
  match t.factors with
  | [] => none
  | f :: rest =>
    some (rest.foldl (fun e g => .binary .mul e (factorExpr g.atom g.power))
      (factorExpr f.atom f.power))

def ratExpr (q : Rat) : Expr := .num (Number.ofRat q)

def termExpr (q : Rat) (product : Option Expr) : Expr :=
  match product with
  | none => ratExpr q
  | some e => if q = 1 then e else .binary .mul (ratExpr q) e

def appendTerm (sum : Expr) (t : KeyedTerm) : Expr :=
  let piece := termExpr t.coefficient.abs t.product?
  .binary (if 0 < t.coefficient then .sum else .minus) sum piece

def toExpr (u : FloatUnit) (p : Polynomial) : Expr :=
  match keyedTerms u p with
  | [] => 0
  | t :: rest => rest.foldl appendTerm (termExpr t.coefficient t.product?)

end Polynomial

namespace Expr

def collapse? (c : Config) (e : Expr) : Computation (Option Expr) := do
  match ← Polynomial.ofExpr? c e with
  | some p => return some (p.toExpr (← get))
  | none => return none

/-- The expression multiplied out; one without polynomial form is left as it is. -/
def expand (c : Config) (e : Expr) : Computation Expr := do
  return (← e.collapse? c).getD e

end Expr
end ComputerAlgebra

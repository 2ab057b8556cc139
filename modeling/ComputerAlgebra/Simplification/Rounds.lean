import ComputerAlgebra.Polynomial.Conversion
import ComputerAlgebra.Simplification.Basic
import ComputerAlgebra.Simplification.Pass

/-!
Simplification in several rounds. A round runs every pass on the best expression so far and also
tries its polynomial form; the candidate with the lowest score goes on, the earlier one on ties. The
rounds end when one of them changes nothing.
-/

namespace ComputerAlgebra.Expr

def runPasses (c : Config) : List Pass → Expr → Computation (List Expr)
  | [], _ => return []
  | pass :: rest, e => do
    let e ← (← pass.run c e).innerSimplified c
    return e :: (← runPasses c rest e)

def candidates (c : Config) (e : Expr) : Computation (List Expr) := do
  let passed ← runPasses c Pass.all e
  let last := passed.getLastD e
  match ← last.collapse? c with
  | some collapsed => return passed ++ [← collapsed.innerSimplified c]
  | none => return passed

def rounds (c : Config) : Nat → Expr → Computation Expr
  | 0, best => return best
  | n + 1, best => do
    let next := simplest best (← candidates c best)
    if next = best then return best else rounds c n next

/-- The best expression after one pass from the leaves up and `|level|` rounds, with what it is when
that is settled already. -/
def settledOrBest (c : Config) (level : Int) (e : Expr) : Computation (Expr × Bool) := do
  if e.children.isEmpty then return (e, true)
  let first ← e.innerSimplified c
  if first.children.isEmpty then return (first, true)
  return (← rounds c level.natAbs first, false)

def simplifyCompact (c : Config) (level : Int) (e : Expr) : Computation Expr := do
  checkDepth c e
  return (← settledOrBest c level e).1

/-- The simplest of the candidates found in `|level|` rounds. A positive level also simplifies the
expanded form. -/
def simplify (c : Config) (level : Int) (e : Expr) : Computation Expr := do
  checkDepth c e
  let (best, settled) ← settledOrBest c level e
  if settled || level ≤ 0 then return best
  let expanded ← best.expand c
  if expanded = best then return best
  return simplest best [← simplifyCompact c level expanded]

/-- The count of rounds that a literal stands for, with the sign that asks for expansion. -/
def roundsOf : Literal → Except Fault Int
  | .int n => .ok n
  | .bool b => .ok (if b then 1 else 0)
  | .none => .error (.noAbsolute (Literal.typeName .none))
  | .text s => .error (.noAbsolute (Literal.typeName (.text s)))
  | .list items => .error (.noAbsolute (Literal.typeName (.list items)))
  | .complexDouble re _ => .error (.notCount (Literal.typeName (.double re)))
  | .complexFloat re _ => .error (.notCount (Literal.typeName (.float re)))
  | l => .error (.notCount l.typeName)

/-- Simplification at a level that is given as a literal. One that is no count is only refused when
it comes to rounds. -/
def simplifyAt (c : Config) (level : Literal) (e : Expr) : Computation Expr :=
  match roundsOf level with
  | .ok n => e.simplify c n
  | .error f => do
    checkDepth c e
    match ← settledOrBest c 0 e with
    | (best, true) => return best
    | (_, false) => throw f

end ComputerAlgebra.Expr

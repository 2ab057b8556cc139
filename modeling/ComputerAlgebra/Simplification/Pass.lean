import ComputerAlgebra.Expr.Key
import ComputerAlgebra.Simplification.Rules

/-!
Passes over a tree. Each pass is a function on nodes that keeps the value wherever the node is
defined: it sorts sums and products, collects like terms, merges powers, and applies identities of
the circular functions and of the connectives.
-/

namespace ComputerAlgebra.Expr

/-- Replaces every node from the leaves up; parameters of functions are not touched. -/
def replaceM (f : Expr → Computation Expr) : Expr → Computation Expr :=
  foldM fun e parts => match e, parts with
    | .lam p _, [_, body] => f (.lam p body)
    | .var x, _ => f (.var x)
    | e, parts => f (e.withChildren parts)

def signedTerms (positive : Bool) : Expr → List (Bool × Expr) → List (Bool × Expr)
  | .binary .sum a b, rest => signedTerms positive a (signedTerms positive b rest)
  | .binary .minus a b, rest => signedTerms positive a (signedTerms (!positive) b rest)
  | e, rest => (positive, e) :: rest

def factorsOnto : Expr → List Expr → List Expr
  | .binary .mul a b, rest => factorsOnto a (factorsOnto b rest)
  | e, rest => e :: rest

def sortByKey {α : Type} (u : FloatUnit) (expr : α → Expr) (items : List α) : List α :=
  let keyed := items.map fun x => ((expr x).canonicalKey u, x)
  (keyed.mergeSort fun s t => keyOrder s.1 t.1 != .gt).map (·.2)

def exactNumber? : Expr → Option Number
  | .num z => if z.isExact then some z else none
  | _ => none

section
variable (c : Config)

def splitConstant : List (Bool × Expr) → Number → Computation (Number × List (Bool × Expr))
  | [], constant => return (constant, [])
  | (positive, e) :: rest, constant =>
    match e.exactNumber? with
    | some z => do
      let term ← if positive then pure z else z.neg c
      splitConstant rest (← constant.add c term)
    | none => do
      let (constant, terms) ← splitConstant rest constant
      return (constant, (positive, e) :: terms)

/-- Multiplies the exact numbers among the factors, and gives the other factors as they come. -/
def splitCoefficient : List Expr → Number → Computation (Number × List Expr)
  | [], coefficient => return (coefficient, [])
  | e :: rest, coefficient =>
    match e.exactNumber? with
    | some z => do splitCoefficient rest (← coefficient.mul c z)
    | none => do
      let (coefficient, factors) ← splitCoefficient rest coefficient
      return (coefficient, e :: factors)

def ofSignedTerms : List (Bool × Expr) → Computation Expr
  | [] => return 0
  | (positive, first) :: rest => do
    let first ← if positive then pure first else negate c first
    return rest.foldl (fun sum (positive, e) => .binary (if positive then .sum else .minus) sum e)
      first

def sortedSum (e : Expr) : Computation Expr := do
  let (constant, terms) ← splitConstant c (signedTerms true e []) 0
  let sorted := sortByKey (← get) (·.2) terms
  if !sorted.isEmpty && constant.isNegative then
    ofSignedTerms c (sorted ++ [(false, .num (← constant.neg c))])
  else if !constant.isZero || sorted.isEmpty then
    ofSignedTerms c (sorted ++ [(true, .num constant)])
  else ofSignedTerms c sorted

def ofFactors : List Expr → Expr
  | [] => 1
  | first :: rest => rest.foldl (.binary .mul) first

def sortedProduct (e : Expr) : Computation Expr := do
  let (coefficient, factors) ← splitCoefficient c (factorsOnto e []) 1
  if coefficient.isZero then return 0
  let sorted := sortByKey (← get) id factors
  return ofFactors <|
    if coefficient ≠ 1 || sorted.isEmpty then .num coefficient :: sorted else sorted

/-- Sums and products in canonical order, with their exact numbers folded. -/
def sortNode (e : Expr) : Computation Expr :=
  match e with
  | .binary .sum _ _ | .binary .minus _ _ => sortedSum c e
  | .binary .mul _ _ => sortedProduct c e
  | e => return e

def splitFactor (e : Expr) : Number × Expr :=
  match e with
  | .binary .mul (.num z) b => if z.isExact then (z, b) else (1, e)
  | e => (1, e)

def splitPower : Expr → Expr × Expr
  | .binary .pow a n => (a, n)
  | e => (e, 1)

def scaled (coefficient : Number) (e : Expr) : Expr :=
  if coefficient.isZero then 0 else if coefficient = 1 then e
  else .binary .mul (.num coefficient) e

/-- `a x ± b x` becomes `(a ± b) x`. -/
def likeTerms? (e : Expr) : Computation (Option Expr) :=
  let collect := fun (combine : Number → Number → Computation Number) (a b : Expr) =>
    let (m, x) := splitFactor a
    let (n, y) := splitFactor b
    if a.isNumber || b.isNumber || x ≠ y then return none
    else return some (scaled (← combine m n) x)
  match e with
  | .binary .sum a b => collect (Number.add c) a b
  | .binary .minus a b => collect (Number.sub c) a b
  | _ => return none

def opposite? : Expr → Option Expr
  | .binary .mul m x => if m.isMinusOne then some x else none
  | _ => none

def negativeNumber? : Expr → Option RealNumber
  | .num (.real r) => if r.isNegative then some r else none
  | _ => none

/-- Sums of opposites become differences and the other way round. -/
def signs? : Expr → Computation (Option Expr)
  | .binary .sum a b =>
    match opposite? b, negativeNumber? b, opposite? a with
    | some x, _, _ => return some (.binary .minus a x)
    | none, some r, _ => return some (.binary .minus a (.num (.real (← r.neg))))
    | none, none, some x => return some (.binary .minus b x)
    | none, none, none => return none
  | .binary .minus a b =>
    match opposite? b, negativeNumber? b with
    | some x, _ => return some (.binary .sum a x)
    | none, some r => return some (.binary .sum a (.num (.real (← r.neg))))
    | none, none => return none
  | .binary .mul m inner =>
    if !m.isMinusOne then return none
    else match opposite? inner, inner with
      | some x, _ => return some x
      | none, .binary .minus a b => return some (.binary .minus b a)
      | none, _ => return none
  | _ => return none

def isNonNegative : Expr → Bool
  | .num (.real r) => !r.isNaN && !r.isNegative
  | _ => false

/-- A power of a base to an exponent, unless a negative exponent could hide that the base is
zero. -/
def guardedPower? (safe : Bool) (base : Expr) (exponent : Computation Expr) :
    Computation (Option Expr) := do
  let safe ← if safe then pure true else nonzero c base
  if safe then return some (.binary .pow base (← exponent)) else return none

/-- `x^p x^q` becomes `x^(p + q)`, and `(x^p)^n` becomes `x^(p n)` for an integer `n`. -/
def mergePowers? (e : Expr) : Computation (Option Expr) :=
  match e with
  | .binary .mul a b =>
    let (base, p) := splitPower a
    let (other, q) := splitPower b
    if a.isNumber || base ≠ other then return none
    else
      guardedPower? c (isNonNegative p && isNonNegative q) base <|
        match p, q with
        | .num x, .num y => return .num (← x.add c y)
        | p, q => return .binary .sum p q
  | .binary .pow (.binary .pow base p) n =>
    match n.integer? with
    | some k =>
      guardedPower? c (isNonNegative p && 0 ≤ k) base <|
        match p with
        | .num x => return .num (← x.mul c (Number.ofInt k))
        | p => return .binary .mul n p
    | none => return none
  | _ => return none

/-- `a / (x / y)` becomes `a y / x` where `y` is known not to be zero. -/
def invertedQuotient? (a : Expr) : Expr → Computation (Option Expr)
  | .binary .div x y => do
    if ← nonzero c y then return some (.binary .div (.binary .mul a y) x) else return none
  | _ => return none

/-- A factor that is also the divisor is cancelled where the divisor is known not to be zero. -/
def cancelled? (b : Expr) : Expr → Computation (Option Expr)
  | .binary .mul x y => do
    if !(← nonzero c b) then return none
    return if x = b then some y else if y = b then some x else none
  | _ => return none

def flattenDivision? (e : Expr) : Computation (Option Expr) :=
  match e with
  | .binary .div (.binary .div x y) b => return some (.binary .div x (.binary .mul y b))
  | .binary .div a b => do
    match ← invertedQuotient? c a b with
    | some flat => return some flat
    | none => cancelled? c b a
  | _ => return none

/-- Collects like terms, settles signs, merges powers and flattens divisions: the first of these
that applies. -/
def commonNode (e : Expr) : Computation Expr := do
  if let some r ← likeTerms? c e then return r
  if let some r ← signs? e then return r
  if let some r ← mergePowers? c e then return r
  if let some r ← flattenDivision? c e then return r
  return e

def isPower : Expr → Bool
  | .binary .pow _ _ => true
  | _ => false

def powerNode (e : Expr) : Computation Expr :=
  match e with
  | .binary .mul (.binary .pow a m) (.binary .pow b n) =>
    return if m.integer?.isSome && m = n then .binary .pow (.binary .mul a b) m else e
  | .binary .div a b => do
    let (base, p) := splitPower a
    let (other, q) := splitPower b
    if (a.isPower || b.isPower) && base = other && !base.isNumber then
      if ← nonzero c base then
        match p, q with
        | .num x, .num y => return .binary .pow base (.num (← x.sub c y))
        | p, q => return .binary .pow base (.binary .minus p q)
      else return e
    else return e
  | e => return e

def squareOf? (f : Circular) : Expr → Option Expr
  | .binary .pow (.unary (.circular g) x) n => if g = f ∧ n = 2 then some x else none
  | _ => none

def isPythagorean (a b : Expr) : Bool :=
  match squareOf? .sin a, squareOf? .cos b with
  | some x, some y => x = y
  | _, _ => false

def circularNode (e : Expr) : Expr :=
  match e with
  | .binary .sum a b => if isPythagorean a b || isPythagorean b a then 1 else e
  | .binary .div (.unary (.circular .sin) x) (.unary (.circular .cos) y) =>
    if x = y then .unary (.circular .tan) x else e
  | .binary .div (.unary (.circular .cos) x) (.unary (.circular .sin) y) =>
    if x = y then .unary (.circular .cotan) x else e
  | .binary .div a (.unary (.circular .cos) x) => if a.isOne then .unary (.circular .sec) x else e
  | .binary .div a (.unary (.circular .sin) x) => if a.isOne then .unary (.circular .cosec) x else e
  | .unary (.circular .sin) (.binary .mul m x) =>
    if m.isMinusOne then .binary .mul minusOne (.unary (.circular .sin) x) else e
  | .unary (.circular .cos) (.binary .mul m x) =>
    if m.isMinusOne then .unary (.circular .cos) x else e
  | e => e

def negated? : Expr → Option Expr
  | .unary .not a => some a
  | _ => none

/-- Idempotence, complements and De Morgan's law for one connective with its dual; `zero` is the
value of a statement joined with its negation. -/
def latticeNode (op dual : BinaryOp) (zero : Bool) (a b : Expr) : Expr :=
  if a = b then a
  else if negated? b = some a || negated? a = some b then .bool zero
  else match negated? a, negated? b with
    | some x, some y => .unary .not (.binary dual x y)
    | _, _ => .binary op a b

def booleanNode : Expr → Expr
  | .unary .not (.unary .not a) => a
  | .binary .and a b => latticeNode .and .or false a b
  | .binary .or a b => latticeNode .or .and true a b
  | e => e

end

/-- The passes in the order in which they run. -/
inductive Pass where
  | sort | common | power | circular | boolean
deriving DecidableEq

namespace Pass

def all : List Pass := [.sort, .common, .power, .circular, .boolean]

def atNode (c : Config) : Pass → Expr → Computation Expr
  | .sort, e => sortNode c e
  | .common, e => commonNode c e
  | .power, e => powerNode c e
  | .circular, e => return circularNode e
  | .boolean, e => return booleanNode e

def run (c : Config) (pass : Pass) (e : Expr) : Computation Expr := e.replaceM (pass.atNode c)

end Pass

end ComputerAlgebra.Expr

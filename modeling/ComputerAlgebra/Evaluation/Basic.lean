import ComputerAlgebra.Evaluation.Application
import ComputerAlgebra.Evaluation.Rules

/-!
Evaluation from the leaves up. Every node is checked for definedness, reduced by its rule, and kept
within its domain; what cannot be reduced stays as a node over its evaluated parts. Conditions of
the parts are moved out of the node.
-/

namespace ComputerAlgebra.Expr

/-- How many reductions of applications may be nested inside each other. -/
def allowance : Nat := 1000

/-- The result of a node, unless a part of it is NaN or it lies outside the domain of the node;
there `outside` takes its place. -/
def confine (c : Config) (self result outside : Expr) : Expr :=
  if result.children.any isNaN then .num .nan
  else if fits (self.codomain c) result then result
  else outside

def unconditioned : Expr → Expr
  | .provided e _ => e
  | e => e

def condition : Expr → Option Expr
  | .provided _ p => some p
  | _ => none

def conditionDepth : Expr → Nat
  | .provided e _ => e.conditionDepth + 1
  | _ => 0

/-- Applies a rule to the parts of a node. When no rule applies, the conditions of the parts are
joined and put around the node, and the node is tried again without them; `settle` may decide that
node at once. A condition below a parameter stays there. -/
def liftConditions (settle : Expr → Computation (Option Expr))
    (rule : List Expr → Computation (Option Expr)) (self : Expr) :
    Nat → List Expr → Computation Expr
  | fuel, parts => do
    match ← rule parts with
    | some result => return result
    | none =>
      match self, parts.filterMap condition, fuel with
      | .lam _ _, _, _ | _, [], _ | _, _, 0 => return self.withChildren parts
      | _, p :: ps, fuel + 1 =>
        let bare := parts.map unconditioned
        let inner ← match ← settle (self.withChildren bare) with
          | some value => pure value
          | none => liftConditions settle rule self fuel bare
        return .provided inner (ps.foldl (.binary .and) p)

def liftRounds (parts : List Expr) : Nat := parts.foldl (fun n e => max n e.conditionDepth) 0

/-- The cases of a conditional expression that matter: cases known to fail are dropped, and
those after the first one known to hold. The flag tells whether the first case that is left is known
to hold. -/
def openCases (evaluate : Expr → Computation Expr) :
    List (Expr × Expr) → Computation (List (Expr × Expr) × Bool)
  | [] => return ([], false)
  | (e, p) :: rest => do
    match ← evaluate p with
    | .bool true => return ([(e, p)], true)
    | .bool false => openCases evaluate rest
    | _ =>
      let (kept, _) ← openCases evaluate rest
      return ((e, p) :: kept, false)

/-- A conditional expression by its cases: NaN when none is left, the expression of the first one
when that is known to hold, and the cases that are left otherwise. -/
def decideCases (evaluate : Expr → Computation Expr) (cases : List (Expr × Expr)) :
    Computation Expr := do
  match ← openCases evaluate cases with
  | ([], _) => return .num .nan
  | ((e, _) :: _, true) => return e
  | (kept, false) => return .piecewise kept

def evaluationRule (c : Config) (evaluate : Expr → Computation Expr) (self : Expr)
    (parts : List Expr) : Computation (Option Expr) :=
  match self, parts with
  | .unary op _, [a] => unaryRule? c op a
  | .binary op _ _, [a, b] => binaryRule? c evaluate op a b
  | .lam p _, [_, body] => return etaRule? p body
  | .app _ _, f :: args => do
    match ← reduceOnce? self f args with
    | some reduced => return some (← evaluate reduced)
    | none => return none
  | .provided _ _, [e, p] => return providedRule? e p
  | _, _ => return none

def evaluateNode (c : Config) (evaluate : Expr → Computation Expr) (self : Expr)
    (parts : List Expr) : Computation Expr :=
  match self with
  | .num _ | .bool _ => return self
  | .var x =>
    if isConstantName x then return confine c self (.num (← Number.constant c x)) (.num .nan)
    else return self
  | .piecewise _ => decideCases evaluate (pairUp parts)
  | _ => do
    if (← condition? c self parts) = some false then return .num .nan
    let result ← liftConditions (fun _ => return none) (evaluationRule c evaluate self) self
      (liftRounds parts) parts
    return confine c self result (.num .nan)

def evaluateWithin (c : Config) : Nat → Expr → Computation Expr
  | 0, _ => throw .endlessReduction
  | fuel + 1, e => foldM (evaluateNode c (evaluateWithin c fuel)) e

def evaluate (c : Config) (e : Expr) : Computation Expr := evaluateWithin c allowance e

def evaled (c : Config) (e : Expr) : Computation Expr := do
  checkDepth c e
  evaluate c e

def evalNumber (c : Config) (e : Expr) : Computation Number := do
  match ← e.evaled c with
  | .num z => return z
  | other => throw (.notConstant "number" (← other.text c))

def evalBoolean (c : Config) (e : Expr) : Computation Bool := do
  match ← e.evaled c with
  | .bool b => return b
  | other => throw (.notConstant "boolean" (← other.text c))

end ComputerAlgebra.Expr

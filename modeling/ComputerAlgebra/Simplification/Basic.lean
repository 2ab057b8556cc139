import ComputerAlgebra.Simplification.Rules

/-!
One pass of simplification from the leaves up. A node with an exact value becomes that value; any
other node is reduced by the identities of its operator. The value of a node is found along with
its simplified form, from the values of its parts.
-/

namespace ComputerAlgebra.Expr

/-- A computation with its outcomes at the two digits of the float unit that matter: those that the
unit has now, and those of the settings. -/
structure Tabulated (α : Type) where
  compute : Computation α
  now : FloatUnit
  outcome : EStateM.Result Fault FloatUnit α
  settled : FloatUnit
  settledOutcome : EStateM.Result Fault FloatUnit α

namespace Tabulated

def of {α : Type} (c : Config) (now : FloatUnit) (m : Computation α) : Tabulated α :=
  let settled := FloatUnit.ofConfig c
  let outcome := m now
  { compute := m, now, outcome, settled,
    settledOutcome := if settled = now then outcome else m settled }

def run {α : Type} (t : Tabulated α) : Computation α := fun u =>
  if u = t.now then t.outcome
  else if u = t.settled then t.settledOutcome
  else t.compute u

/-- The table changes nothing about a computation. -/
@[simp] theorem run_of {α : Type} (c : Config) (now : FloatUnit) (m : Computation α) :
    (of c now m).run = m := by
  funext u
  change (if u = now then m now
    else if u = FloatUnit.ofConfig c then
      (if FloatUnit.ofConfig c = now then m now else m (FloatUnit.ofConfig c))
    else m u) = m u
  grind

end Tabulated

structure Reduced where
  value : Tabulated Expr
  simplified : Expr

/-- The value when it is an exact number. Quotients do not become NaN. -/
def exactValue? (self value : Expr) : Option Expr :=
  match value with
  | .num z =>
    let keepsNaN := match self with
      | .binary .div _ _ => false
      | _ => true
    if z.isExact && (keepsNaN || !z.isNaN) then some value else none
  | _ => none

def simplificationRule (c : Config) (again : Expr → Computation Expr) (self : Expr)
    (parts : List Expr) : Computation (Option Expr) :=
  match self, parts with
  | .unary op _, [a] => simplifyUnary? c op a
  | .binary op _ _, [a, b] => simplifyBinary? c op a b
  | .lam p _, [_, body] => return etaRule? p body
  | .app _ _, f :: args => do
    match ← reduceOnce? self f args with
    | some reduced => return some (← again reduced)
    | none => return none
  | .provided _ _, [e, p] => return providedRule? e p
  | _, _ => return none

def simplifyNode (c : Config) (again : Expr → Computation Expr) (self : Expr)
    (value : Computation Expr) (parts : List Expr) : Computation Expr :=
  match self with
  | .num _ | .bool _ | .var _ => return self
  | .piecewise _ => decideCases (evaluate c) (pairUp parts)
  | _ => do
    let result ← match exactValue? self (← value) with
      | some value => pure value
      | none =>
        liftConditions (fun e => return exactValue? self (← evaluate c e))
          (simplificationRule c again self) self (liftRounds parts) parts
    return confine c self result self

def reduceNode (c : Config) (again : Expr → Computation Expr) (self : Expr)
    (parts : List Reduced) : Computation Reduced := do
  let value := Tabulated.of c (← get) do
    evaluateNode c (evaluate c) self (← parts.mapM (·.value.run))
  return ⟨value, ← simplifyNode c again self value.run (parts.map (·.simplified))⟩

def simplifyWithin (c : Config) : Nat → Expr → Computation Expr
  | 0, _ => throw .endlessReduction
  | fuel + 1, e => return (← foldM (reduceNode c (simplifyWithin c fuel)) e).simplified

def innerSimplified (c : Config) (e : Expr) : Computation Expr := do
  checkDepth c e
  simplifyWithin c allowance e

end ComputerAlgebra.Expr

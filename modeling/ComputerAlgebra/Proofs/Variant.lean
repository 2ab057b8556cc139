import ComputerAlgebra.Proofs.Simplification.Reduction

/-!
Evaluation and simplification with two things left open. An equation of equal sides is true, equal factors
make a square, an expression divided by itself or taken as its own logarithm makes one, and an application
that reduces to itself is not reduced; expressions are equal there as trees, names of parameters included.
Here a test stands in the place of that equality. And where reductions are nested deeper than the allowance,
here anything may be done instead of giving up. With equality for the test and the fault for the rest, these
are evaluation and simplification as they are.
-/

namespace ComputerAlgebra.Expr

namespace Variant
variable (same : Expr → Expr → Prop) [DecidableRel same] (c : Config)

def endless (_ : Expr) : Computation Expr := throw .endlessReduction

section Evaluation

def equalsValue? (a b : Expr) : Computation (Option Bool) :=
  if same a b then return some true else Expr.equalsValue? c a b

def binaryRule? (evaluate : Expr → Computation Expr) (op : BinaryOp) (a b : Expr) :
    Computation (Option Expr) :=
  if op = .equals then return (← equalsValue? same c a b).map .bool
  else Expr.binaryRule? c evaluate op a b

def reduceOnce? (self head : Expr) (arguments : List Expr) : Except Fault (Option Expr) := do
  let builtin := match head with
    | .var name => builtin? name arguments
    | _ => none
  match builtin with
  | some e => return some e
  | none =>
    match ← beta? head arguments with
    | some reduced => return if reduced.isRedex && same reduced self then none else some reduced
    | none => return none

def evaluationRule (evaluate : Expr → Computation Expr) (self : Expr) (parts : List Expr) :
    Computation (Option Expr) :=
  match self, parts with
  | .unary op _, [a] => unaryRule? c op a
  | .binary op _ _, [a, b] => binaryRule? same c evaluate op a b
  | .lam p _, [_, body] => return etaRule? p body
  | .app _ _, f :: args => do
    match ← reduceOnce? same self f args with
    | some reduced => return some (← evaluate reduced)
    | none => return none
  | .provided _ _, [e, p] => return providedRule? e p
  | _, _ => return none

def evaluateNode (evaluate : Expr → Computation Expr) (self : Expr) (parts : List Expr) :
    Computation Expr :=
  match self with
  | .num _ | .bool _ => return self
  | .var x =>
    if isConstantName x then return confine c self (.num (← Number.constant c x)) (.num .nan)
    else return self
  | .piecewise _ => decideCases evaluate (pairUp parts)
  | _ => do
    if (← condition? c self parts) = some false then return .num .nan
    let result ← liftConditions (fun _ => return none) (evaluationRule same c evaluate self) self
      (liftRounds parts) parts
    return confine c self result (.num .nan)

/-- Evaluation with a number of reductions inside each other, and `stop` for what is deeper. -/
def evaluateWithin (stop : Expr → Computation Expr) : Nat → Expr → Computation Expr
  | 0, e => stop e
  | fuel + 1, e => foldM (evaluateNode same c (evaluateWithin stop fuel)) e

def evaluate : Expr → Computation Expr := evaluateWithin same c endless allowance

def evaled (e : Expr) : Computation Expr := do
  checkDepth c e
  evaluate same c e

end Evaluation

section Simplification
variable (evaluate : Expr → Computation Expr)

def validLogBase (e : Expr) : Computation Bool := do
  checkDepth c e
  match ← evaluate e with
  | .num z => return z.isFinite && !z.isZero && z != 1
  | _ => return false

def simplifyIdentity? (op : BinaryOp) (a b : Expr) : Computation (Option Expr) := do
  match op with
  | .sum => return if a.isZero then some b else if b.isZero then some a else none
  | .minus =>
    if b.isZero then return some a
    else if a.isZero then return some (← negate c b)
    else return none
  | .mul =>
    if a.isZero || b.isZero then return some 0
    if a.isOne then return some b
    if b.isOne then return some a
    match b with
    | .binary .mul m x =>
      if a.isMinusOne && m.isMinusOne then return some x
      else return if same a b then some (.binary .pow a 2) else none
    | _ => return if same a b then some (.binary .pow a 2) else none
  | .div =>
    if b.isOne then return some a
    if b.isMinusOne then return some (← negate c a)
    if a.isZero then
      if ← provablyNonzero c evaluate b then return some 0
    if same a b then
      if ← provablyNonzero c evaluate b then return some 1
    return none
  | .pow =>
    if a.isOne || b.isZero then return some 1
    if b.isOne then return some a
    if b.isMinusOne then return some (.binary .div 1 a)
    if a.isZero then
      if ← provablyPositive c evaluate b then return some 0
    return none
  | .log =>
    if b.isOne then return some 0
    if same a b then
      if ← validLogBase c evaluate a then return some 1
    return none
  | _ => return none

def exactEquals? (a b : Expr) : Option Bool :=
  if same a b then some true else Expr.exactEquals? a b

def simplifyBinary? (op : BinaryOp) (a b : Expr) : Computation (Option Expr) :=
  if op = .equals then return (exactEquals? same a b).map .bool
  else if op.isStatement || (a.isNumber && b.isNumber) then Expr.simplifyBinary? c op a b
  else simplifyIdentity? same c evaluate op a b

def simplificationRule (again : Expr → Computation Expr) (self : Expr) (parts : List Expr) :
    Computation (Option Expr) :=
  match self, parts with
  | .unary op _, [a] => simplifyUnary? c op a
  | .binary op _ _, [a, b] => simplifyBinary? same c evaluate op a b
  | .lam p _, [_, body] => return etaRule? p body
  | .app _ _, f :: args => do
    match ← reduceOnce? same self f args with
    | some reduced => return some (← again reduced)
    | none => return none
  | .provided _ _, [e, p] => return providedRule? e p
  | _, _ => return none

def simplifyNode (again : Expr → Computation Expr) (self : Expr) (value : Computation Expr)
    (parts : List Expr) : Computation Expr :=
  match self with
  | .num _ | .bool _ | .var _ => return self
  | .piecewise _ => decideCases evaluate (pairUp parts)
  | _ => do
    let result ← match exactValue? self (← value) with
      | some value => pure value
      | none =>
        liftConditions (fun e => return exactValue? self (← evaluate e))
          (simplificationRule same c evaluate again self) self (liftRounds parts) parts
    return confine c self result self

def reduceNode (again : Expr → Computation Expr) (self : Expr)
    (parts : List (Computation Expr × Expr)) : Computation (Computation Expr × Expr) := do
  let value := do evaluateNode same c evaluate self (← parts.mapM (·.1))
  return (value, ← simplifyNode same c evaluate again self value (parts.map (·.2)))

def simplifyWithin (stop : Expr → Computation Expr) : Nat → Expr → Computation Expr
  | 0, e => stop e
  | fuel + 1, e => return (← foldM (reduceNode same c evaluate (simplifyWithin stop fuel)) e).2

end Simplification

def innerSimplified (e : Expr) : Computation Expr := do
  checkDepth c e
  simplifyWithin same c (evaluate same c) endless allowance e

end Variant

section Trees
open Variant
variable (c : Config)

theorem equalsValue?_trees (a b : Expr) :
    Variant.equalsValue? (· = ·) c a b = equalsValue? c a b := by
  unfold Variant.equalsValue?
  split
  · next same => exact (if_pos same).symm
  · rfl

theorem binaryRule?_trees (evaluate : Expr → Computation Expr) (op : BinaryOp) (a b : Expr) :
    Variant.binaryRule? (· = ·) c evaluate op a b = binaryRule? c evaluate op a b := by
  unfold Variant.binaryRule?
  rw [equalsValue?_trees]
  split
  · next equation =>
    subst equation
    rfl
  · rfl

theorem evaluationRule_trees (evaluate : Expr → Computation Expr) (self : Expr) (parts : List Expr) :
    Variant.evaluationRule (· = ·) c evaluate self parts = evaluationRule c evaluate self parts := by
  unfold Variant.evaluationRule evaluationRule
  simp only [binaryRule?_trees]
  rfl

theorem evaluateNode_trees (evaluate : Expr → Computation Expr) (self : Expr) (parts : List Expr) :
    Variant.evaluateNode (· = ·) c evaluate self parts = evaluateNode c evaluate self parts := by
  have rule := funext (evaluationRule_trees c evaluate self)
  cases self <;> simp only [Variant.evaluateNode, evaluateNode, rule]

theorem evaluateWithin_trees (fuel : Nat) :
    Variant.evaluateWithin (· = ·) c endless fuel = evaluateWithin c fuel := by
  induction fuel with
  | zero => rfl
  | succ fuel ih =>
    funext e
    rw [Variant.evaluateWithin, evaluateWithin, ih]
    congr 1
    funext self parts
    exact evaluateNode_trees c _ self parts

theorem evaluate_trees : Variant.evaluate (· = ·) c = evaluate c :=
  evaluateWithin_trees c allowance

theorem simplifyIdentity?_trees (op : BinaryOp) (a b : Expr) :
    Variant.simplifyIdentity? (· = ·) c (evaluate c) op a b = simplifyIdentity? c op a b := by
  have base : validLogBase c a = Variant.validLogBase c (evaluate c) a := bind_assoc _ _ _
  cases op <;> first | rfl | simp only [Variant.simplifyIdentity?, simplifyIdentity?, base]

theorem exactEquals?_trees (a b : Expr) : Variant.exactEquals? (· = ·) a b = exactEquals? a b := by
  unfold Variant.exactEquals?
  split
  · next same => exact (if_pos same).symm
  · rfl

theorem simplifyBinary?_trees (op : BinaryOp) (a b : Expr) :
    Variant.simplifyBinary? (· = ·) c (evaluate c) op a b = simplifyBinary? c op a b := by
  unfold Variant.simplifyBinary?
  rw [exactEquals?_trees, simplifyIdentity?_trees]
  split
  · next equation =>
    subst equation
    rfl
  · cases op <;> first | rfl | (cases a <;> first | rfl | (cases b <;> rfl))

theorem simplificationRule_trees (again : Expr → Computation Expr) (self : Expr) (parts : List Expr) :
    Variant.simplificationRule (· = ·) c (evaluate c) again self parts
      = simplificationRule c again self parts := by
  unfold Variant.simplificationRule simplificationRule
  simp only [simplifyBinary?_trees]
  rfl

theorem simplifyNode_trees (again : Expr → Computation Expr) (self : Expr) (value : Computation Expr)
    (parts : List Expr) : Variant.simplifyNode (· = ·) c (evaluate c) again self value parts
      = simplifyNode c again self value parts := by
  have rule := funext (simplificationRule_trees c again self)
  cases self <;> first | rfl | (unfold Variant.simplifyNode; rw [rule]; rfl)

theorem simplifyWithin_trees (fuel : Nat) :
    Variant.simplifyWithin (· = ·) c (evaluate c) endless fuel = simplifyWithin c fuel := by
  induction fuel with
  | zero => rfl
  | succ fuel ih =>
    funext e
    have step : Variant.reduceNode (· = ·) c (evaluate c) (simplifyWithin c fuel)
        = reducePlainNode c (simplifyWithin c fuel) := by
      funext self parts
      simp only [Variant.reduceNode, reducePlainNode, simplifyNode_trees, evaluateNode_trees]
    rw [simplifyWithin_untabulated, Variant.simplifyWithin, ih, step, bind_pure_comp]

end Trees

end ComputerAlgebra.Expr

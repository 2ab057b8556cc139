import ComputerAlgebra.Expr.Text
import ComputerAlgebra.Number.Functions
import ComputerAlgebra.Number.Literal

/-!
Building of expressions from operands that may still be literals. Constructors convert their
literals and fold nothing; operators compute at once when both operands are numbers.
-/

namespace ComputerAlgebra

/-- An expression, or a literal that is yet to become one. -/
inductive Operand where
  | expr (e : Expr)
  | literal (l : Literal)

namespace Operand

def expr? : Operand → Option Expr
  | .expr e => some e
  | .literal _ => none

def typeName : Operand → String
  | .expr e => e.kindName
  | .literal l => l.typeName

def text (c : Config) : Operand → Computation String
  | .expr e => e.text c
  | .literal l => return l.render

def equalsInt (n : Int) : Operand → Bool
  | .expr e => e = .num (Number.ofInt n)
  | .literal l => l.equalsInt n

def toExpr (c : Config) : Operand → Computation Expr
  | .expr e => return e
  | .literal (.bool b) => return .bool b
  | .literal l => return .num (← Number.ofLiteral c l)

def toNumber (c : Config) : Operand → Computation Number
  | .expr (.num z) => return z
  | .expr e => throw (.notExpression e.kindName)
  | .literal l => Number.ofLiteral c l

/-- The number that takes part in an operation at once. Text and truth values do not. -/
def coerce? (c : Config) : Operand → Computation (Option Number)
  | .expr (.num z) => return some z
  | .expr _ | .literal .none | .literal (.bool _) | .literal (.text _) | .literal (.list _) =>
    return none
  | .literal l => return some (← Number.ofLiteral c l)

def int? : Operand → Option Int
  | .expr e => e.integer?
  | .literal (.int n) => some n
  | .literal (.fraction q) => if q.den = 1 then some q.num else none
  | .literal _ => none

def toInt (c : Config) (role : String) (x : Operand) : Computation Int := do
  match x.int? with
  | some n => return n
  | none => throw (.integerExpected role x.typeName (← x.text c))

def toReal (c : Config) : Operand → Computation RealNumber
  | .expr (.num (.real r)) => return r
  | .expr (.num z) => do throw (.notReal (← z.text c))
  | .expr e => throw (.notNumeric e.kindName)
  | .literal l => RealNumber.ofLiteral c l

end Operand

namespace Number

/-- A fraction from numerator and denominator. A fraction over one is taken as it is. -/
def ofFraction (c : Config) (numerator denominator : Operand) : Computation Number :=
  match numerator with
  | .literal (.fraction q) =>
    if denominator.equalsInt 1 then return ofRat q else quotient
  | _ => quotient
where
  quotient : Computation Number := do
    let n ← numerator.toInt c "numerator"
    let d ← denominator.toInt c "denominator"
    if d = 0 then throw .zeroDenominator
    return ofRat ((n : Rat) / d)

/-- A complex number from its parts. A complex literal over a zero imaginary part is taken as it
is. -/
def ofOperands (c : Config) (re im : Operand) : Computation Number :=
  match re, im with
  | .literal (.complexDouble x y), .literal l =>
    if l.equalsInt 0 then ofLiteral c (.complexDouble x y) else parts
  | .literal (.complexFloat x y), im =>
    if im.equalsInt 0 then ofLiteral c (.complexFloat x y) else parts
  | _, _ => parts
where
  parts : Computation Number := do
    let x ← re.toReal c
    ofParts c x (← im.toReal c)

end Number

namespace Expr

def variableNamed : Operand → Except Fault Expr
  | .literal (.text s) => if s = "" then .error (.notExpression "str") else .ok (.var s)
  | x => .error (.notExpression x.typeName)

def named? : Operand → Except Fault Expr
  | .literal (.text s) => if s = "" then .error .emptyName else .ok (.var s)
  | x => .error (.nameNotText x.typeName)

def boolean? : Operand → Except Fault Expr
  | .literal (.bool b) => .ok (.bool b)
  | x => .error (.notExpression x.typeName)

def parameter? (x : Operand) : Except Fault String :=
  let name? : Except Fault String := match x with
    | .literal (.text s) =>
      if s = "" then .error (.notExpression "str")
      else .ok s
    | .expr (.var s) => .ok s
    | x => .error (.notExpression x.typeName)
  name?.bind fun s => if isConstantName s then .error (.notExpression "Variable") else .ok s

def unary? (c : Config) (op : UnaryOp) (a : Operand) : Computation Expr := do
  return .unary op (← a.toExpr c)

def binary? (c : Config) (op : BinaryOp) (a b : Operand) : Computation Expr := do
  let x ← a.toExpr c
  return .binary op x (← b.toExpr c)

def lambda? (c : Config) (parameter body : Operand) : Computation Expr := do
  let p ← parameter? parameter
  return .lam p (← body.toExpr c)

def application? (c : Config) (head : Operand) (arguments : List Operand) : Computation Expr := do
  let f ← head.toExpr c
  return .app f (← arguments.mapM (·.toExpr c))

def provided? (c : Config) (e p : Operand) : Computation Expr := do
  let x ← e.toExpr c
  return .provided x (← p.toExpr c)

def interval? (c : Config) (low high : Operand) : Computation Expr := do
  let x ← low.toExpr c
  return .interval x (← high.toExpr c)

/-- A case of a conditional expression: an expression with its predicate, or one operand that holds
both. -/
inductive CaseOperand where
  | parts (operands : List Operand)
  | whole (x : Operand)

def CaseOperand.pair? (c : Config) : CaseOperand → Computation (Expr × Expr)
  | .parts operands => both operands
  | .whole (.expr (.provided e p)) => return (e, p)
  | .whole (.literal (.list items)) => both (items.map .literal)
  | .whole (.literal (.text s)) => both (s.toList.map fun c => .literal (.text c.toString))
  | .whole x => throw (.notPair x.typeName)
where
  both : List Operand → Computation (Expr × Expr)
    | [e, p] => do
      let x ← e.toExpr c
      return (x, ← p.toExpr c)
    | operands => throw (.caseOfParts operands.length)

def piecewise? (c : Config) (cases : List CaseOperand) : Computation Expr := do
  let parts ← cases.mapM (·.pair? c)
  if parts.isEmpty then throw .noCases
  return .piecewise parts

inductive Arithmetic where
  | add | sub | mul | div | pow
deriving DecidableEq

namespace Arithmetic

def node : Arithmetic → BinaryOp
  | .add => .sum
  | .sub => .minus
  | .mul => .mul
  | .div => .div
  | .pow => .pow

def compute (c : Config) : Arithmetic → Number → Number → Computation Number
  | .add => Number.add c
  | .sub => Number.sub c
  | .mul => Number.mul c
  | .div => Number.div c
  | .pow => Number.pow c

end Arithmetic

/-- A fraction to the power of an expression counts as a double. -/
def powerBase : Operand → Except Fault Operand
  | .literal (.fraction q) =>
    match Binary64.ofRat q with
    | .infinity _ => .error .overflow
    | x => .ok (.literal (.double x))
  | x => .ok x

def arithmetic (c : Config) (op : Arithmetic) (a b : Operand) : Computation Expr := do
  let a ← if op = .pow then powerBase a else pure a
  let numeric := fun (x : Operand) => match x with
    | .expr (.num _) => true
    | _ => false
  if numeric a || numeric b then
    -- The literal operand is converted when the other one is a number.
    match ← a.coerce? c, ← b.coerce? c with
    | some x, some y => return .num (← op.compute c x y)
    | _, _ => binary? c op.node a b
  else binary? c op.node a b

def connective (c : Config) (op : BinaryOp) (a b : Operand) : Computation Expr :=
  match a with
  | .expr x => return .binary op x (← b.toExpr c)
  | .literal _ => throw .unsupported

def negate (c : Config) : Expr → Computation Expr
  | .num z => return .num (← z.neg c)
  | e => return .binary .mul minusOne e

def absoluteValue (c : Config) : Expr → Computation Expr
  | .num z => return .num (← z.abs c)
  | _ => throw .unsupported

def exp (x : Expr) : Expr := .binary .pow (.var "e") x

def ln (x : Expr) : Expr := .binary .log (.var "e") x

def sqrt (x : Expr) : Expr := .binary .pow x half

def sinh (c : Config) (x : Expr) : Computation Expr :=
  return .binary .div (.binary .minus (exp x) (exp (← negate c x))) 2

def cosh (c : Config) (x : Expr) : Computation Expr :=
  return .binary .div (.binary .sum (exp x) (exp (← negate c x))) 2

def tanh (c : Config) (x : Expr) : Computation Expr := do
  let difference := .binary .minus (exp x) (exp (← negate c x))
  return .binary .div difference (.binary .sum (exp x) (exp (← negate c x)))

end Expr
end ComputerAlgebra

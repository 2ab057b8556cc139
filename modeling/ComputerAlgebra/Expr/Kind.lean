import ComputerAlgebra.Expr.Basic

/-!
The sorts of nodes: their names, which of them are statements, and which domain their values have to
belong to.
-/

namespace ComputerAlgebra

def Circular.name : Circular → String
  | .sin => "Sin"
  | .cos => "Cos"
  | .tan => "Tan"
  | .cotan => "Cotan"
  | .sec => "Sec"
  | .cosec => "Cosec"
  | .arcsin => "Arcsin"
  | .arccos => "Arccos"
  | .arctan => "Arctan"
  | .arccotan => "Arccotan"
  | .arcsec => "Arcsec"
  | .arccosec => "Arccosec"

def Circular.all : List Circular :=
  [.sin, .cos, .tan, .cotan, .sec, .cosec, .arcsin, .arccos, .arctan, .arccotan, .arcsec, .arccosec]

def Comparison.name : Comparison → String
  | .less => "Less"
  | .lessOrEqual => "LessOrEqual"
  | .greater => "Greater"
  | .greaterOrEqual => "GreaterOrEqual"

def UnaryOp.name : UnaryOp → String
  | .factorial => "Factorial"
  | .phi => "Phi"
  | .signum => "Signum"
  | .abs => "Abs"
  | .circular f => f.name
  | .not => "Not"

def UnaryOp.all : List UnaryOp :=
  [.factorial, .phi, .signum, .abs, .not] ++ Circular.all.map .circular

def BinaryOp.name : BinaryOp → String
  | .sum => "Sum"
  | .minus => "Minus"
  | .mul => "Mul"
  | .div => "Div"
  | .pow => "Pow"
  | .log => "Log"
  | .and => "And"
  | .or => "Or"
  | .xor => "Xor"
  | .implies => "Implies"
  | .equals => "Equals"
  | .order test => test.name
  | .mem => "In"

def BinaryOp.all : List BinaryOp :=
  [.sum, .minus, .mul, .div, .pow, .log, .and, .or, .xor, .implies, .equals,
    .order .less, .order .lessOrEqual, .order .greater, .order .greaterOrEqual, .mem]

def RealNumber.kindName : RealNumber → String
  | .rational q => if q.den = 1 then "Integer" else "Rational"
  | _ => "Real"

def Number.kindName : Number → String
  | .real r => r.kindName
  | .complex _ _ => "Complex"

def BinaryOp.isStatement : BinaryOp → Bool
  | .sum | .minus | .mul | .div | .pow | .log => false
  | _ => true

namespace Expr

def kindName : Expr → String
  | .num z => z.kindName
  | .var _ => "Variable"
  | .bool _ => "Boolean"
  | .unary op _ => op.name
  | .binary op _ _ => op.name
  | .lam _ _ => "Lambda"
  | .app _ _ => "Application"
  | .provided _ _ => "Provided"
  | .piecewise _ => "Piecewise"
  | .interval _ _ => "Interval"

def kindNames : List String :=
  (["Integer", "Rational", "Real", "Complex", "Variable", "Boolean", "Lambda", "Application",
    "Provided", "Piecewise", "Interval"] ++ UnaryOp.all.map UnaryOp.name ++
    BinaryOp.all.map BinaryOp.name).mergeSort (· ≤ ·)

def codomain (c : Config) : Expr → Domain
  | .num _ | .lam _ _ | .provided _ _ | .piecewise _ => .any
  | .bool _ | .unary .not _ => .boolean
  | .binary op _ _ => if op.isStatement then .boolean else c.codomain
  | .var _ | .unary _ _ | .app _ _ | .interval _ _ => c.codomain

def numberFits (z : Number) : Domain → Bool
  | .any | .complex => true
  | .real => z.isReal
  | .rational => z.rational?.isSome
  | .integer => z.integer?.isSome
  | .boolean => false

/-- Whether a value belongs to a domain; only numbers and truth values can be outside. -/
def fits (domain : Domain) : Expr → Bool
  | .bool _ => domain = .any || domain = .boolean
  | .num z => numberFits z domain
  | _ => true

def isNaN : Expr → Bool
  | .num z => z.isNaN
  | _ => false

def isSet : Expr → Bool
  | .interval _ _ => true
  | _ => false

def number? : Expr → Option Number
  | .num z => some z
  | _ => none

def real? : Expr → Option RealNumber
  | .num z => z.real?
  | _ => none

def rational? : Expr → Option Rat
  | .num z => z.rational?
  | _ => none

def integer? : Expr → Option Int
  | .num z => z.integer?
  | _ => none

def isNumber (e : Expr) : Bool := e.number?.isSome

def isZero : Expr → Bool
  | .num z => z.isZero
  | _ => false

def isOne (e : Expr) : Bool := e = 1

def minusOne : Expr := .num (Number.ofInt (-1))

def isMinusOne (e : Expr) : Bool := e = minusOne

def half : Expr := .num (Number.ofRat (1 / 2))

def isNegative : Expr → Bool
  | .num z => z.isNegative
  | _ => false

def isConstantName (name : String) : Bool := name = "pi" || name = "e"

end Expr
end ComputerAlgebra

import ComputerAlgebra.Evaluation.Rules
import ComputerAlgebra.Expr.Operand

/-!
The functions of the number tower by themselves, applied to operands. They take numbers; an
undefined number, a zero exponent and a few functions with an answer for everything decide the value
of an operand that is something else.
-/

namespace ComputerAlgebra

inductive NumericFunction where
  | unary (op : UnaryOp)
  | binary (op : BinaryOp)
  | negate | sqrt | ln
  | constant
deriving DecidableEq

namespace NumericFunction

variable (c : Config)

def numbers? (args : List Operand) : Option (List Number) :=
  args.mapM fun
    | .expr (.num z) => some z
    | _ => none

def compute? : NumericFunction → List Number → Computation (Option Number)
  | .unary op, [z] => op.compute? c z
  | .binary op, [a, b] => op.compute? c a b
  | .negate, [z] => return some (← z.neg c)
  | .sqrt, [z] => return some (← z.sqrt c)
  | .ln, [z] => return some (← z.ln c)
  | _, _ => throw .unsupported

/-- The opposite of an operand. A literal number is taken for a number with parts of its own, which
has no end: its real part is the literal again. -/
def opposite : Operand → Computation Number
  | .expr (.num z) => z.neg c
  | .expr _ => throw .numberRequired
  | .literal l => throw (if l.isNumeric then .endlessReduction else .numberRequired)

/-- NaN wins over an operand that is no number, a literal on the right excepted. -/
def undefinedOperand : Operand → Operand → Computation Number
  | .expr x, .expr y => if x.isNaN || y.isNaN then return .nan else throw .numberRequired
  | .expr x, .literal _ => if x.isNaN then return .nan else throw .numberRequired
  | .literal _, _ => throw .numberRequired

def startsWithFloats : UnaryOp → Bool
  | .factorial | .circular .arcsin | .circular .arccos | .circular .arctan => true
  | _ => false

def ofOthers : NumericFunction → List Operand → Computation Number
  | .negate, [x] => opposite c x
  | .binary .minus, [a, b] => do undefinedOperand a (.expr (.num (← opposite c b)))
  | .binary .pow, [.expr x, .expr y] =>
    if y.isZero && !x.isNaN then return 1 else undefinedOperand (.expr x) (.expr y)
  | .binary .log, [.expr x, .expr (.num z)] => do
    if !x.isNaN && !z.isNaN then discard (z.ln c)
    undefinedOperand (.expr x) (.expr (.num z))
  | .binary _, [a, b] => undefinedOperand a b
  | .unary .phi, [_] => return .nan
  | .unary .abs, [.expr e] => if e.isFinite then throw .numberRequired else return .positiveInfinity
  | .unary op, [.expr _] => do
    if startsWithFloats op then Computation.settle c
    throw .numberRequired
  | .constant, [.literal (.text name)] => Number.constant c name
  | .constant, [x] => do
    Computation.settle c
    throw (.unknownConstant (← x.text c))
  | _, [_] => throw .numberRequired
  | _, _ => throw .unsupported

def value? (f : NumericFunction) (args : List Operand) : Computation (Option Number) := do
  match f, numbers? args with
  | .constant, _ | _, none => return some (← ofOthers c f args)
  | f, some zs => f.compute? c zs

end NumericFunction
end ComputerAlgebra

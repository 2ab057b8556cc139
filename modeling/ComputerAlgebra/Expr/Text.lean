import ComputerAlgebra.Expr.Measure

/-!
The text of expressions. Every node has a binding strength; an operand that binds looser than its
operator is put into parentheses.
-/

namespace ComputerAlgebra

inductive Priority where
  | lambda | provided
  | implication | disjunction | conjunction | negation
  | equality | comparison
  | containment
  | sum | product | power | factorial | function | leaf
deriving DecidableEq

namespace Priority

def band : Priority → Nat
  | .lambda | .provided => 0
  | .implication | .disjunction | .conjunction | .negation => 0x1000
  | .equality | .comparison => 0x2000
  | .containment => 0x3000
  | .sum | .product | .power | .factorial | .function | .leaf => 0x4000

def rank : Priority → Nat
  | .lambda | .implication | .equality | .containment => 10
  | .provided | .comparison | .sum => 20
  | .disjunction => 30
  | .product => 40
  | .conjunction => 50
  | .power => 60
  | .negation | .factorial => 70
  | .function => 80
  | .leaf => 100

def toNat (p : Priority) : Nat := p.band + p.rank

end Priority

/-- Negative numbers bind like sums, fractions like quotients. -/
def RealNumber.priority (r : RealNumber) : Priority :=
  if r.isNegative then .sum
  else match r with
    | .rational q => if q.den = 1 then .leaf else .product
    | _ => .leaf

def Number.priority : Number → Priority
  | .real r => r.priority
  | .complex re im =>
    if !re.isZero then .sum else if im = .rational 1 then .leaf else .product

def BinaryOp.priority : BinaryOp → Priority
  | .sum | .minus => .sum
  | .mul | .div => .product
  | .pow => .power
  | .log => .function
  | .and => .conjunction
  | .or | .xor => .disjunction
  | .implies => .implication
  | .equals => .equality
  | .order _ => .comparison
  | .mem => .containment

def Comparison.symbol : Comparison → String
  | .less => "<"
  | .lessOrEqual => "<="
  | .greater => ">"
  | .greaterOrEqual => ">="

def BinaryOp.symbol : BinaryOp → String
  | .sum => "+"
  | .minus => "-"
  | .mul => "*"
  | .div => "/"
  | .pow => "^"
  | .log => ","
  | .and => "and"
  | .or => "or"
  | .xor => "xor"
  | .implies => "->"
  | .equals => "="
  | .order test => test.symbol
  | .mem => "in"

namespace Expr

def priority : Expr → Priority
  | .num z => z.priority
  | .var _ | .bool _ => .leaf
  | .unary .factorial _ => .factorial
  | .unary .not _ => .negation
  | .binary op _ _ => op.priority
  | .lam _ _ => .lambda
  | .provided _ _ => .provided
  | .unary _ _ | .app _ _ | .piecewise _ | .interval _ _ => .function

/-- The text of an operand: in parentheses when it binds looser than the operator, and to the right
of the operator also when it binds equally. -/
def wrapText (outer : Priority) (right : Bool) (child : Expr) (text : String) : String :=
  let inner := child.priority.toNat
  if inner < outer.toNat || (right && inner == outer.toNat) then s!"({text})" else text

def pairTexts : List String → List String
  | e :: p :: rest => s!"{e} if {p}" :: pairTexts rest
  | _ => []

def renderNode (c : Config) (e : Expr) (parts : List String) : String :=
  match e, parts with
  | .num z, _ => z.render c
  | .var x, _ => x
  | .bool b, _ => if b then "true" else "false"
  | .unary .factorial a, [ta] => s!"{wrapText .factorial true a ta}!"
  | .unary .not a, [ta] => s!"not {wrapText .negation true a ta}"
  | .binary op a b, [ta, tb] =>
    let wrap := wrapText op.priority
    match op with
    | .sum => s!"{wrap false a ta} + {wrap false b tb}"
    | .mul =>
      if a.isMinusOne then s!"-{wrap true b tb}" else s!"{wrap false a ta} * {wrap false b tb}"
    | .pow => if b = half then s!"sqrt({ta})" else s!"{wrap true a ta} ^ {wrap false b tb}"
    | .log => s!"log({ta}, {tb})"
    | _ => s!"{wrap false a ta} {op.symbol} {wrap true b tb}"
  | .lam _ _, [tp, tb] => s!"lambda {tp}: {tb}"
  | .app f _, tf :: targs =>
    let arguments := ", ".intercalate targs
    if f.priority.toNat < Priority.function.toNat then s!"({tf})({arguments})"
    else s!"{tf}({arguments})"
  | .provided e p, [te, tp] =>
    s!"{wrapText .provided false e te} provided {wrapText .provided true p tp}"
  | .piecewise _, parts => "(" ++ ", ".intercalate (pairTexts parts) ++ ")"
  | .interval _ _, [tl, th] => s!"[{tl}, {th}]"
  | e, parts =>
    let arguments := ", ".intercalate parts
    s!"{e.kindName.map Char.toLower}({arguments})"

def render (c : Config) : Expr → String := fold (renderNode c)

def comparesFloats (e : Expr) : Bool :=
  e.nodes.any fun
    | .num z => z.comparesFloats
    | _ => false

def text (c : Config) (e : Expr) : Computation String := do
  if e.comparesFloats then Computation.settle c
  return e.render c

def nodeTexts (c : Config) (e : Expr) : Computation (List String) := do
  if e.comparesFloats then Computation.settle c
  return e.nodes.map (render c)

end Expr
end ComputerAlgebra

/-!
The causes for which an operation gives no expression, and the wording of each.
Undefined results of arithmetic are values of the number tower and never faults.
-/

namespace ComputerAlgebra

inductive Fault where
  | divisionByZero
  | overflow
  | integerOfNaN
  /-- A bound on the size of a denominator below one. -/
  | denominatorBound
  /-- A value that equals no fraction and no integer. -/
  | noFraction
  | noInteger (typeName : String)
  /-- Values of two sorts that have no order between them. -/
  | notOrdered (relation left right : String)
  /-- Values of two sorts that an operation does not combine. -/
  | notCombined (operation left right : String)
  /-- Something that is not of the same sort was to be put behind a value. -/
  | notJoined (typeName : String)
  /-- A value was to be repeated, but not a whole number of times. -/
  | notRepeated (typeName : String)
  /-- A count was asked for, and a value of another sort was given. -/
  | notCount (typeName : String)
  /-- A value of a sort that has no absolute value. -/
  | noAbsolute (typeName : String)
  /-- Text that is no integer. -/
  | unreadableInteger (quoted : String)
  /-- The reduction of applications did not come to an end within its allowance. -/
  | endlessReduction
  | unknownConstant (name : String)
  | numberRequired
  /-- A parameter has to be renamed, and the pattern has no name to keep the new one apart from. -/
  | variableRequired
  | functionRequired
  | unsupported
  | unordered (left right : String)
  | integerExpected (role typeName text : String)
  | zeroDenominator
  | notReal (text : String)
  | booleanNumber
  | unreadableNumber (quoted : String)
  | notNumeric (typeName : String)
  | notExpression (typeName : String)
  /-- A closed value of the expected sort was asked for, and evaluation left something else. -/
  | notConstant (expected actual : String)
  | treeTooDeep (depth : Nat) (limit : String)
  | nameNotText (typeName : String)
  | emptyName
  | noCases
  /-- A case that is no pair of an expression and a predicate. -/
  | notPair (typeName : String)
  | caseOfParts (count : Nat)
  | precisionTooLow (digits : String)
  | negativeTolerance
  | depthNotPositive
  | unknownSetting (name : String)
  | unknownDomain (name : String)
deriving DecidableEq

def Fault.message : Fault → Option String
  | .divisionByZero | .overflow | .endlessReduction | .unsupported => none
  | .numberRequired | .variableRequired | .functionRequired => none
  | .denominatorBound | .noFraction => none
  | .unknownConstant _ | .unknownSetting _ | .unknownDomain _ => none
  | .noInteger typeName =>
    some ("int() argument must be a string, a bytes-like object or a real number, " ++
      s!"not '{typeName}'")
  | .notOrdered relation left right =>
    some s!"'{relation}' not supported between instances of '{left}' and '{right}'"
  | .notCombined operation left right =>
    some s!"unsupported operand type(s) for {operation}: '{left}' and '{right}'"
  | .notJoined typeName => some s!"can only concatenate {typeName} (not \"int\") to {typeName}"
  | .notRepeated typeName => some s!"can't multiply sequence by non-int of type '{typeName}'"
  | .notCount typeName => some s!"'{typeName}' object cannot be interpreted as an integer"
  | .noAbsolute typeName => some s!"bad operand type for abs(): '{typeName}'"
  | .unreadableInteger quoted => some s!"invalid literal for int() with base 10: {quoted}"
  | .integerOfNaN => some "cannot convert float NaN to integer"
  | .unordered left right => some s!"Cannot order non-real numbers {left} and {right}"
  | .integerExpected role typeName text =>
    some s!"Integer {role} expected, got {typeName} {text}"
  | .zeroDenominator => some "Rational denominator must not be zero"
  | .notReal text => some s!"{text} is not a real number"
  | .booleanNumber => some "bool is not a number"
  | .unreadableNumber quoted => some s!"Cannot parse {quoted} as a real number"
  | .notNumeric typeName => some s!"Cannot build a real number from {typeName}"
  | .notExpression typeName =>
    some (s!"Cannot convert {typeName} to an expression. " ++
      "Supported: Entity, bool, int, float, complex, Fraction")
  | .notConstant expected actual =>
    some s!"Expected the expression to evaluate to a {expected}, got {actual}"
  | .treeTooDeep depth limit =>
    some (s!"Expression depth {depth} exceeds the configured limit of {limit}. " ++
      "Increase Config.max_tree_depth to process it.")
  | .nameNotText typeName => some s!"Variable name must be a string, got {typeName}"
  | .emptyName => some "Variable name cannot be empty"
  | .noCases => some "a piecewise expression needs at least one case"
  | .caseOfParts count =>
    if count < 2 then some s!"not enough values to unpack (expected 2, got {count})"
    else some "too many values to unpack (expected 2)"
  | .notPair typeName => some s!"cannot unpack non-iterable {typeName} object"
  | .precisionTooLow digits => some s!"precision must be at least 15 digits, got {digits}"
  | .negativeTolerance => some "tolerances must be non-negative"
  | .depthNotPositive => some "max_tree_depth must be positive"

end ComputerAlgebra

import ComputerAlgebra.Number.Arithmetic

/-!
Order of real numbers by their exact values, and closeness of any two numbers.
-/

namespace ComputerAlgebra

inductive Comparison where
  | less | lessOrEqual | greater | greaterOrEqual
deriving DecidableEq

def Comparison.accepts : Comparison → Ordering → Bool
  | .less, o => o = .lt
  | .lessOrEqual, o => o != .gt
  | .greater, o => o = .gt
  | .greaterOrEqual, o => o != .lt

def Comparison.swap : Comparison → Comparison
  | .less => .greater
  | .lessOrEqual => .greaterOrEqual
  | .greater => .less
  | .greaterOrEqual => .lessOrEqual

namespace RealNumber

/-- The order of two real numbers: fractions by their value, others as floats. -/
def order (c : Config) (a b : RealNumber) : Ordering :=
  match a, b with
  | .rational p, .rational q => if p < q then .lt else if q < p then .gt else .eq
  | _, _ => (a.toFloat c.bits).order (b.toFloat c.bits)

/-- Whether a comparison holds. An undefined operand makes every comparison hold. -/
def holds (c : Config) (test : Comparison) (a b : RealNumber) : Computation Bool := do
  if a.isNaN || b.isNaN then return true
  if a.rational?.isNone || b.rational?.isNone then Computation.settle c
  return test.accepts (order c a b)

end RealNumber

namespace Number

/-- Whether a comparison holds between two real numbers; complex numbers have no order. -/
def compare (c : Config) (test : Comparison) (a b : Number) : Computation Bool :=
  match a, b with
  | .real x, .real y => x.holds c test y
  | _, _ => do
    let left ← a.text c
    throw (.unordered left (← b.text c))

end Number
end ComputerAlgebra

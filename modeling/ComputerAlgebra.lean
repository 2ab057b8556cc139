import ComputerAlgebra.BigFloat.Basic
import ComputerAlgebra.BigFloat.Circular
import ComputerAlgebra.BigFloat.Exponential
import ComputerAlgebra.BigFloat.Fixed
import ComputerAlgebra.BigFloat.Lemmas
import ComputerAlgebra.BigFloat.Order
import ComputerAlgebra.BigFloat.Power
import ComputerAlgebra.BigFloat.Reader
import ComputerAlgebra.BigFloat.Rounding
import ComputerAlgebra.BigFloat.Sum
import ComputerAlgebra.BigFloat.Text
import ComputerAlgebra.Binary64.Basic
import ComputerAlgebra.Binary64.Reader
import ComputerAlgebra.Binary64.Text
import ComputerAlgebra.ComplexFloat.Basic
import ComputerAlgebra.ComplexFloat.Circular
import ComputerAlgebra.ComplexFloat.Gamma
import ComputerAlgebra.Computation
import ComputerAlgebra.Config
import ComputerAlgebra.Domain
import ComputerAlgebra.Evaluation.Application
import ComputerAlgebra.Evaluation.Basic
import ComputerAlgebra.Evaluation.Condition
import ComputerAlgebra.Evaluation.Function
import ComputerAlgebra.Evaluation.Rules
import ComputerAlgebra.Expr.Basic
import ComputerAlgebra.Expr.Comparison
import ComputerAlgebra.Expr.Key
import ComputerAlgebra.Expr.Kind
import ComputerAlgebra.Expr.Measure
import ComputerAlgebra.Expr.Operand
import ComputerAlgebra.Expr.Order
import ComputerAlgebra.Expr.Substitution
import ComputerAlgebra.Expr.Text
import ComputerAlgebra.Expr.Variables
import ComputerAlgebra.Fault
import ComputerAlgebra.Fraction.Closest
import ComputerAlgebra.Fraction.Recovery
import ComputerAlgebra.Integer.Log
import ComputerAlgebra.Integer.Root
import ComputerAlgebra.Integer.Rounding
import ComputerAlgebra.Integer.RoundingLemmas
import ComputerAlgebra.Literal
import ComputerAlgebra.Number.Arithmetic
import ComputerAlgebra.Number.Basic
import ComputerAlgebra.Number.Conversion
import ComputerAlgebra.Number.Functions
import ComputerAlgebra.Number.Literal
import ComputerAlgebra.Number.Order
import ComputerAlgebra.Polynomial.Basic
import ComputerAlgebra.Polynomial.Conversion
import ComputerAlgebra.Proofs.BigFloat.Digits
import ComputerAlgebra.Proofs.BigFloat.Error
import ComputerAlgebra.Proofs.BigFloat.Nearest
import ComputerAlgebra.Proofs.BigFloat.Rounding
import ComputerAlgebra.Proofs.Binary64.Shortest
import ComputerAlgebra.Proofs.Binary64.Text
import ComputerAlgebra.Proofs.Codomain.Evaluation
import ComputerAlgebra.Proofs.Codomain.Shielded
import ComputerAlgebra.Proofs.Complex.Evaluation
import ComputerAlgebra.Proofs.Complex.Meaning
import ComputerAlgebra.Proofs.Complex.Passes
import ComputerAlgebra.Proofs.Complex.Rewrite
import ComputerAlgebra.Proofs.Complex.Soundness
import ComputerAlgebra.Proofs.ComplexFloat.Digits
import ComputerAlgebra.Proofs.Computation
import ComputerAlgebra.Proofs.Evaluation.Allowance
import ComputerAlgebra.Proofs.Evaluation.Basic
import ComputerAlgebra.Proofs.Exact.Arithmetic
import ComputerAlgebra.Proofs.Exact.Evaluation
import ComputerAlgebra.Proofs.Exact.Functions
import ComputerAlgebra.Proofs.Exact.Gaussian
import ComputerAlgebra.Proofs.Exact.Simplification
import ComputerAlgebra.Proofs.Exact.Total
import ComputerAlgebra.Proofs.Expr.Assignment
import ComputerAlgebra.Proofs.Expr.Children
import ComputerAlgebra.Proofs.Expr.Filling
import ComputerAlgebra.Proofs.Expr.Key
import ComputerAlgebra.Proofs.Expr.Measure
import ComputerAlgebra.Proofs.Expr.Order
import ComputerAlgebra.Proofs.Expr.Total
import ComputerAlgebra.Proofs.Expr.Walk
import ComputerAlgebra.Proofs.Fraction.Accuracy
import ComputerAlgebra.Proofs.Fraction.Closest
import ComputerAlgebra.Proofs.Fraction.Expansion
import ComputerAlgebra.Proofs.Fraction.Nearby
import ComputerAlgebra.Proofs.Fraction.Recovery
import ComputerAlgebra.Proofs.Fraction.Size
import ComputerAlgebra.Proofs.InStep
import ComputerAlgebra.Proofs.Integer.Log
import ComputerAlgebra.Proofs.Integer.Root
import ComputerAlgebra.Proofs.Lifting.Undefined
import ComputerAlgebra.Proofs.Limit.CutOff
import ComputerAlgebra.Proofs.Limit.Evaluation
import ComputerAlgebra.Proofs.Limit.FunctionFree
import ComputerAlgebra.Proofs.Limit.Growth
import ComputerAlgebra.Proofs.Limit.Guarded
import ComputerAlgebra.Proofs.Limit.Refusal
import ComputerAlgebra.Proofs.Limit.Simplification
import ComputerAlgebra.Proofs.Matching.Basic
import ComputerAlgebra.Proofs.Matching.Evaluation
import ComputerAlgebra.Proofs.Matching.Simplification
import ComputerAlgebra.Proofs.Nameless.Alike
import ComputerAlgebra.Proofs.Nameless.Basic
import ComputerAlgebra.Proofs.Nameless.Evaluation
import ComputerAlgebra.Proofs.Nameless.Renaming
import ComputerAlgebra.Proofs.Nameless.Replacement
import ComputerAlgebra.Proofs.Nameless.Scope
import ComputerAlgebra.Proofs.Nameless.Simplification
import ComputerAlgebra.Proofs.Nameless.Substitution
import ComputerAlgebra.Proofs.Number.Canonical
import ComputerAlgebra.Proofs.Number.Complete
import ComputerAlgebra.Proofs.Number.Decimal
import ComputerAlgebra.Proofs.Number.Functions
import ComputerAlgebra.Proofs.Number.History
import ComputerAlgebra.Proofs.Number.Key
import ComputerAlgebra.Proofs.Number.Opposite
import ComputerAlgebra.Proofs.Number.Order
import ComputerAlgebra.Proofs.Number.PerfectPower
import ComputerAlgebra.Proofs.Number.Quotient
import ComputerAlgebra.Proofs.Number.Recognition
import ComputerAlgebra.Proofs.Number.RecoveredSize
import ComputerAlgebra.Proofs.Number.Settled
import ComputerAlgebra.Proofs.Number.SimpleFraction
import ComputerAlgebra.Proofs.Number.Total
import ComputerAlgebra.Proofs.Number.Totient
import ComputerAlgebra.Proofs.Piecewise.Pruning
import ComputerAlgebra.Proofs.Polynomial.Atoms
import ComputerAlgebra.Proofs.Polynomial.Capacity
import ComputerAlgebra.Proofs.Polynomial.Conversion
import ComputerAlgebra.Proofs.Polynomial.Evaluation
import ComputerAlgebra.Proofs.Polynomial.Folding
import ComputerAlgebra.Proofs.Polynomial.Formal
import ComputerAlgebra.Proofs.Polynomial.NormalForm
import ComputerAlgebra.Proofs.Polynomial.Passes
import ComputerAlgebra.Proofs.Polynomial.Reading
import ComputerAlgebra.Proofs.Polynomial.Reduced
import ComputerAlgebra.Proofs.Polynomial.RoundTrip
import ComputerAlgebra.Proofs.Polynomial.Vanishing
import ComputerAlgebra.Proofs.Polynomial.Writing
import ComputerAlgebra.Proofs.Propositional.Preservation
import ComputerAlgebra.Proofs.Propositional.Reduction
import ComputerAlgebra.Proofs.Propositional.Truth
import ComputerAlgebra.Proofs.Rational.Arithmetic
import ComputerAlgebra.Proofs.Rational.Closed
import ComputerAlgebra.Proofs.Rational.Codomain
import ComputerAlgebra.Proofs.Rational.Collection
import ComputerAlgebra.Proofs.Rational.Confined
import ComputerAlgebra.Proofs.Rational.Evaluation
import ComputerAlgebra.Proofs.Rational.Guarded
import ComputerAlgebra.Proofs.Rational.Preservation
import ComputerAlgebra.Proofs.Rational.Reduction
import ComputerAlgebra.Proofs.Rational.Replacement
import ComputerAlgebra.Proofs.Rational.Simplification
import ComputerAlgebra.Proofs.Rational.Singular
import ComputerAlgebra.Proofs.Rational.Undefined
import ComputerAlgebra.Proofs.Rational.Value
import ComputerAlgebra.Proofs.Scope.Compositional
import ComputerAlgebra.Proofs.Scope.FloatFree
import ComputerAlgebra.Proofs.Scope.FreeVariables
import ComputerAlgebra.Proofs.Scope.Passes
import ComputerAlgebra.Proofs.Scope.Reduction
import ComputerAlgebra.Proofs.Scope.Substitution
import ComputerAlgebra.Proofs.Semantics.Ring
import ComputerAlgebra.Proofs.Semantics.Sorting
import ComputerAlgebra.Proofs.Simplification.Angle
import ComputerAlgebra.Proofs.Simplification.Chain
import ComputerAlgebra.Proofs.Simplification.Exhaustive
import ComputerAlgebra.Proofs.Simplification.History
import ComputerAlgebra.Proofs.Simplification.Pass
import ComputerAlgebra.Proofs.Simplification.Reduction
import ComputerAlgebra.Proofs.Simplification.Rounds
import ComputerAlgebra.Proofs.Simplification.Sorting
import ComputerAlgebra.Proofs.Stable.Evaluation
import ComputerAlgebra.Proofs.Stable.Node
import ComputerAlgebra.Proofs.Stable.Result
import ComputerAlgebra.Proofs.Statement.Decision
import ComputerAlgebra.Proofs.Termination.Descent
import ComputerAlgebra.Proofs.Termination.FirstOrder
import ComputerAlgebra.Proofs.Termination.Reduction
import ComputerAlgebra.Proofs.Termination.Rules
import ComputerAlgebra.Proofs.Termination.Substitution
import ComputerAlgebra.Proofs.Termination.Weight
import ComputerAlgebra.Proofs.Text.Reading
import ComputerAlgebra.Proofs.Text.Scanning
import ComputerAlgebra.Proofs.Text.Unambiguous
import ComputerAlgebra.Proofs.Unit
import ComputerAlgebra.Proofs.Variant
import ComputerAlgebra.Session
import ComputerAlgebra.Simplification.Angle
import ComputerAlgebra.Simplification.Basic
import ComputerAlgebra.Simplification.Pass
import ComputerAlgebra.Simplification.Rounds
import ComputerAlgebra.Simplification.Rules
import ComputerAlgebra.Text.Character
import ComputerAlgebra.Text.Decimal
import ComputerAlgebra.Text.Printable
import ComputerAlgebra.Text.Quoted

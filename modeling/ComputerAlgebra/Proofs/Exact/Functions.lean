import ComputerAlgebra.Evaluation.Rules
import ComputerAlgebra.Proofs.Exact.Arithmetic
import ComputerAlgebra.Proofs.Scope.Compositional

/-!
Functions of exact numbers. Like arithmetic they give an exact number without a look at the float unit,
or set the unit before they work with floats.
-/

namespace ComputerAlgebra

def Judgment.uniform : Judgment where
  Holds m E := Uniform E m
  pure := Uniform.pure
  bind := Uniform.bind

namespace Number

variable (c : Config) {z w : Number}

theorem sqrt_uniform (z : Number) : Uniform Exact (sqrt c z) := pow_uniform c z half

theorem ln_uniform (z : Number) : Uniform Exact (ln c z) := by
  unfold ln
  split
  · exact Uniform.pure rfl
  split
  · exact Uniform.pure rfl
  split
  · exact Uniform.pure rfl
  · exact ofComputation_uniform c _

theorem log_uniform (base z : Number) : Uniform Exact (log c base z) := by
  unfold log
  split
  · exact Uniform.pure rfl
  split
  · exact Uniform.pure rfl
  · refine Uniform.bind (ln_uniform c z) fun numerator above => ?_
    exact Uniform.bind (ln_uniform c base) fun denominator below => div_uniform c above below

theorem sin_uniform (z : Number) : Uniform Exact (sin c z) := by
  unfold sin
  split
  · exact Uniform.pure rfl
  split
  · exact Uniform.pure rfl
  · exact ofComputation_uniform c _

theorem cos_uniform (z : Number) : Uniform Exact (cos c z) := by
  unfold cos
  split
  · exact Uniform.pure rfl
  split
  · exact Uniform.pure rfl
  · exact ofComputation_uniform c _

theorem arcsin_uniform (z : Number) : Uniform Exact (arcsin c z) := by
  unfold arcsin
  split
  · exact Uniform.pure rfl
  · exact ofComputation_uniform c _

theorem arccos_uniform (z : Number) : Uniform Exact (arccos c z) := by
  unfold arccos
  split
  · exact Uniform.pure rfl
  · exact ofComputation_uniform c _

theorem arctan_uniform (z : Number) : Uniform Exact (arctan c z) := by
  unfold arctan
  split
  · exact Uniform.pure rfl
  · exact ofComputation_uniform c _

theorem circular_uniform (f : Circular) (exact : z.Exact) : Uniform Exact (f.compute c z) := by
  have quotient {m n : Computation Number} (above : Uniform Exact m) (below : Uniform Exact n) :
      Uniform Exact (do div c (← m) (← n)) :=
    Uniform.bind above fun _ first => Uniform.bind below fun _ second => div_uniform c first second
  have inverse {m : Computation Number} (below : Uniform Exact m) : Uniform Exact (do div c 1 (← m)) :=
    Uniform.bind below fun _ second => div_uniform c rfl second
  have inverted {g : Number → Computation Number} (each : ∀ w, Uniform Exact (g w)) :
      Uniform Exact (do g (← div c 1 z)) :=
    Uniform.bind (div_uniform c rfl exact) fun w _ => each w
  cases f with
  | sin => exact sin_uniform c z
  | cos => exact cos_uniform c z
  | tan => exact quotient (sin_uniform c z) (cos_uniform c z)
  | cotan => exact quotient (cos_uniform c z) (sin_uniform c z)
  | sec => exact inverse (cos_uniform c z)
  | cosec => exact inverse (sin_uniform c z)
  | arcsin => exact arcsin_uniform c z
  | arccos => exact arccos_uniform c z
  | arctan => exact arctan_uniform c z
  | arccotan => exact inverted (arctan_uniform c)
  | arcsec => exact inverted (arccos_uniform c)
  | arccosec => exact inverted (arcsin_uniform c)

theorem abs_uniform (exact : z.Exact) : Uniform Exact (abs c z) := by
  unfold abs
  split
  · next x =>
    split
    · exact Uniform.bind (RealNumber.neg_uniform exact) fun _ exact => Uniform.pure exact
    · exact Uniform.pure exact
  · next re im =>
    split
    · exact Uniform.pure rfl
    refine Uniform.bind (RealNumber.mul_uniform c re re) fun square _ => ?_
    refine Uniform.bind (RealNumber.mul_uniform c im im) fun square' _ => ?_
    exact Uniform.bind (RealNumber.add_uniform c square square') fun norm _ => sqrt_uniform c _

theorem signum_uniform (exact : z.Exact) : Uniform Exact (signum c z) := by
  unfold signum
  split
  · refine Uniform.pure ?_
    split
    · rfl
    split <;> rfl
  · exact Uniform.bind (abs_uniform c exact) fun _ size => div_uniform c exact size

theorem factorial_uniform (z : Number) : Uniform Exact (factorial c z) := by
  unfold factorial
  split
  · exact Uniform.pure rfl
  dsimp only
  split
  · split
    · exact Uniform.pure rfl
    split
    · exact Uniform.pure rfl
    · exact ofComputation_uniform c _
  · exact ofComputation_uniform c _

theorem closeWithin_uniform (tolerance : Except Fault Rat) (left : z.Exact) (right : w.Exact) :
    Uniform (fun _ => True) (closeWithin c tolerance z w) := by
  have bound : Uniform (fun _ => True) (liftM tolerance : Computation Rat) := by
    cases tolerance with
    | ok q => exact Uniform.pure trivial
    | error f => exact Uniform.throw
  unfold closeWithin
  split
  · exact Uniform.pure trivial
  split
  · exact Uniform.pure trivial
  refine Uniform.bind (sub_uniform c left right) fun distance exact => ?_
  refine Uniform.bind (abs_uniform c exact) fun size _ => ?_
  exact Uniform.bind bound fun q _ => RealNumber.holds_uniform c _ _

end Number

/-- Exact numbers are handled alike whatever digits the float unit has. -/
theorem Expr.Numeric.uniform (c : Config) : Numeric .uniform c Number.Exact where
  exact known := known
  neg := Number.neg_uniform c
  opposite := RealNumber.neg_uniform
  add := Number.add_uniform c
  sub := Number.sub_uniform c
  mul _ _ := Number.mul_uniform c _ _
  div := Number.div_uniform c
  pow _ _ := Number.pow_uniform c _ _
  log _ _ := Number.log_uniform c _ _
  factorial _ := Number.factorial_uniform c _
  signum := Number.signum_uniform c
  abs := Number.abs_uniform c
  circular f _ exact := Number.circular_uniform c f exact
  constant _ := Uniform.settle c _
  holds _ _ _ _ _ := RealNumber.holds_uniform c _ _
  close := Number.closeWithin_uniform c _

end ComputerAlgebra

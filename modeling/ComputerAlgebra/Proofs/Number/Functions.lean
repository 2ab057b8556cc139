import ComputerAlgebra.Evaluation.Function
import ComputerAlgebra.Proofs.Number.Canonical

/-!
The functions of numbers return numbers in the form in which numbers are kept. What is computed in
floats has been recognised; the rest are exact values, results of arithmetic, and the argument itself.
-/

namespace ComputerAlgebra

open ComplexFloat (FitsIfAny)

-- The digits of the settings are compared as they are written, never computed.
attribute [local irreducible] Config.bits

namespace Number

variable {c : Config} {u w : FloatUnit} {z : Number}

theorem one_atHand : AtHand c u 1 := trivial

theorem sub_works (a : Number) {b : Number} (held : b.AtHand c u) :
    Works c u (sub c a b) (AtHand c) :=
  Works.bind (neg_works held) fun _ b' _ _ => add_works a b'

section Powers

/-- Binary powering keeps the form of the result, whatever the powers of the base are. -/
theorem powLoop_works (n : Nat) {result : Number} (square : Number) (held : result.AtHand c u) :
    Works c u (powLoop c result square n) (AtHand c) := by
  induction n using Nat.strongRecOn generalizing result square u with
  | _ n ih =>
    unfold powLoop
    split
    · exact Works.pure held
    next above =>
    have rest (w : FloatUnit) (result' : Number) (held' : result'.AtHand c w) : Works c w (do
        if n / 2 = 0 then return result'
        powLoop c result' (← mul c square square) (n / 2)) (AtHand c) := by
      refine .ite (fun _ => Works.pure held') fun _ => ?_
      exact Works.bind (mul_works square square) fun _ square' later _ =>
        ih (n / 2) (by omega) square' (held'.later later)
    by_cases odd : n % 2 = 1
    · simp only [if_pos odd]
      exact Works.bind (mul_works result square) fun w result' _ held' => rest w result' held'
    · simp only [if_neg odd]
      exact Works.bind (Works.pure held) fun w result' _ held' => rest w result' held'

theorem powInt_works (base : Number) (n : Int) : Works c u (powInt c base n) (AtHand c) := by
  unfold powInt
  refine .ite (fun _ => Works.pure (by split <;> trivial)) fun _ => ?_
  split
  · exact Works.pure trivial
  refine .ite (fun _ => ?_) fun _ => ofComputation_works (.ite (fun _ => ?_) fun _ => ?_)
  · refine Works.bind (powLoop_works n.natAbs base trivial) fun w power _ held => ?_
    exact .ite (fun _ => div_works one_atHand power) fun _ => Works.pure held
  · exact .map_ofReal fun _ => BigFloat.fits_powInt? c.bits
  · exact ComplexFloat.fits_powInt? c.bits _ n

theorem fits_floatPow (base exponent : Number) : FitsIfAny c.bits (floatPow c base exponent) := by
  unfold floatPow
  dsimp only
  refine .ite (fun _ => ComplexFloat.fits_pow? c.bits _ _) fun _ => ?_
  refine .ite (fun _ => ?_) fun _ => ComplexFloat.fits_pow? c.bits _ _
  exact .map_ofReal fun _ => BigFloat.fits_pow? c.bits

theorem pow_works (base exponent : Number) : Works c u (pow c base exponent) (AtHand c) := by
  unfold pow
  refine .ite (fun _ => Works.pure trivial) fun _ => ?_
  refine .ite (fun _ => Works.pure trivial) fun _ => ?_
  split
  · exact powInt_works base _
  split
  · exact powInt_works _ _
  refine .ite (fun _ => ofComputation_works (fits_floatPow base exponent)) fun _ => ?_
  refine .ite (fun _ => Works.pure (by split <;> trivial)) fun _ => ?_
  refine Works.bind (RealNumber.holds_works _ _ _) fun w above _ _ => Works.pure ?_
  cases above <;> trivial

theorem sqrt_works (z : Number) : Works c u (sqrt c z) (AtHand c) := pow_works z half

end Powers

section Functions

theorem ln_works (z : Number) : Works c u (ln c z) (AtHand c) := by
  unfold ln
  refine .ite (fun _ => Works.pure trivial) fun _ => ?_
  refine .ite (fun _ => Works.pure trivial) fun _ => ?_
  refine .ite (fun _ => Works.pure trivial) fun _ => ofComputation_works (.some ?_)
  split
  · exact ComplexFloat.fits_log c.bits _
  split
  · exact ComplexFloat.fits_ofReal (BigFloat.fits_log c.bits _)
  · exact ComplexFloat.fits_log c.bits _

theorem log_works (base z : Number) : Works c u (log c base z) (AtHand c) := by
  unfold log
  refine .ite (fun _ => Works.pure trivial) fun _ => ?_
  split
  · exact Works.pure trivial
  · exact Works.bind (ln_works z) fun w numerator _ held =>
      Works.bind (ln_works base) fun w' denominator later _ =>
        div_works (held.later later) denominator

theorem sin_works (z : Number) : Works c u (sin c z) (AtHand c) := by
  refine .ite (fun _ => Works.pure trivial) fun _ => .ite (fun _ => Works.pure trivial) fun _ => ?_
  exact ofComputation_works (.some (ComplexFloat.fits_sin c.bits _))

theorem cos_works (z : Number) : Works c u (cos c z) (AtHand c) := by
  refine .ite (fun _ => Works.pure trivial) fun _ => .ite (fun _ => Works.pure trivial) fun _ => ?_
  exact ofComputation_works (.some (ComplexFloat.fits_cos c.bits _))

/-- A quotient of two function values, the dividend first. -/
theorem quotient_works {dividend divisor : Computation Number}
    (first : Works c u dividend (AtHand c)) (second : ∀ w, Works c w divisor (AtHand c)) :
    Works c u (do let x ← dividend; div c x (← divisor)) (AtHand c) :=
  Works.bind first fun w _ _ held => Works.bind (second w) fun _ y later _ =>
    div_works (held.later later) y

/-- One over a function value, and a function of one over a number. -/
theorem reciprocal_works {divisor : Computation Number} (found : Works c u divisor (AtHand c)) :
    Works c u (do div c 1 (← divisor)) (AtHand c) :=
  Works.bind found fun _ y _ _ => div_works one_atHand y

theorem arcsin_works (z : Number) : Works c u (arcsin c z) (AtHand c) :=
  .ite (fun _ => Works.pure trivial) fun _ =>
    ofComputation_works (ComplexFloat.fits_arc? c.bits false _)

theorem arccos_works (z : Number) : Works c u (arccos c z) (AtHand c) :=
  .ite (fun _ => Works.pure trivial) fun _ =>
    ofComputation_works (ComplexFloat.fits_arc? c.bits true _)

theorem arctan_works (z : Number) : Works c u (arctan c z) (AtHand c) :=
  .ite (fun _ => Works.pure trivial) fun _ =>
    ofComputation_works (.some (ComplexFloat.fits_arctan c.bits _))

theorem circular_works (f : Circular) (z : Number) : Works c u (f.compute c z) (AtHand c) := by
  have inverted {g : Number → Computation Number} (each : ∀ w y, Works c w (g y) (AtHand c)) :
      Works c u (do g (← div c 1 z)) (AtHand c) :=
    Works.bind (div_works one_atHand z) fun w y _ _ => each w y
  cases f with
  | sin => exact sin_works z
  | cos => exact cos_works z
  | tan => exact quotient_works (sin_works z) fun _ => cos_works z
  | cotan => exact quotient_works (cos_works z) fun _ => sin_works z
  | sec => exact reciprocal_works (cos_works z)
  | cosec => exact reciprocal_works (sin_works z)
  | arcsin => exact arcsin_works z
  | arccos => exact arccos_works z
  | arctan => exact arctan_works z
  | arccotan => exact inverted fun _ => arctan_works
  | arcsec => exact inverted fun _ => arccos_works
  | arccosec => exact inverted fun _ => arcsin_works

/-- A real number that is not negative is its own absolute value, so it has to be at hand. -/
theorem abs_works (held : z.AtHand c u) : Works c u (abs c z) (AtHand c) := by
  unfold abs
  cases z with
  | real x =>
    exact .ite (fun _ => real_works (RealNumber.neg_works held)) fun _ => Works.pure held
  | complex re im =>
    refine .ite (fun _ => Works.pure trivial) fun _ => ?_
    refine Works.bind (RealNumber.mul_works re re) fun _ square _ _ => ?_
    refine Works.bind (RealNumber.mul_works im im) fun _ square' _ _ => ?_
    exact Works.bind (RealNumber.add_works square square') fun _ norm _ _ => sqrt_works _

theorem signum_works (held : z.AtHand c u) : Works c u (signum c z) (AtHand c) := by
  cases z with
  | real x =>
    refine Works.pure ?_
    split
    · trivial
    split
    · trivial
    · trivial
  | complex re im =>
    exact Works.bind (abs_works held) fun _ size later _ => div_works (held.later later) size

theorem factorial_works (z : Number) : Works c u (factorial c z) (AtHand c) := by
  have viaGamma (x : ComplexFloat) :
      Works c u (ofComputation c (ComplexFloat.gamma? c.bits x)) (AtHand c) :=
    ofComputation_works (ComplexFloat.fits_gamma? c.bits x)
  refine .ite (fun _ => Works.pure trivial) fun _ => ?_
  dsimp only
  split
  · refine .ite (fun _ => Works.pure trivial) fun _ => ?_
    exact .ite (fun _ => Works.pure trivial) fun _ => viaGamma _
  · exact viaGamma _

theorem phi?_atHand (z : Number) : ∀ t ∈ z.phi?, t.AtHand c u := by
  intro t found
  unfold phi? at found
  split at found
  · cases found
    trivial
  split at found
  · cases found
    trivial
  · obtain ⟨n, -, rfl⟩ := Option.map_eq_some_iff.mp found
    trivial

theorem constant_works (name : String) : Works c u (constant c name) (AtHand c) := by
  refine Works.bind Works.settle fun w _ _ _ => ?_
  split
  · exact real_works (RealNumber.ofFloat_works (BigFloat.short_pi c.bits))
  · exact real_works (RealNumber.ofFloat_works (BigFloat.short_exp c.bits 1))
  · exact Works.throw

end Functions
end Number

namespace NumericFunction

open Number (AtHand)

variable {c : Config} {u : FloatUnit}

def AnyAtHand (c : Config) (u : FloatUnit) (z : Option Number) : Prop := ∀ t ∈ z, t.AtHand c u

theorem some_atHand {z : Number} (held : z.AtHand c u) : AnyAtHand c u (some z) := by
  rintro _ ⟨⟩
  exact held

theorem some_works {m : Computation Number} (found : Works c u m (AtHand c)) :
    Works c u (do return some (← m)) (AnyAtHand c) :=
  Works.bind found fun _ _ _ held => Works.pure (some_atHand held)

theorem unary_works (op : UnaryOp) {z : Number} (held : z.AtHand c u) :
    Works c u (op.compute? c z) (AnyAtHand c) := by
  cases op with
  | factorial => exact some_works (Number.factorial_works z)
  | phi => exact Works.pure (Number.phi?_atHand z)
  | signum => exact some_works (Number.signum_works held)
  | abs => exact some_works (Number.abs_works held)
  | circular f => exact some_works (Number.circular_works f z)
  | not => exact Works.pure nofun

theorem binary_works (op : BinaryOp) {a b : Number} (left : a.AtHand c u) (right : b.AtHand c u) :
    Works c u (op.compute? c a b) (AnyAtHand c) := by
  cases op with
  | sum => exact some_works (Number.add_works a b)
  | minus => exact some_works (Number.sub_works a right)
  | mul => exact some_works (Number.mul_works a b)
  | div => exact some_works (Number.div_works left b)
  | pow => exact some_works (Number.pow_works a b)
  | log => exact some_works (Number.log_works a b)
  | _ => exact Works.pure nofun

/-- A function of numbers at hand. -/
theorem compute?_works (f : NumericFunction) {zs : List Number} (held : ∀ z ∈ zs, z.AtHand c u) :
    Works c u (f.compute? c zs) (AnyAtHand c) := by
  unfold compute?
  split
  · exact unary_works _ (held _ (by simp))
  · exact binary_works _ (held _ (by simp)) (held _ (by simp))
  · exact some_works (Number.neg_works (held _ (by simp)))
  · exact some_works (Number.sqrt_works _)
  · exact some_works (Number.ln_works _)
  · exact Works.throw

end NumericFunction
end ComputerAlgebra

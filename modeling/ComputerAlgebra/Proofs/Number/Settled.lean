import ComputerAlgebra.Proofs.Number.Functions
import ComputerAlgebra.Proofs.Scope.Compositional

/-!
A float unit with the digits of the settings keeps them, whatever is done to numbers. The operands need
not be in the form in which numbers are kept.
-/

namespace ComputerAlgebra

def Judgment.settled (c : Config) : Judgment where
  Holds m P := Works c (.ofConfig c) m fun _ a => P a
  pure holds := Works.pure holds
  bind first next := Works.bind first fun w a later holds => by
    obtain rfl := later.settled rfl
    exact next a holds

theorem Judgment.settled_lenient (c : Config) : (settled c).Lenient := ⟨.refl _⟩

theorem Works.mono {α : Type} {c : Config} {u : FloatUnit} {m : Computation α}
    {P Q : FloatUnit → α → Prop} (given : Works c u m P) (weaker : ∀ w a, P w a → Q w a) :
    Works c u m Q := by
  unfold Works at given ⊢
  split at given
  · exact ⟨given.1, weaker _ _ given.2⟩
  · exact given

theorem Works.anyhow {α : Type} {c : Config} {u : FloatUnit} {m : Computation α}
    {P : FloatUnit → α → Prop} (given : Works c u m P) : Works c u m fun _ _ => True :=
  given.mono fun _ _ _ => trivial

namespace RealNumber
variable {c : Config} {u : FloatUnit}

theorem neg_later (x : RealNumber) : Works c u x.neg fun _ _ => True :=
  Works.bind Works.unitBits fun _ _ _ _ => Works.pure trivial

theorem holds_later (test : Comparison) (x y : RealNumber) :
    Works c u (x.holds c test y) fun _ _ => True := by
  unfold holds
  refine .ite (fun _ => Works.pure trivial) fun _ => ?_
  exact Works.settleIf _ _

end RealNumber

namespace Number
variable {c : Config} {u : FloatUnit}

theorem ofParts_later (re im : RealNumber) : Works c u (ofParts c re im) fun _ _ => True := by
  unfold ofParts
  refine .ite (fun _ => Works.pure trivial) fun _ => .ite (fun _ => Works.pure trivial) fun _ => ?_
  exact Works.bind (isNegligible_works im) fun _ _ _ _ =>
    .ite (fun _ => Works.pure trivial) fun _ => Works.pure trivial

theorem neg_later (z : Number) : Works c u (neg c z) fun _ _ => True := by
  cases z with
  | real x => exact Works.bind (RealNumber.neg_later x) fun _ _ _ _ => Works.pure trivial
  | complex re im =>
    refine Works.bind (RealNumber.neg_later re) fun _ _ _ _ => ?_
    exact Works.bind (RealNumber.neg_later im) fun _ _ _ _ => ofParts_later _ _

theorem sub_later (a b : Number) : Works c u (sub c a b) fun _ _ => True :=
  Works.bind (neg_later b) fun _ b' _ _ => (add_works a b').anyhow

/-- Only a quotient by zero depends on the form of the dividend. -/
theorem div_later (a b : Number) : Works c u (div c a b) fun _ _ => True := by
  have zero : Works c u (divZero c a) fun _ _ => True := by
    cases a with
    | real x => exact Works.pure trivial
    | complex re im => exact ofParts_later _ _
  cases divisor : b.isZero with
  | true =>
    unfold div
    rw [if_pos divisor]
    exact .ite (fun _ => Works.pure trivial) fun _ => zero
  | false => exact (div_nonzero_works a divisor).anyhow

theorem abs_later (z : Number) : Works c u (abs c z) fun _ _ => True := by
  unfold abs
  cases z with
  | real x =>
    refine .ite (fun _ => ?_) fun _ => Works.pure trivial
    exact Works.bind (RealNumber.neg_later x) fun _ _ _ _ => Works.pure trivial
  | complex re im =>
    refine .ite (fun _ => Works.pure trivial) fun _ => ?_
    refine Works.bind (RealNumber.mul_works re re) fun _ square _ _ => ?_
    refine Works.bind (RealNumber.mul_works im im) fun _ square' _ _ => ?_
    exact Works.bind (RealNumber.add_works square square') fun _ norm _ _ => (sqrt_works _).anyhow

theorem signum_later (z : Number) : Works c u (signum c z) fun _ _ => True := by
  cases z with
  | real x => exact Works.pure trivial
  | complex re im => exact Works.bind (abs_later _) fun _ size _ _ => div_later _ size

theorem closeWithin_later (tolerance : Except Fault Rat) (a b : Number) :
    Works c u (closeWithin c tolerance a b) fun _ _ => True := by
  unfold closeWithin
  refine .ite (fun _ => Works.pure trivial) fun _ => .ite (fun _ => Works.pure trivial) fun _ => ?_
  refine Works.bind (sub_later a b) fun _ difference _ _ => ?_
  refine Works.bind (abs_later difference) fun _ distance _ _ => ?_
  exact Works.bind (P := fun _ _ => True) (Works.lift fun _ _ => trivial) fun _ _ _ _ =>
    RealNumber.holds_later _ _ _

end Number

/-- The functions of numbers keep a unit with the digits of the settings. -/
theorem Expr.Numeric.settled (c : Config) : Numeric (.settled c) c fun _ => True where
  exact _ := trivial
  neg _ := Number.neg_later _
  opposite {r} _ := RealNumber.neg_later r
  add _ _ := (Number.add_works _ _).anyhow
  sub _ _ := Number.sub_later _ _
  mul _ _ := (Number.mul_works _ _).anyhow
  div _ _ := Number.div_later _ _
  pow _ _ := (Number.pow_works _ _).anyhow
  log _ _ := (Number.log_works _ _).anyhow
  factorial _ := (Number.factorial_works _).anyhow
  signum _ := Number.signum_later _
  abs _ := Number.abs_later _
  circular f _ _ := (Number.circular_works f _).anyhow
  constant {x} _ := (Number.constant_works x).anyhow
  holds test _ _ _ _ := RealNumber.holds_later test _ _
  close _ _ := Number.closeWithin_later _ _ _

end ComputerAlgebra

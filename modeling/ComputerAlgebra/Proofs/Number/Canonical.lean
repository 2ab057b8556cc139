import ComputerAlgebra.Number.Functions
import ComputerAlgebra.Number.Literal
import ComputerAlgebra.Proofs.BigFloat.Nearest
import ComputerAlgebra.Proofs.ComplexFloat.Digits
import ComputerAlgebra.Proofs.Fraction.Recovery
import ComputerAlgebra.Proofs.Number.Total
import ComputerAlgebra.Proofs.Unit

/-!
The form in which numbers are kept. A float that arithmetic returns has been recognised: it is not zero,
and it is too large to show digits after the point or at least the zero tolerance away from every
integer. A complex number has an imaginary part, and no part of it is NaN. Taking the opposite does not
recognise anew, so it keeps this form only because the float unit has the digits of the settings by the
time there is any float.
-/

namespace ComputerAlgebra

open BigFloat (Short absDyadic magnitude nearestInt roundDyadic)
open FloatUnit (Later)

-- The digits of the settings are compared as they are written, never computed.
attribute [local irreducible] Config.bits

namespace RealNumber

/-- The form of a float: not zero, and of a size at which all floats look whole, or else at least the
zero tolerance of the working precision away from every integer. -/
def CanonicalFloat (c : Config) (x : Dyadic) : Prop :=
  x ≠ 0 ∧ ((c.bits : Int) - 32 ≤ magnitude x ∨
    ∃ t, tolerance c = .ok t ∧ ∀ m : Int, t ≤ absDyadic (x - (m : Dyadic)))

/-- The form of a real number: an integer, a fraction in lowest terms with a denominator above one, a
float that is recognised as nothing else, an infinity or NaN. Fractions are in lowest terms by their
type, integers among them. -/
def Canonical (c : Config) : RealNumber → Prop
  | .rational q => q.den = 1 ∨ 1 < q.den ∧ q.num.natAbs.Coprime q.den
  | .float x => CanonicalFloat c x
  | .infinity _ | .nan => True

/-- A number as it is at hand while the float unit is `u`. A float has the digits of the settings, and
so has the unit. -/
def AtHand (c : Config) (u : FloatUnit) : RealNumber → Prop
  | .float x => CanonicalFloat c x ∧ Short c.bits x ∧ u = .ofConfig c
  | _ => True

variable {c : Config} {u w : FloatUnit} {a b x : RealNumber}

theorem AtHand.canonical (held : AtHand c u x) : Canonical c x := by
  cases x with
  | rational q =>
    have positive := q.den_pos
    rcases Nat.lt_or_ge 1 q.den with above | whole
    · exact .inr ⟨above, q.reduced⟩
    · exact .inl (by omega)
  | float x => exact held.1
  | infinity | nan => trivial

theorem AtHand.later (held : AtHand c u x) (later : Later c u w) : AtHand c w x := by
  cases x with
  | float x => exact ⟨held.1, held.2.1, later.settled held.2.2⟩
  | rational | infinity | nan => trivial

section Recognition

theorem magnitude_neg (x : Dyadic) : magnitude (-x) = magnitude x := by
  cases x with
  | zero => rfl
  | ofOdd n k odd =>
    change (bitLength (-n).natAbs : Int) - k = bitLength n.natAbs - k
    rw [Int.natAbs_neg]

theorem CanonicalFloat.neg {x : Dyadic} (canonical : CanonicalFloat c x) : CanonicalFloat c (-x) := by
  obtain ⟨nonzero, apart⟩ := canonical
  refine ⟨fun zero => nonzero ?_, ?_⟩
  · rw [← Dyadic.toRat_eq_zero_iff, Dyadic.toRat_neg, neg_eq_zero] at zero
    exact Dyadic.toRat_eq_zero_iff.mp zero
  · rw [magnitude_neg]
    refine apart.imp id fun ⟨t, known, far⟩ => ⟨t, known, fun m => ?_⟩
    have mirrored := far (-m)
    rw [← Dyadic.toRat_le_toRat_iff, Fraction.toRat_absDyadic, Dyadic.toRat_sub,
      Dyadic.toRat_intCast] at mirrored ⊢
    rw [Dyadic.toRat_neg, ← abs_neg, neg_sub, sub_neg_eq_add, add_comm]
    rwa [Int.cast_neg, sub_neg_eq_add] at mirrored

/-- A float is recognised: what is left as a float is not zero, and is far from every integer unless it
is too large for that. -/
theorem ofDyadic_canonical {x : Dyadic} {r : RealNumber} (short : Short c.bits x)
    (recognised : ofDyadic c x = .ok r) : AtHand c (.ofConfig c) r := by
  unfold ofDyadic at recognised
  split at recognised
  · cases recognised
    trivial
  next nonzero =>
  split at recognised
  · next large =>
    cases recognised
    exact ⟨⟨nonzero, .inl large⟩, short, rfl⟩
  cases known : tolerance c with
  | error f => rw [known] at recognised; cases recognised
  | ok t =>
    have first : tolerance c = pure t := known
    rw [first, pure_bind] at recognised
    dsimp only at recognised
    split at recognised
    · cases recognised
      trivial
    next apart =>
    have distance : roundDyadic c.bits (x - (nearestInt x : Dyadic)) = x - (nearestInt x : Dyadic) :=
      BigFloat.round_short c.bits c.bits_pos (BigFloat.short_distance short)
    have far (m : Int) : t ≤ absDyadic (x - (m : Dyadic)) := by
      rw [distance, Dyadic.not_le, ← Dyadic.toRat_le_toRat_iff, Fraction.toRat_absDyadic,
        Dyadic.toRat_sub, Dyadic.toRat_intCast] at apart
      rw [← Dyadic.toRat_le_toRat_iff, Fraction.toRat_absDyadic, Dyadic.toRat_sub,
        Dyadic.toRat_intCast]
      exact apart.trans (BigFloat.nearestInt_least x m)
    cases searched : recover? c t x with
    | error f => rw [searched] at recognised; cases recognised
    | ok found =>
      rw [searched] at recognised
      cases found with
      | some q =>
        cases recognised
        trivial
      | none =>
        cases recognised
        exact ⟨⟨nonzero, .inr ⟨t, known, far⟩⟩, short, rfl⟩

theorem ofFloat_works {x : BigFloat} (fits : x.Fits c.bits) : Works c u (ofFloat c x) (AtHand c) := by
  refine Works.bind Works.settle fun w _ _ settled => ?_
  subst settled
  cases x with
  | finite x => exact Works.lift fun r => ofDyadic_canonical fits
  | infinity | nan => exact Works.pure trivial

end Recognition

section Arithmetic

/-- The opposite of a number at hand, with the digits that the float unit has. -/
theorem neg_works (held : AtHand c u x) : Works c u x.neg (AtHand c) := by
  refine Works.bind Works.unitBits fun w bits _ read => ?_
  obtain ⟨rfl, digits⟩ := read
  refine Works.pure ?_
  rw [digits]
  cases x with
  | float x =>
    obtain ⟨canonical, short, settled⟩ := held
    have same : roundDyadic w.bits (-x) = -x := by
      rw [settled, FloatUnit.bits_ofConfig]
      exact BigFloat.round_short c.bits c.bits_pos short.neg
    change AtHand c w (.float (roundDyadic w.bits (-x)))
    rw [same]
    exact ⟨canonical.neg, short.neg, settled⟩
  | rational | infinity | nan => trivial

theorem add_works (a b : RealNumber) : Works c u (add c a b) (AtHand c) := by
  unfold add
  split
  · exact Works.pure trivial
  · exact .ite (fun _ => Works.pure trivial) fun _ => ofFloat_works (BigFloat.fits_add c.bits _ _)

/-- A difference is a sum, which is recognised whatever its terms are. -/
theorem sub_works (a b : RealNumber) : Works c u (sub c a b) (AtHand c) := by
  have opposite : Works c u b.neg fun _ _ => True :=
    Works.bind Works.unitBits fun w bits _ _ => Works.pure trivial
  exact Works.bind opposite fun w b' _ _ => add_works a b'

theorem mul_works (a b : RealNumber) : Works c u (mul c a b) (AtHand c) := by
  unfold mul
  split
  · exact Works.pure trivial
  · exact .ite (fun _ => Works.pure trivial) fun _ => ofFloat_works (BigFloat.fits_mul c.bits _ _)

theorem divZero_atHand (a : RealNumber) : AtHand c u (divZero a) := by
  unfold divZero
  split <;> trivial

theorem div_works (a b : RealNumber) : Works c u (div c a b) (AtHand c) := by
  unfold div
  refine .ite (fun _ => Works.pure trivial) fun _ => ?_
  refine .ite (fun _ => Works.pure (divZero_atHand a)) fun _ => ?_
  split
  · exact Works.pure trivial
  refine Works.bind Works.settle fun w _ _ _ => ?_
  split
  · next found => exact ofFloat_works (BigFloat.fits_div? c.bits found)
  · exact Works.throw

theorem holds_works (test : Comparison) (a b : RealNumber) :
    Works c u (holds c test a b) fun _ _ => True := by
  unfold holds
  refine .ite (fun _ => Works.pure trivial) fun _ => ?_
  refine .ite (fun _ => Works.bind Works.settle fun _ _ _ _ => Works.pure trivial) fun _ => ?_
  exact Works.pure trivial

end Arithmetic
end RealNumber

namespace Number

/-- The form of a number: a real number in its form, or two of them, none NaN, and the imaginary one not
zero. -/
def Canonical (c : Config) : Number → Prop
  | .real x => x.Canonical c
  | .complex re im =>
    re.Canonical c ∧ im.Canonical c ∧ re.isNaN = false ∧ im.isNaN = false ∧ im.isZero = false

def AtHand (c : Config) (u : FloatUnit) : Number → Prop
  | .real x => x.AtHand c u
  | .complex re im =>
    re.AtHand c u ∧ im.AtHand c u ∧ re.isNaN = false ∧ im.isNaN = false ∧ im.isZero = false

variable {c : Config} {u w : FloatUnit} {z : Number} {re im : RealNumber}

theorem AtHand.canonical (held : AtHand c u z) : Canonical c z := by
  cases z with
  | real x => exact RealNumber.AtHand.canonical held
  | complex re im => exact ⟨held.1.canonical, held.2.1.canonical, held.2.2⟩

theorem AtHand.later (held : AtHand c u z) (later : Later c u w) : AtHand c w z := by
  cases z with
  | real x => exact RealNumber.AtHand.later held later
  | complex re im => exact ⟨held.1.later later, held.2.1.later later, held.2.2⟩

section Parts

theorem isNegligible_works (x : RealNumber) : Works c u (isNegligible c x) fun _ _ => True := by
  cases x with
  | float y =>
    refine Works.bind Works.unitBits fun w bits _ _ => ?_
    refine Works.bind Works.settle fun w' _ _ _ => ?_
    refine Works.bind (P := fun _ _ => True) (Works.lift fun _ _ => trivial) fun _ _ _ _ => ?_
    exact Works.pure trivial
  | rational | infinity | nan => exact Works.pure trivial

/-- Numbers are put together from their parts only when neither is NaN and the imaginary one is not
zero. -/
theorem ofParts_works (left : re.AtHand c u) (right : im.AtHand c u) :
    Works c u (ofParts c re im) (AtHand c) := by
  unfold ofParts
  refine .ite (fun _ => Works.pure trivial) fun defined => ?_
  refine .ite (fun _ => Works.pure left) fun nonzero => ?_
  rw [Bool.or_eq_true, not_or, Bool.not_eq_true, Bool.not_eq_true] at defined
  refine Works.bind (isNegligible_works im) fun w small later _ => ?_
  refine .ite (fun _ => Works.pure (left.later later)) fun _ => ?_
  exact Works.pure ⟨left.later later, right.later later, defined.1, defined.2,
    Bool.eq_false_iff.mpr nonzero⟩

/-- The parts are found one after the other, and put together. -/
theorem ofPairs_works {first second : Computation RealNumber}
    (left : Works c u first (RealNumber.AtHand c))
    (right : ∀ w, Later c u w → Works c w second (RealNumber.AtHand c)) :
    Works c u (do let re ← first; ofParts c re (← second)) (AtHand c) :=
  Works.bind left fun w _ later re => Works.bind (right w later) fun _ _ later' im =>
    ofParts_works (re.later later') im

theorem real_works {m : Computation RealNumber} (found : Works c u m (RealNumber.AtHand c)) :
    Works c u (do return .real (← m)) (AtHand c) :=
  Works.bind found fun _ _ _ held => Works.pure held

/-- The outcome of a floating-point computation is recognised part by part. -/
theorem ofComplexFloat_works {x : ComplexFloat} (fits : x.Fits c.bits) :
    Works c u (ofComplexFloat c x) (AtHand c) :=
  ofPairs_works (RealNumber.ofFloat_works fits.1) fun _ _ => RealNumber.ofFloat_works fits.2

theorem ofComputation_works {x : Option ComplexFloat} (fits : ComplexFloat.FitsIfAny c.bits x) :
    Works c u (ofComputation c x) (AtHand c) := by
  refine Works.bind Works.settle fun w _ _ _ => ?_
  cases x with
  | none => exact Works.pure trivial
  | some x =>
    -- The handler may leave the computation, so what is tried gives a result or a way out.
    refine Works.bind
      (P := fun w' e => (∃ z, e = .ok z ∧ AtHand c w' z) ∨ ∃ z, e = .error z ∧ AtHand c w' z)
      (Works.tryCatch ?_ fun f w' _ => ?_) ?_
    · exact Works.bind (ofComplexFloat_works (fits x rfl)) fun w' z _ held =>
        Works.pure (.inl ⟨z, rfl, held⟩)
    · split
      · exact Works.pure (.inr ⟨_, rfl, trivial⟩)
      · exact Works.raise
    · rintro w' _ - (⟨z, rfl, held⟩ | ⟨z, rfl, held⟩)
      · exact Works.pure held
      · exact Works.pure held

end Parts

section Arithmetic

theorem neg_works (held : AtHand c u z) : Works c u (neg c z) (AtHand c) := by
  cases z with
  | real x => exact real_works (RealNumber.neg_works held)
  | complex re im =>
    refine Works.bind (RealNumber.neg_works held.1) fun w re' later left => ?_
    refine Works.bind (RealNumber.neg_works (held.2.1.later later)) fun w' im' later' right => ?_
    exact ofParts_works (left.later later') right

theorem add_works (a b : Number) : Works c u (add c a b) (AtHand c) := by
  unfold add
  split
  · exact real_works (RealNumber.add_works _ _)
  refine .ite (fun _ => Works.pure trivial) fun _ => ?_
  exact ofPairs_works (RealNumber.add_works _ _) fun _ _ => RealNumber.add_works _ _

theorem mulParts_works (x y : RealNumber) : Works c u (mulParts c x y) (RealNumber.AtHand c) := by
  unfold mulParts
  exact .ite (fun _ => Works.pure trivial) fun _ => RealNumber.mul_works x y

theorem mul_works (a b : Number) : Works c u (mul c a b) (AtHand c) := by
  unfold mul
  split
  · exact real_works (RealNumber.mul_works _ _)
  refine .ite (fun _ => Works.pure trivial) fun _ => ?_
  refine Works.bind (mulParts_works _ _) fun w rr _ _ => ?_
  refine Works.bind (mulParts_works _ _) fun w ii _ _ => ?_
  refine Works.bind (RealNumber.sub_works _ _) fun w re _ left => ?_
  refine Works.bind (mulParts_works _ _) fun w ri later _ => ?_
  refine Works.bind (mulParts_works _ _) fun w ir later' _ => ?_
  refine Works.bind (RealNumber.add_works _ _) fun w im later'' right => ?_
  exact ofParts_works (((left.later later).later later').later later'') right

theorem divZero_works (held : AtHand c u z) : Works c u (divZero c z) (AtHand c) := by
  cases z with
  | real x => exact Works.pure (RealNumber.divZero_atHand x)
  | complex re im =>
    have part {x : RealNumber} (held : x.AtHand c u) :
        RealNumber.AtHand c u (if x.isZero then x else x.divZero) := by
      split
      · exact held
      · exact RealNumber.divZero_atHand x
    exact ofParts_works (part held.1) (part held.2.1)

/-- A quotient by anything but zero is recognised, whatever is divided. -/
theorem div_nonzero_works (a : Number) {b : Number} (nonzero : b.isZero = false) :
    Works c u (div c a b) (AtHand c) := by
  unfold div
  refine .ite (fun _ => Works.pure trivial) fun _ => ?_
  refine .ite (fun zero => absurd zero (by simp [nonzero])) fun _ => ?_
  split
  · exact real_works (RealNumber.div_works _ _)
  · exact ofPairs_works (RealNumber.div_works _ _) fun _ _ => RealNumber.div_works _ _
  · refine Works.bind (RealNumber.mul_works _ _) fun w dd _ _ => ?_
    refine Works.bind (RealNumber.mul_works _ _) fun w ee _ _ => ?_
    refine Works.bind (RealNumber.add_works _ _) fun w norm _ _ => ?_
    refine Works.bind (RealNumber.mul_works _ _) fun w rd _ _ => ?_
    refine Works.bind (RealNumber.mul_works _ _) fun w ie _ _ => ?_
    refine Works.bind (RealNumber.add_works _ _) fun w re _ _ => ?_
    refine Works.bind (RealNumber.mul_works _ _) fun w id _ _ => ?_
    refine Works.bind (RealNumber.mul_works _ _) fun w rest _ _ => ?_
    refine Works.bind (RealNumber.sub_works _ _) fun w im _ _ => ?_
    exact ofPairs_works (RealNumber.div_works _ _) fun _ _ => RealNumber.div_works _ _

theorem div_works (held : AtHand c u z) (b : Number) : Works c u (div c z b) (AtHand c) := by
  cases zero : b.isZero with
  | true =>
    unfold div
    rw [if_pos zero]
    exact .ite (fun _ => Works.pure trivial) fun _ => divZero_works held
  | false => exact div_nonzero_works z zero

end Arithmetic
end Number
end ComputerAlgebra

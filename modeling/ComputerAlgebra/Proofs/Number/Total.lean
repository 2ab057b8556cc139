import ComputerAlgebra.Proofs.Exact.Arithmetic
import ComputerAlgebra.Proofs.Number.Recognition

/-!
Arithmetic never fails where floats can be recognised. No float of a number is zero, since what is
computed as zero is recognised as the fraction; so no quotient has a float of zero for its divisor.
Arithmetic on exact numbers needs no recognition at all, and neither do powers, whose computation in
floats is caught where it fails.
-/

namespace ComputerAlgebra

open BigFloat (ofRat_sign round_ne_zero)

/-- The computation has a result with the property, or it divides by zero. -/
def Attempts {α : Type} (m : Computation α) (P : α → Prop) : Prop :=
  ∀ u, (∃ a w, m u = .ok a w ∧ P a) ∨ ∃ w, m u = .error .divisionByZero w

namespace Attempts
variable {α β : Type} {P : α → Prop} {Q : β → Prop} {m : Computation α}

theorem of_succeeds (given : Succeeds m P) : Attempts m P := fun u => .inl (given u)

theorem bind {f : α → Computation β} (first : Attempts m P) (next : ∀ a, P a → Attempts (f a) Q) :
    Attempts (m >>= f) Q := by
  intro u
  rcases first u with ⟨a, v, computed, holds⟩ | ⟨w, failed⟩
  · rw [Computation.bind_ok computed]
    exact next a holds v
  · exact .inr ⟨w, Computation.bind_error failed⟩

theorem tryCatch {handler : Fault → Computation α} (given : Attempts m P)
    (caught : Succeeds (handler .divisionByZero) P) : Succeeds (tryCatch m handler) P := by
  intro u
  change ∃ a w, EStateM.tryCatch m handler u = _ ∧ _
  delta EStateM.tryCatch
  rcases given u with ⟨a, w, result, holds⟩ | ⟨w, failed⟩
  · rw [result]
    exact ⟨a, w, rfl, holds⟩
  · rw [failed]
    exact caught w

end Attempts

namespace BigFloat
variable {r : Rounding} {x y q : BigFloat}

theorem add_special (special : x.isFinite = false ∨ y.isFinite = false) :
    (x.add r y).isFinite = false := by
  cases x with
  | finite a =>
    cases y with
    | finite b => simp [isFinite] at special
    | infinity | nan => rfl
  | infinity s =>
    cases y with
    | finite | nan => rfl
    | infinity t =>
      rw [add]
      split <;> rfl
  | nan => cases y <;> rfl

theorem mul_special (special : x.isFinite = false ∨ y.isFinite = false) :
    (x.mul r y).isFinite = false := by
  cases x with
  | finite a =>
    cases y with
    | finite b => simp [isFinite] at special
    | infinity t =>
      rw [mul]
      split <;> rfl
    | nan => rfl
  | infinity s =>
    cases y with
    | finite b =>
      rw [mul]
      split <;> rfl
    | infinity | nan => rfl
  | nan => cases y <;> rfl

theorem div?_special (special : x.isFinite = false ∨ y.isFinite = false)
    (quotient : x.div? r y = some q) : q.isFinite = false ∨ q = .finite 0 := by
  cases y with
  | finite b =>
    cases x with
    | finite a => simp [isFinite] at special
    | infinity s =>
      obtain ⟨-, same⟩ := Option.ite_none_left_eq_some.mp quotient
      cases same
      exact .inl rfl
    | nan =>
      obtain ⟨-, same⟩ := Option.ite_none_left_eq_some.mp quotient
      cases same
      exact .inl rfl
  | infinity t =>
    cases x <;> cases quotient
    · exact .inr rfl
    · exact .inl rfl
    · exact .inl rfl
  | nan =>
    cases x <;> cases quotient <;> exact .inl rfl

theorem powInt?_special {n : Int} (special : x.isFinite = false) (power : x.powInt? r n = some q) :
    q.isFinite = false ∨ q = .finite 0 := by
  cases x with
  | finite x => cases special
  | infinity s =>
    rw [powInt?] at power
    split at power
    · cases power
      exact .inl rfl
    split at power <;> cases power
    · exact .inl rfl
    · exact .inr rfl
  | nan =>
    cases power
    exact .inl rfl

end BigFloat

namespace RealNumber
variable {c : Config} {x y : RealNumber}

theorem regular_of_exact (exact : x.Exact) : x.Regular := by
  cases x with
  | float x => cases exact
  | rational | infinity | nan => trivial

theorem neg_succeeds (regular : x.Regular) : Succeeds x.neg Regular := by
  refine Succeeds.bind (P := fun bits => 0 < bits) ?_ fun bits wide => Succeeds.pure ?_
  · exact fun u => ⟨u.bits, u, rfl, Config.bitsOf_pos u.digits⟩
  · cases x with
    | float x =>
      refine round_ne_zero _ wide fun zero => regular ?_
      rw [← Dyadic.toRat_eq_zero_iff, Dyadic.toRat_neg] at zero
      exact Dyadic.toRat_eq_zero_iff.mp (neg_eq_zero.mp zero)
    | rational | infinity | nan => trivial

theorem neg_succeeds_exact (exact : x.Exact) : Succeeds x.neg Exact := by
  refine Succeeds.bind (P := fun _ => True) (fun u => ⟨u.bits, u, rfl, trivial⟩) fun bits _ => ?_
  cases x with
  | float x => cases exact
  | rational | infinity | nan => exact Succeeds.pure rfl

theorem ofFloat_attempts (readable : c.Readable) (x : BigFloat) :
    Attempts (ofFloat c x) Regular := by
  refine Attempts.bind (.of_succeeds (Succeeds.settle readable.precise)) fun _ _ => ?_
  cases x with
  | finite x =>
    cases recognised : ofDyadic c x with
    | ok r => exact .of_succeeds (Succeeds.lift recognised (ofDyadic_regular recognised))
    | error f =>
      obtain rfl := readable.recognition x f recognised
      intro u
      refine .inr ⟨u, ?_⟩
      change (liftM (ofDyadic c x) : Computation RealNumber) u = _
      rw [recognised]
      rfl
  | infinity s => exact .of_succeeds (Succeeds.pure trivial)
  | nan => exact .of_succeeds (Succeeds.pure trivial)

section Usable
variable (usable : c.Usable)
include usable

theorem ofFloat_succeeds (x : BigFloat) : Succeeds (ofFloat c x) Regular := by
  refine Succeeds.bind (Succeeds.settle usable.precise) fun _ _ => ?_
  cases x with
  | finite x =>
    obtain ⟨r, answer⟩ := usable.answers x
    exact Succeeds.lift answer (ofDyadic_regular answer)
  | infinity s => exact Succeeds.pure trivial
  | nan => exact Succeeds.pure trivial

theorem add_succeeds (x y : RealNumber) : Succeeds (add c x y) Regular := by
  unfold add
  split
  · exact Succeeds.pure trivial
  split
  · exact Succeeds.pure trivial
  · exact ofFloat_succeeds usable _

theorem mul_succeeds (x y : RealNumber) : Succeeds (mul c x y) Regular := by
  unfold mul
  split
  · exact Succeeds.pure trivial
  split
  · exact Succeeds.pure trivial
  · exact ofFloat_succeeds usable _

omit usable in
/-- A divisor other than zero and NaN is not zero as a float. -/
theorem div?_toFloat (x : BigFloat) (defined : y.isNaN = false) (nonzero : y.isZero = false)
    (regular : y.Regular) : ∃ q, x.div? c.bits (y.toFloat c.bits) = some q := by
  have finite {z : Dyadic} (apart : z ≠ 0) : ∃ q, x.div? c.bits (.finite z) = some q := by
    cases x with
    | finite x =>
      cases z with
      | zero => exact absurd rfl apart
      | ofOdd n k odd =>
        have divisor : n ≠ 0 := by omega
        exact ⟨_, congrArg (Option.map BigFloat.finite) (if_neg divisor)⟩
    | infinity s => exact ⟨_, if_neg apart⟩
    | nan => exact ⟨_, if_neg apart⟩
  cases y with
  | rational q =>
    have apart : q ≠ 0 := by simpa [isZero] using nonzero
    exact finite (ofRat_sign c.bits_pos apart).1
  | float z => exact finite regular
  | infinity s =>
    cases x <;> exact ⟨_, rfl⟩
  | nan => cases defined

theorem div_succeeds (x : RealNumber) (regular : y.Regular) : Succeeds (div c x y) Regular := by
  unfold div
  split
  · exact Succeeds.pure trivial
  next defined =>
  rw [Bool.or_eq_true, not_or] at defined
  split
  · exact Succeeds.pure (regular_of_exact (divZero_exact x))
  next nonzero =>
  split
  · exact Succeeds.pure trivial
  · refine Succeeds.bind (Succeeds.settle usable.precise) fun _ _ => ?_
    obtain ⟨q, quotient⟩ := div?_toFloat (c := c) (x.toFloat c.bits)
      (Bool.eq_false_iff.mpr defined.2) (Bool.eq_false_iff.mpr nonzero) regular
    rw [quotient]
    exact ofFloat_succeeds usable q

end Usable

section Exact
variable (precise : c.precisionFault? = none)
include precise

/-- A float that is zero or not finite is recognised without any search. -/
theorem ofFloat_succeeds_special {x : BigFloat} (special : x.isFinite = false ∨ x = .finite 0) :
    Succeeds (ofFloat c x) Exact := by
  refine Succeeds.bind (Succeeds.settle precise) fun _ _ => ?_
  cases x with
  | finite x =>
    obtain rfl := BigFloat.finite.inj (special.resolve_left (by simp [BigFloat.isFinite]))
    exact Succeeds.lift (a := .rational 0) rfl rfl
  | infinity | nan => exact Succeeds.pure rfl

omit precise in
/-- Where exact numbers are not both fractions, one of them is not finite. -/
theorem toFloat_special (bits : Nat) (left : x.Exact) (right : y.Exact)
    (apart : ∀ p q, x = .rational p → y = .rational q → False) :
    (x.toFloat bits).isFinite = false ∨ (y.toFloat bits).isFinite = false := by
  cases x with
  | rational p =>
    cases y with
    | rational q => exact (apart p q rfl rfl).elim
    | float => cases right
    | infinity | nan => exact .inr rfl
  | float => cases left
  | infinity | nan => exact .inl rfl

theorem add_succeeds_exact (left : x.Exact) (right : y.Exact) : Succeeds (add c x y) Exact := by
  unfold add
  split
  · exact Succeeds.pure rfl
  next apart =>
  split
  · exact Succeeds.pure rfl
  · have special := toFloat_special c.bits left right apart
    exact ofFloat_succeeds_special precise (.inl (BigFloat.add_special special))

theorem mul_succeeds_exact (left : x.Exact) (right : y.Exact) : Succeeds (mul c x y) Exact := by
  unfold mul
  split
  · exact Succeeds.pure rfl
  next apart =>
  split
  · exact Succeeds.pure rfl
  · have special := toFloat_special c.bits left right apart
    exact ofFloat_succeeds_special precise (.inl (BigFloat.mul_special special))

theorem div_succeeds_exact (left : x.Exact) (right : y.Exact) : Succeeds (div c x y) Exact := by
  unfold div
  split
  · exact Succeeds.pure rfl
  next defined =>
  rw [Bool.or_eq_true, not_or] at defined
  split
  · exact Succeeds.pure (divZero_exact x)
  next nonzero =>
  split
  · exact Succeeds.pure rfl
  next apart =>
  refine Succeeds.bind (Succeeds.settle precise) fun _ _ => ?_
  obtain ⟨q, quotient⟩ := div?_toFloat (c := c) (x.toFloat c.bits)
    (Bool.eq_false_iff.mpr defined.2) (Bool.eq_false_iff.mpr nonzero) (regular_of_exact right)
  rw [quotient]
  have special := toFloat_special c.bits left right apart
  exact ofFloat_succeeds_special precise (BigFloat.div?_special special quotient)

end Exact

theorem holds_succeeds (readable : c.Readable) {test : Comparison} (x y : RealNumber) :
    Succeeds (holds c test x y) fun _ => True := by
  unfold holds
  split
  · exact Succeeds.pure trivial
  split
  · exact Succeeds.bind (Succeeds.settle readable.precise) fun _ _ => Succeeds.pure trivial
  · exact Succeeds.pure trivial

/-- Real numbers that arithmetic never fails on and never leaves. -/
structure Closed (c : Config) (P : RealNumber → Prop) : Prop where
  readable : c.Readable
  exact : ∀ x, x.Exact → P x
  regular : ∀ x, P x → x.Regular
  neg : ∀ x, P x → Succeeds x.neg P
  add : ∀ x y, P x → P y → Succeeds (add c x y) P
  mul : ∀ x y, P x → P y → Succeeds (mul c x y) P
  div : ∀ x y, P x → P y → Succeeds (div c x y) P

/-- Where every float is recognised, arithmetic goes on with all numbers. -/
theorem regular_closed (usable : c.Usable) : Closed c Regular where
  readable := usable.toReadable
  exact _ := regular_of_exact
  regular _ := id
  neg _ := neg_succeeds
  add x y _ _ := add_succeeds usable x y
  mul x y _ _ := mul_succeeds usable x y
  div x _ _ := div_succeeds usable x

/-- Arithmetic on exact numbers goes on without any recognition. -/
theorem exact_closed (readable : c.Readable) : Closed c Exact where
  readable := readable
  exact _ := id
  regular _ := regular_of_exact
  neg _ := neg_succeeds_exact
  add _ _ := add_succeeds_exact readable.precise
  mul _ _ := mul_succeeds_exact readable.precise
  div _ _ := div_succeeds_exact readable.precise

theorem Closed.sub {P : RealNumber → Prop} (closed : Closed c P) (left : P x) (right : P y) :
    Succeeds (sub c x y) P :=
  Succeeds.bind (closed.neg y right) fun y' opposite => closed.add x y' left opposite

end RealNumber

namespace Number
variable {c : Config} {P : RealNumber → Prop} {z w : Number} {x y : RealNumber}

def Within (P : RealNumber → Prop) (z : Number) : Prop := P z.re ∧ P z.im

/-- No float in either part of the number is zero. -/
abbrev Regular (z : Number) : Prop := z.Within RealNumber.Regular

theorem within_exact (exact : z.Exact) : z.Within RealNumber.Exact := ⟨re_exact exact, im_exact exact⟩

theorem Within.mono {Q : RealNumber → Prop} (within : z.Within P) (weaker : ∀ x, P x → Q x) :
    z.Within Q :=
  ⟨weaker _ within.1, weaker _ within.2⟩

theorem regular_of_exact (exact : z.Exact) : z.Regular :=
  (within_exact exact).mono fun _ => RealNumber.regular_of_exact

section Readable
variable (readable : c.Readable)
include readable

theorem isNegligible_succeeds (x : RealNumber) : Succeeds (isNegligible c x) fun _ => True := by
  cases x with
  | float x =>
    obtain ⟨t, same⟩ := readable.tolerance
    refine Succeeds.bind (P := fun _ => True) (fun u => ⟨u.bits, u, rfl, trivial⟩) fun bits _ => ?_
    refine Succeeds.bind (Succeeds.settle readable.precise) fun _ _ => ?_
    refine Succeeds.bind (P := fun _ => True) (Succeeds.lift same trivial) fun _ _ => ?_
    exact Succeeds.pure trivial
  | rational | infinity | nan => exact Succeeds.pure trivial

theorem ofParts_succeeds (holds : ∀ x, x.Exact → P x) (left : P x) (right : P y) :
    Succeeds (ofParts c x y) (Within P) := by
  have zero : P 0 := holds 0 rfl
  unfold ofParts
  split
  · exact Succeeds.pure ⟨holds .nan rfl, zero⟩
  split
  · exact Succeeds.pure ⟨left, zero⟩
  · refine Succeeds.bind (isNegligible_succeeds readable y) fun small _ => ?_
    split
    · exact Succeeds.pure ⟨left, zero⟩
    · exact Succeeds.pure ⟨left, right⟩

theorem neg_succeeds_within (holds : ∀ x, x.Exact → P x) (opposite : ∀ x, P x → Succeeds x.neg P)
    (within : z.Within P) : Succeeds (neg c z) (Within P) := by
  cases z with
  | real x =>
    exact Succeeds.bind (opposite x within.1) fun _ kept => Succeeds.pure ⟨kept, holds 0 rfl⟩
  | complex re im =>
    refine Succeeds.bind (opposite re within.1) fun re left => ?_
    exact Succeeds.bind (opposite im within.2) fun im right =>
      ofParts_succeeds readable holds left right

theorem neg_succeeds (regular : z.Regular) : Succeeds (neg c z) Regular :=
  neg_succeeds_within readable (fun _ => RealNumber.regular_of_exact)
    (fun _ => RealNumber.neg_succeeds) regular

omit readable in
/-- A recognition that divides by zero is caught. -/
theorem ofComputation_attempted {P : Number → Prop} {x : Option ComplexFloat} (precise : c.precisionFault? = none)
    (undefined : P nan) (tried : ∀ z, x = some z → Attempts (ofComplexFloat c z) P) :
    Succeeds (ofComputation c x) P := by
  refine Succeeds.bind (Succeeds.settle precise) fun _ _ => ?_
  cases x with
  | none => exact Succeeds.pure undefined
  | some x =>
    -- The handler may leave the computation, so what is tried gives a result or a way out.
    refine Succeeds.bind (P := fun e => ∃ z, (e = .ok z ∨ e = .error z) ∧ P z) (Attempts.tryCatch ?_ ?_) ?_
    · exact Attempts.bind (tried x rfl) fun z holds => .of_succeeds (Succeeds.pure ⟨z, .inl rfl, holds⟩)
    · exact Succeeds.pure ⟨nan, .inr rfl, undefined⟩
    · rintro _ ⟨z, rfl | rfl, holds⟩ <;> exact Succeeds.pure holds

theorem ofComputation_succeeds (x : Option ComplexFloat) : Succeeds (ofComputation c x) Regular := by
  refine ofComputation_attempted readable.precise (regular_of_exact rfl) fun z _ => ?_
  refine Attempts.bind (RealNumber.ofFloat_attempts readable _) fun re left => ?_
  refine Attempts.bind (RealNumber.ofFloat_attempts readable _) fun im right => ?_
  exact .of_succeeds (ofParts_succeeds readable (fun _ => RealNumber.regular_of_exact) left right)

end Readable

section Closed
variable (closed : RealNumber.Closed c P)
include closed

theorem real_within (holds : P x) : Within P (.real x) := ⟨holds, closed.exact 0 rfl⟩

theorem exact_within (exact : z.Exact) : z.Within P := (within_exact exact).mono closed.exact

theorem parts_succeeds (left : P x) (right : P y) : Succeeds (ofParts c x y) (Within P) :=
  ofParts_succeeds closed.readable closed.exact left right

private theorem real_succeeds {m : Computation RealNumber} (given : Succeeds m P) :
    Succeeds (do return Number.real (← m)) (Within P) :=
  Succeeds.bind given fun _ holds => Succeeds.pure (real_within closed holds)

theorem add_succeeds (left : z.Within P) (right : w.Within P) : Succeeds (add c z w) (Within P) := by
  unfold add
  split
  · exact real_succeeds closed (closed.add _ _ left.1 right.1)
  split
  · exact Succeeds.pure (exact_within closed rfl)
  refine Succeeds.bind (closed.add _ _ left.1 right.1) fun re holds => ?_
  exact Succeeds.bind (closed.add _ _ left.2 right.2) fun im holds' =>
    parts_succeeds closed holds holds'

theorem sub_succeeds (left : z.Within P) (right : w.Within P) : Succeeds (sub c z w) (Within P) :=
  Succeeds.bind (neg_succeeds_within closed.readable closed.exact closed.neg right) fun _ opposite =>
    add_succeeds closed left opposite

theorem mulParts_succeeds (left : P x) (right : P y) : Succeeds (mulParts c x y) P := by
  unfold mulParts
  split
  · exact Succeeds.pure (closed.exact 0 rfl)
  · exact closed.mul x y left right

theorem mul_succeeds (left : z.Within P) (right : w.Within P) : Succeeds (mul c z w) (Within P) := by
  unfold mul
  split
  · exact real_succeeds closed (closed.mul _ _ left.1 right.1)
  split
  · exact Succeeds.pure (exact_within closed rfl)
  refine Succeeds.bind (mulParts_succeeds closed left.1 right.1) fun rr first => ?_
  refine Succeeds.bind (mulParts_succeeds closed left.2 right.2) fun ii second => ?_
  refine Succeeds.bind (closed.sub first second) fun re holds => ?_
  refine Succeeds.bind (mulParts_succeeds closed left.1 right.2) fun ri third => ?_
  refine Succeeds.bind (mulParts_succeeds closed left.2 right.1) fun ir fourth => ?_
  exact Succeeds.bind (closed.add ri ir third fourth) fun im holds' =>
    parts_succeeds closed holds holds'

theorem divZero_succeeds (within : z.Within P) : Succeeds (divZero c z) (Within P) := by
  cases z with
  | real x => exact Succeeds.pure (real_within closed (closed.exact _ (RealNumber.divZero_exact x)))
  | complex re im =>
    have part {x : RealNumber} (holds : P x) : P (if x.isZero then x else x.divZero) := by
      split
      · exact holds
      · exact closed.exact _ (RealNumber.divZero_exact x)
    exact parts_succeeds closed (part within.1) (part within.2)

theorem div_succeeds (left : z.Within P) (right : w.Within P) : Succeeds (div c z w) (Within P) := by
  unfold div
  split
  · exact Succeeds.pure (exact_within closed rfl)
  split
  · exact divZero_succeeds closed left
  split
  · exact real_succeeds closed (closed.div _ _ left.1 right.1)
  · refine Succeeds.bind (closed.div _ _ left.1 right.1) fun re holds => ?_
    exact Succeeds.bind (closed.div _ _ left.2 right.1) fun im holds' =>
      parts_succeeds closed holds holds'
  · next d e _ _ =>
    have square {x : RealNumber} (holds : P x) := closed.mul x x holds holds
    refine Succeeds.bind (square right.1) fun dd first => ?_
    refine Succeeds.bind (square right.2) fun ee second => ?_
    refine Succeeds.bind (closed.add dd ee first second) fun norm divisor => ?_
    refine Succeeds.bind (closed.mul _ d left.1 right.1) fun rd first => ?_
    refine Succeeds.bind (closed.mul _ e left.2 right.2) fun ie second => ?_
    refine Succeeds.bind (closed.add rd ie first second) fun re holds => ?_
    refine Succeeds.bind (closed.mul _ d left.2 right.1) fun id first => ?_
    refine Succeeds.bind (closed.mul _ e left.1 right.2) fun rest second => ?_
    refine Succeeds.bind (closed.sub first second) fun im holds' => ?_
    refine Succeeds.bind (closed.div re norm holds divisor) fun re' holds => ?_
    exact Succeeds.bind (closed.div im norm holds' divisor) fun im' holds' =>
      parts_succeeds closed holds holds'

end Closed

theorem powLoop_succeeds {P : Number → Prop} (product : ∀ {z w}, P z → P w → Succeeds (mul c z w) P) (n : Nat)
    (result square : Number) (holds : P result) (factor : P square) : Succeeds (powLoop c result square n) P := by
  induction n using Nat.strongRecOn generalizing result square with
  | _ n ih =>
    unfold powLoop
    split
    · exact Succeeds.pure holds
    · next above =>
      have rest (result' : Number) (holds' : P result') : Succeeds (do
          if n / 2 = 0 then return result'
          powLoop c result' (← mul c square square) (n / 2)) P := by
        split
        · exact Succeeds.pure holds'
        · exact Succeeds.bind (product factor factor) fun square' factor' =>
            ih (n / 2) (by omega) result' square' holds' factor'
      by_cases odd : n % 2 = 1
      · simp only [if_pos odd]
        exact Succeeds.bind (product holds factor) rest
      · simp only [if_neg odd]
        exact Succeeds.bind (Succeeds.pure holds) rest

section Powers
variable (readable : c.Readable)
include readable

/-- Powers of exact numbers are products, and others are caught where they fail. -/
theorem powInt_succeeds (base : Number) (n : Int) : Succeeds (powInt c base n) Regular := by
  have closed := RealNumber.exact_closed readable
  have regular {z : Number} (within : z.Within RealNumber.Exact) : z.Regular :=
    within.mono fun _ => RealNumber.regular_of_exact
  unfold powInt
  split
  · refine Succeeds.pure ?_
    split <;> exact regular_of_exact rfl
  split
  · exact Succeeds.pure (regular_of_exact rfl)
  split
  · next small =>
    have exact := within_exact ((Bool.and_eq_true _ _).mp small).1
    have loop := powLoop_succeeds (mul_succeeds closed) n.natAbs 1 base (within_exact rfl) exact
    refine Succeeds.bind loop fun power holds => ?_
    split
    · exact (div_succeeds closed (within_exact rfl) holds).mono fun _ => regular
    · exact Succeeds.pure (regular holds)
  · exact ofComputation_succeeds readable _

theorem pow_succeeds (base exponent : Number) : Succeeds (pow c base exponent) Regular := by
  unfold pow
  split
  · exact Succeeds.pure (regular_of_exact rfl)
  split
  · exact Succeeds.pure (regular_of_exact rfl)
  split
  · exact powInt_succeeds readable base _
  split
  · exact powInt_succeeds readable _ _
  split
  · exact ofComputation_succeeds readable _
  split
  · refine Succeeds.pure ?_
    split <;> exact regular_of_exact rfl
  · refine Succeeds.bind (RealNumber.holds_succeeds readable exponent.re 0) fun above _ => ?_
    refine Succeeds.pure ?_
    cases above <;> exact regular_of_exact rfl

end Powers

/-- Fractions, infinities and NaN. -/
inductive ExactReal : Number → Prop
  | real {x : RealNumber} (exact : x.Exact) : ExactReal (.real x)

namespace ExactReal
variable (precise : c.precisionFault? = none)

theorem neg (exact : z.ExactReal) : Succeeds (neg c z) ExactReal := by
  cases exact with
  | real exact => exact (RealNumber.neg_succeeds_exact exact).bind fun _ exact => .pure (.real exact)

include precise

theorem add (left : z.ExactReal) (right : w.ExactReal) : Succeeds (add c z w) ExactReal := by
  cases left with
  | real left =>
  cases right with
  | real right => exact (RealNumber.add_succeeds_exact precise left right).bind fun _ exact => .pure (.real exact)

theorem sub (left : z.ExactReal) (right : w.ExactReal) : Succeeds (sub c z w) ExactReal :=
  right.neg.bind fun _ opposite => left.add precise opposite

theorem mul (left : z.ExactReal) (right : w.ExactReal) : Succeeds (mul c z w) ExactReal := by
  cases left with
  | real left =>
  cases right with
  | real right => exact (RealNumber.mul_succeeds_exact precise left right).bind fun _ exact => .pure (.real exact)

theorem div (left : z.ExactReal) (right : w.ExactReal) : Succeeds (div c z w) ExactReal := by
  cases left with
  | real left =>
  cases right with
  | real right =>
    unfold Number.div
    split
    · exact .pure (.real rfl)
    split
    · exact .pure (.real (RealNumber.divZero_exact _))
    · exact (RealNumber.div_succeeds_exact precise left right).bind fun _ exact => .pure (.real exact)

/-- Whole powers of infinities are infinities, zero and NaN, also where they are computed in floats. -/
theorem powInt (base : z.ExactReal) (n : Int) : Succeeds (powInt c z n) ExactReal := by
  have fraction (q : Rat) : ExactReal (.real (.rational q)) := .real rfl
  unfold Number.powInt
  split
  · refine .pure ?_
    split <;> exact .real rfl
  split
  · exact .pure (fraction _)
  next whole =>
  split
  · refine (powLoop_succeeds (fun left right => mul precise left right) n.natAbs 1 z (fraction 1) base).bind
      fun power holds => ?_
    split
    · exact (fraction 1).div precise holds
    · exact .pure holds
  · cases base with
    | @real x exact =>
    refine ofComputation_attempted precise (.real rfl) fun w computed => .of_succeeds ?_
    obtain ⟨y, power, rfl⟩ := Option.map_eq_some_iff.mp computed
    have infinite : (x.toFloat c.bits).isFinite = false := by
      cases x with
      | rational q => cases whole
      | float => cases exact
      | infinity | nan => rfl
    have zero : Succeeds (RealNumber.ofFloat c .zero) (· = .rational 0) :=
      Succeeds.bind (Succeeds.settle precise) fun _ _ => Succeeds.lift rfl rfl
    refine (RealNumber.ofFloat_succeeds_special precise (BigFloat.powInt?_special infinite power)).bind
      fun re exact => ?_
    refine zero.bind ?_
    rintro _ rfl
    unfold ofParts
    split
    · exact .pure (.real rfl)
    · exact .pure (.real exact)

theorem pow_ofInt (base : z.ExactReal) (n : Int) : Succeeds (pow c z (.ofInt n)) ExactReal := by
  have whole : (Number.ofInt n).integer? = some n := by simp [integer?, real?, RealNumber.integer?, ofInt]
  unfold Number.pow
  split
  · exact .pure (.real rfl)
  split
  · exact .pure (.real rfl)
  rw [whole]
  exact base.powInt precise n

end ExactReal
end Number
end ComputerAlgebra

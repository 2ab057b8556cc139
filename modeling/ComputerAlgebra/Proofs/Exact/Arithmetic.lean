import ComputerAlgebra.Number.Functions
import ComputerAlgebra.Proofs.Computation

/-!
Computations that do not depend on the digits that the float unit starts with. Two runs from
different digits fail alike or return the same, and then the unit has the same digits after both
runs, unless the result is one that no later step can tell the digits by.
-/

namespace ComputerAlgebra

variable {α β : Type} {E : α → Prop} {F : β → Prop}

/-- Two outcomes that no later step tells apart; `E` says of which results the digits do not matter.
-/
inductive Agree (E : α → Prop) :
    EStateM.Result Fault FloatUnit α → EStateM.Result Fault FloatUnit α → Prop
  | same (a : α) (w : FloatUnit) : Agree E (.ok a w) (.ok a w)
  | exact {a : α} (free : E a) (w w' : FloatUnit) : Agree E (.ok a w) (.ok a w')
  | fault (f : Fault) (w w' : FloatUnit) : Agree E (.error f w) (.error f w')

theorem Agree.refl (run : EStateM.Result Fault FloatUnit α) : Agree E run run := by
  cases run with
  | ok a w => exact .same a w
  | error f w => exact .fault f w w

/-- The outcomes of a computation from any digits agree. -/
def Uniform (E : α → Prop) (m : Computation α) : Prop := ∀ u v, Agree E (m u) (m v)

namespace Uniform

theorem pure {a : α} (free : E a) : Uniform E (pure a) := fun u v => .exact free u v

theorem throw {f : Fault} : Uniform E (throw f : Computation α) := fun u v => .fault f u v

/-- After a result that tells the digits the two runs are one. -/
theorem bind {m : Computation α} {f : α → Computation β} (first : Uniform E m)
    (next : ∀ a, E a → Uniform F (f a)) : Uniform F (m >>= f) := by
  intro u v
  have agree := first u v
  change Agree F (EStateM.bind m f u) (EStateM.bind m f v)
  unfold EStateM.bind
  cases left : m u with
  | ok a w =>
    rw [left] at agree
    cases right : m v with
    | ok b w' =>
      rw [right] at agree
      cases agree with
      | same => exact .refl _
      | exact free => exact next a free w w'
    | error g w' =>
      rw [right] at agree
      cases agree
  | error f w =>
    rw [left] at agree
    cases right : m v with
    | ok b w' =>
      rw [right] at agree
      cases agree
    | error g w' =>
      rw [right] at agree
      cases agree
      exact .fault _ _ _

/-- What begins by setting the unit to the digits of the settings does not depend on the digits
before. -/
theorem settle (c : Config) (m : Computation α) :
    Uniform E (Computation.settle c >>= fun _ => m) := by
  have synced : Uniform (fun _ => False) (Computation.settle c) := by
    intro u v
    cases sound : c.precisionFault? with
    | some f =>
      simp only [Computation.settle, sound]
      exact .fault f u v
    | none =>
      rw [Computation.settle_eq sound, Computation.settle_eq sound]
      exact .same _ _
  exact bind synced fun _ impossible => impossible.elim

/-- A result from some digits that no step can tell them by is the result from all. -/
theorem returns {m : Computation α} (given : Uniform E m) {u w : FloatUnit} {a : α}
    (result : m u = .ok a w) : Returns m (· = a) := by
  intro v b w' other
  have agree := given u v
  rw [result, other] at agree
  cases agree <;> rfl

theorem succeeds {m : Computation α} (given : Uniform E m) {u w : FloatUnit} {a : α}
    (result : m u = .ok a w) : Succeeds m (· = a) := by
  intro v
  have agree := given u v
  rw [result] at agree
  cases other : m v with
  | ok b w' =>
    rw [other] at agree
    cases agree <;> exact ⟨_, _, rfl, rfl⟩
  | error f w' =>
    rw [other] at agree
    cases agree

end Uniform
end ComputerAlgebra

/-!
Arithmetic of exact numbers. It gives an exact number without a look at the float unit, or sets the
unit before it works with floats; either way the outcome is the same from all digits.
-/

namespace ComputerAlgebra

/-- The digits of the float unit do not matter to an exact number. -/
abbrev RealNumber.Exact (x : RealNumber) : Prop := x.isExact = true

abbrev Number.Exact (z : Number) : Prop := z.isExact = true

namespace RealNumber

variable (c : Config) {x y : RealNumber}

theorem neg_uniform (exact : x.Exact) : Uniform Exact x.neg := by
  cases x with
  | rational q => exact Uniform.pure (a := RealNumber.rational (-q)) rfl
  | float x => cases exact
  | infinity s => exact Uniform.pure (a := RealNumber.infinity !s) rfl
  | nan => exact Uniform.pure (a := RealNumber.nan) rfl

theorem ofFloat_uniform (x : BigFloat) : Uniform Exact (ofFloat c x) := Uniform.settle c _

theorem add_uniform (x y : RealNumber) : Uniform Exact (add c x y) := by
  unfold add
  split
  · exact Uniform.pure rfl
  · split
    · exact Uniform.pure rfl
    · exact ofFloat_uniform c _

theorem sub_uniform (x : RealNumber) (exact : y.Exact) : Uniform Exact (sub c x y) :=
  Uniform.bind (neg_uniform exact) fun y' _ => add_uniform c x y'

theorem mul_uniform (x y : RealNumber) : Uniform Exact (mul c x y) := by
  unfold mul
  split
  · exact Uniform.pure rfl
  · split
    · exact Uniform.pure rfl
    · exact ofFloat_uniform c _

theorem divZero_exact (x : RealNumber) : (divZero x).Exact := by
  unfold divZero
  split <;> rfl

theorem div_uniform (x y : RealNumber) : Uniform Exact (div c x y) := by
  unfold div
  split
  · exact Uniform.pure rfl
  split
  · exact Uniform.pure (divZero_exact x)
  split
  · exact Uniform.pure rfl
  · exact Uniform.settle c _

theorem holds_uniform {test : Comparison} (x y : RealNumber) :
    Uniform (fun _ => True) (holds c test x y) := by
  unfold holds
  split
  · exact Uniform.pure trivial
  split
  · exact Uniform.settle c _
  · exact Uniform.pure trivial

end RealNumber

namespace Number

variable (c : Config) {z w : Number}

theorem re_exact (exact : z.Exact) : z.re.Exact := by
  cases z with
  | real x => exact exact
  | complex re im => exact ((Bool.and_eq_true _ _).mp exact).1

theorem im_exact (exact : z.Exact) : z.im.Exact := by
  cases z with
  | real x => rfl
  | complex re im => exact ((Bool.and_eq_true _ _).mp exact).2

theorem ofParts_uniform {re im : RealNumber} (left : re.Exact) (right : im.Exact) :
    Uniform Exact (ofParts c re im) := by
  unfold ofParts
  split
  · exact Uniform.pure rfl
  split
  · exact Uniform.pure left
  have apart : isNegligible c im = pure false := by
    cases im with
    | float x => cases right
    | rational | infinity | nan => rfl
  rw [apart, pure_bind]
  exact Uniform.pure (by simp [Exact, isExact, left, right])

theorem add_uniform (left : z.Exact) (right : w.Exact) : Uniform Exact (add c z w) := by
  unfold add
  split
  · next x y => exact Uniform.bind (RealNumber.add_uniform c x y) fun _ exact => Uniform.pure exact
  · split
    · exact Uniform.pure rfl
    refine Uniform.bind (RealNumber.add_uniform c _ _) fun re exact => ?_
    exact Uniform.bind (RealNumber.add_uniform c _ _) fun im exact' =>
      ofParts_uniform c exact exact'

theorem neg_uniform (exact : z.Exact) : Uniform Exact (neg c z) := by
  cases z with
  | real x => exact Uniform.bind (RealNumber.neg_uniform exact) fun _ exact => Uniform.pure exact
  | complex re im =>
    refine Uniform.bind (RealNumber.neg_uniform (re_exact exact)) fun re left => ?_
    exact Uniform.bind (RealNumber.neg_uniform (im_exact exact)) fun im right =>
      ofParts_uniform c left right

theorem neg_exact (exact : z.Exact) : Returns (neg c z) Exact := by
  have part {x : RealNumber} (exact : x.Exact) : Returns x.neg RealNumber.Exact := by
    refine Returns.bind Returns.trivial fun bits _ => Returns.pure ?_
    cases x with
    | float x => cases exact
    | rational | infinity | nan => rfl
  cases z with
  | real x => exact Returns.bind (part exact) fun _ exact => Returns.pure exact
  | complex re im =>
    refine Returns.bind (part (re_exact exact)) fun re left => ?_
    refine Returns.bind (part (im_exact exact)) fun im right => ?_
    unfold ofParts
    split
    · exact Returns.pure rfl
    split
    · exact Returns.pure left
    refine Returns.bind Returns.trivial fun small _ => ?_
    split
    · exact Returns.pure left
    · exact Returns.pure (by simp [Exact, isExact, left, right])

theorem sub_uniform (left : z.Exact) (right : w.Exact) : Uniform Exact (sub c z w) :=
  Uniform.bind (neg_uniform c right) fun _ exact => add_uniform c left exact

theorem mulParts_uniform (x y : RealNumber) : Uniform RealNumber.Exact (mulParts c x y) := by
  unfold mulParts
  split
  · exact Uniform.pure rfl
  · exact RealNumber.mul_uniform c x y

theorem mul_uniform (z w : Number) : Uniform Exact (mul c z w) := by
  unfold mul
  split
  · next x y => exact Uniform.bind (RealNumber.mul_uniform c x y) fun _ exact => Uniform.pure exact
  · split
    · exact Uniform.pure rfl
    refine Uniform.bind (mulParts_uniform c _ _) fun rr _ => ?_
    refine Uniform.bind (mulParts_uniform c _ _) fun ii exact => ?_
    refine Uniform.bind (RealNumber.sub_uniform c rr exact) fun re left => ?_
    refine Uniform.bind (mulParts_uniform c _ _) fun ri _ => ?_
    refine Uniform.bind (mulParts_uniform c _ _) fun ir _ => ?_
    exact Uniform.bind (RealNumber.add_uniform c ri ir) fun im right => ofParts_uniform c left right

theorem divZero_uniform (exact : z.Exact) : Uniform Exact (divZero c z) := by
  cases z with
  | real x => exact Uniform.pure (RealNumber.divZero_exact x)
  | complex re im =>
    have part {x : RealNumber} (exact : x.Exact) :
        (if x.isZero then x else x.divZero).Exact := by
      split
      · exact exact
      · exact RealNumber.divZero_exact x
    exact ofParts_uniform c (part (re_exact exact)) (part (im_exact exact))

theorem div_uniform (left : z.Exact) (right : w.Exact) : Uniform Exact (div c z w) := by
  unfold div
  split
  · exact Uniform.pure rfl
  split
  · exact divZero_uniform c left
  split
  · next x y _ _ =>
    exact Uniform.bind (RealNumber.div_uniform c x y) fun _ exact => Uniform.pure exact
  · next re im y _ _ =>
    refine Uniform.bind (RealNumber.div_uniform c re y) fun re' left => ?_
    exact Uniform.bind (RealNumber.div_uniform c im y) fun im' right => ofParts_uniform c left right
  · next d e _ _ =>
    refine Uniform.bind (RealNumber.mul_uniform c d d) fun dd _ => ?_
    refine Uniform.bind (RealNumber.mul_uniform c e e) fun ee _ => ?_
    refine Uniform.bind (RealNumber.add_uniform c dd ee) fun norm _ => ?_
    refine Uniform.bind (RealNumber.mul_uniform c _ d) fun rd _ => ?_
    refine Uniform.bind (RealNumber.mul_uniform c _ e) fun ie _ => ?_
    refine Uniform.bind (RealNumber.add_uniform c rd ie) fun re _ => ?_
    refine Uniform.bind (RealNumber.mul_uniform c _ d) fun id _ => ?_
    refine Uniform.bind (RealNumber.mul_uniform c _ e) fun rest exact => ?_
    refine Uniform.bind (RealNumber.sub_uniform c id exact) fun im _ => ?_
    refine Uniform.bind (RealNumber.div_uniform c re norm) fun re' left => ?_
    exact Uniform.bind (RealNumber.div_uniform c im norm) fun im' right =>
      ofParts_uniform c left right

theorem ofComputation_uniform (x : Option ComplexFloat) : Uniform Exact (ofComputation c x) :=
  Uniform.settle c _

theorem powLoop_uniform (n : Nat) (result square : Number) (exact : result.Exact) :
    Uniform Exact (powLoop c result square n) := by
  induction n using Nat.strongRecOn generalizing result square with
  | _ n ih =>
    unfold powLoop
    split
    · exact Uniform.pure exact
    · next above =>
      have rest (result' : Number) (exact' : result'.Exact) : Uniform Exact (do
          if n / 2 = 0 then return result'
          powLoop c result' (← mul c square square) (n / 2)) := by
        split
        · exact Uniform.pure exact'
        · exact Uniform.bind (mul_uniform c square square) fun square' _ =>
            ih (n / 2) (by omega) result' square' exact'
      by_cases odd : n % 2 = 1
      · simp only [if_pos odd]
        exact Uniform.bind (mul_uniform c result square) rest
      · simp only [if_neg odd]
        exact Uniform.bind (Uniform.pure exact) rest

theorem powInt_uniform (base : Number) (n : Int) : Uniform Exact (powInt c base n) := by
  unfold powInt
  split
  · refine Uniform.pure ?_
    split <;> rfl
  split
  · exact Uniform.pure rfl
  split
  · refine Uniform.bind (powLoop_uniform c n.natAbs 1 base rfl) fun power exact => ?_
    split
    · exact div_uniform c rfl exact
    · exact Uniform.pure exact
  · exact ofComputation_uniform c _

theorem pow_uniform (base exponent : Number) : Uniform Exact (pow c base exponent) := by
  unfold pow
  split
  · exact Uniform.pure rfl
  split
  · exact Uniform.pure rfl
  split
  · exact powInt_uniform c base _
  split
  · exact powInt_uniform c _ _
  split
  · exact ofComputation_uniform c _
  split
  · refine Uniform.pure ?_
    split <;> rfl
  · refine Uniform.bind (RealNumber.holds_uniform c exponent.re 0) fun above _ => Uniform.pure ?_
    cases above <;> rfl

end Number
end ComputerAlgebra

import ComputerAlgebra.Proofs.Complex.Passes
import ComputerAlgebra.Proofs.Polynomial.Folding
import ComputerAlgebra.Proofs.Rational.Simplification

/-!
The passes over polynomial expressions. They may leave a product of divisors, or a power of a constant, where
there was a fraction, and nothing else that is not a polynomial expression. Under a codomain with all fractions
they are refused only for trees that are too deep.
-/

namespace ComputerAlgebra.Expr

variable {c : Config} {ρ : Assignment} {a b e r x p : Expr} {v : Rat}

section Rewriting

theorem isElementary_ofRat (q : Rat) : IsElementary (.num (.ofRat q)) := by
  have real : Number.ofGaussian ⟨q, 0⟩ = .ofRat q := Number.ofGaussian_real rfl
  exact isElementary_num.mpr ⟨_, real.symm⟩

theorem IsRational.elementary (rational : IsRational e) : IsElementary e := by
  induction rational with
  | num q => exact isElementary_ofRat q
  | @var x => exact .var x
  | sum _ _ iha ihb | minus _ _ iha ihb | mul _ _ iha ihb | div _ _ iha ihb => exact .binary (by simp) iha ihb
  | pow _ n ih => exact .binary (by simp) ih (isElementary_ofRat n)

theorem Foldable.rational (foldable : Foldable e) : IsRational e := by
  obtain ⟨v, value⟩ := foldable.atOrigin
  exact isRational_of_valueAt? value

theorem Multiple.foldable {m : Gaussian} (multiple : Multiple a m x) (given : Foldable a) : Foldable x := by
  cases multiple with
  | single => exact given
  | scaled => exact (foldable_mul.mp given).2

theorem scaled_foldable {z : Number} (base : Foldable x) (value : valueAt? ρ (scaled z x) = some v) :
    Foldable (scaled z x) := by
  unfold scaled at value ⊢
  split
  · exact .constant (foldsTo_ofRat 0)
  split
  · exact base
  · next regular other =>
    rw [if_neg regular, if_neg other] at value
    obtain ⟨k, coefficient, -⟩ := valueAt?_mul.mp value
    exact .mul (foldable_num.mpr ⟨k, valueAt?_num.mp coefficient⟩) base

/-- The exponent of a base in a foldable expression is a natural number, or the base is a constant. -/
theorem Powered.foldable (powered : Powered a x p) (given : Foldable a) :
    Foldable x ∧ ((∃ k : Nat, p = .num (.ofInt k)) ∨ ∃ q, FoldsTo x q) := by
  cases powered with
  | single => exact ⟨given, .inl ⟨1, rfl⟩⟩
  | pow => exact given.pow_operands

/-- The base of a constant is a constant. -/
theorem Powered.foldsTo {q : Rat} (powered : Powered a x p) (folds : FoldsTo a q) : ∃ y, FoldsTo x y := by
  cases powered with
  | single => exact ⟨q, folds⟩
  | pow => exact folds.operands.1

/-- Natural exponents are combined to natural exponents. -/
theorem Combined.natural {op : BinaryOp} {f : Gaussian → Gaussian → Gaussian} {k m n : Nat} {t : Expr}
    (combined : Combined op f (.num (.ofInt k)) (.num (.ofInt m)) t)
    (result : f ((k : Int) : Gaussian) ((m : Int) : Gaussian) = ((n : Int) : Gaussian)) : t = .num (.ofInt n) := by
  generalize first : Expr.num (.ofInt k) = s, second : Expr.num (.ofInt m) = s' at combined
  cases combined with
  | numbers g h =>
    rw [← Number.ofGaussian_intCast] at first second
    rw [← Number.ofGaussian_injective (Expr.num.inj first), ← Number.ofGaussian_injective (Expr.num.inj second),
      result, Number.ofGaussian_intCast]
  | node symbolic =>
    subst first second
    cases symbolic

/-- What a foldable expression is rewritten to is foldable if it has a value. -/
theorem Rewrite.foldable (rewrite : Rewrite e r) (given : Foldable e) (value : valueAt? ρ r = some v) :
    Foldable r := by
  -- A power is foldable when its base is a constant or its exponent a natural number.
  have power {x t : Expr} (base : Foldable x) (value : valueAt? ρ (.binary .pow x t) = some v)
      (exponent : (∃ k : Nat, t = .num (.ofInt k)) ∨ ∃ q, FoldsTo x q) : Foldable (.binary .pow x t) := by
    rcases exponent with ⟨k, rfl⟩ | ⟨q, folds⟩
    · exact .pow base k
    · exact .constant (folds.power value)
  have number {z : Number} (known : ∃ y, valueAt? ρ (.num z) = some y) : Foldable (.num z) :=
    foldable_num.mpr (known.imp fun _ => valueAt?_num.mp)
  cases rewrite with
  | collectSum left _ => exact scaled_foldable (left.foldable (foldable_sum.mp given).1) value
  | collectMinus left _ => exact scaled_foldable (left.foldable (foldable_minus.mp given).1) value
  | sumNumber => exact .minus (foldable_sum.mp given).1 (number (value_operands value).2)
  | minusNumber => exact .sum (foldable_minus.mp given).1 (number (value_operands value).2)
  | sumOpposite | oppositeSum | minusOpposite | oppositeOpposite | oppositeMinus =>
    simp only [foldable_sum, foldable_minus, foldable_mul] at given ⊢
    simp only [given, and_self]
  | mergePowers left right exponents =>
    obtain ⟨first, second⟩ := foldable_mul.mp given
    obtain ⟨base, exponent⟩ := left.foldable first
    obtain ⟨-, exponent'⟩ := right.foldable second
    refine power base value ?_
    rcases exponent with ⟨k, rfl⟩ | constant
    · rcases exponent' with ⟨m, rfl⟩ | constant
      · exact .inl ⟨k + m, exponents.natural (by push_cast; rfl)⟩
      · exact .inr constant
    · exact .inr constant
  | @powerOfPower x p t k exponents =>
    obtain ⟨inner, outer⟩ := given.pow_operands
    obtain ⟨base, exponent⟩ := inner.pow_operands
    refine power base value ?_
    rcases outer with ⟨m, same⟩ | ⟨q, folds⟩
    · rcases exponent with ⟨n, rfl⟩ | constant
      · rw [same] at exponents
        exact .inl ⟨m * n, exponents.natural (by push_cast; rfl)⟩
      · exact .inr constant
    · exact .inr folds.operands.1
  | quotientOver x y b =>
    obtain ⟨dividend, q, folds, nonzero⟩ := given.div_operands
    obtain ⟨base, q', folds', nonzero'⟩ := dividend.div_operands
    exact .div base (valueAt?_mul.mpr ⟨q', folds', q, folds, rfl⟩) (mul_ne_zero nonzero' nonzero)
  | overQuotient a x y =>
    obtain ⟨dividend, q, folds, nonzero⟩ := given.div_operands
    obtain ⟨s, above, t, below, regular, rfl⟩ := valueAt?_div.mp folds
    exact .div (.mul dividend (.constant below)) above (div_ne_zero_iff.mp nonzero).1
  | cancelFirst => exact (foldable_mul.mp given.div_operands.1).2
  | cancelSecond => exact (foldable_mul.mp given.div_operands.1).1
  | productOfPowers a b k =>
    obtain ⟨first, second⟩ := foldable_mul.mp given
    obtain ⟨base, exponent⟩ := first.pow_operands
    obtain ⟨base', exponent'⟩ := second.pow_operands
    rcases exponent with natural | ⟨q, folds⟩
    · exact power (.mul base base') value (.inl natural)
    rcases exponent' with natural | ⟨q', folds'⟩
    · exact power (.mul base base') value (.inl natural)
    · exact power (.mul base base') value (.inr ⟨q * q', valueAt?_mul.mpr ⟨q, folds, q', folds', rfl⟩⟩)
  | quotientOfPowers left right _ =>
    obtain ⟨dividend, q, folds, -⟩ := given.div_operands
    exact power (left.foldable dividend).1 value (.inr (right.foldsTo folds))
  | pythagoras | pythagorasTurned => exact .constant (foldsTo_ofRat 1)
  | tangent | cotangent | secant | cosecant | sineOdd | cosineEven =>
    obtain ⟨w, known⟩ := given.atOrigin
    simp [valueAt?] at known

end Rewriting

structure StaysFoldable (e r : Expr) : Prop where
  foldable : Foldable e → Foldable r
  follows : ∀ ρ, Follows ρ e r

theorem staysFoldable_congruence : Congruence StaysFoldable where
  refl e := ⟨id, fun _ => .refl e⟩
  trans first second := ⟨second.foldable ∘ first.foldable, fun ρ => (first.follows ρ).trans (second.follows ρ)⟩
  circular _ := by
    refine ⟨fun foldable => ?_, fun _ => .vacuous (by simp) (by simp [valueAt?])⟩
    obtain ⟨w, known⟩ := foldable.atOrigin
    simp [valueAt?] at known
  binary {op _ _ _ _} left right := by
    have follows (ρ : Assignment) : Follows ρ (.binary op _ _) (.binary op _ _) :=
      (left.follows ρ).binary (right.follows ρ)
    refine ⟨fun foldable => ?_, follows⟩
    cases foldable with
    | constant folds => exact .constant (folds.kept follows)
    | sum first second => exact .sum (left.foldable first) (right.foldable second)
    | minus first second => exact .minus (left.foldable first) (right.foldable second)
    | mul first second => exact .mul (left.foldable first) (right.foldable second)
    | div dividend folds nonzero => exact .div (left.foldable dividend) (folds.kept right.follows) nonzero
    | pow base n =>
      rw [(right.follows origin).literal _ rfl]
      exact .pow (left.foldable base) n

/-- To be foldable is a reading in the ring of one element. -/
theorem foldable_ring : RingReading Number.ofRat (collapsed.comp (algebraMap ℚ Gaussian)) fun e _ => Foldable e where
  numerals := Number.ofRat_numerals
  num := by simp [foldable_num]
  sum := by simp
  minus := by simp
  mul := by simp

def TooDeep (c : Config) (f : Fault) : Prop :=
  ∃ depth, c.isTooDeep depth = true ∧ f = .treeTooDeep depth c.maxTreeDepth.plainText

theorem checkDepth_tooDeep (e : Expr) :
    Permitted (TooDeep c) (liftM (e.checkDepth c) : Computation Unit) fun _ => True :=
  .checkDepth fun deeper => ⟨_, deeper, rfl⟩

section Passes
variable (all : c.codomain.HoldsFractions)
include all

theorem foldable_asks : Asks c (TooDeep c) Foldable where
  elementary foldable := foldable.rational.elementary
  part := Foldable.part
  permitted {e} foldable := by
    refine (checkDepth_tooDeep e).bind fun _ _ => ?_
    refine (Permitted.of_succeeds (evaluateWithin_folded all 999 foldable)).bind fun r _ => ?_
    split <;> exact .of_succeeds (.pure trivial)

theorem atNode_staysFoldable (pass : Pass) (foldable : Foldable e) :
    Permitted (TooDeep c) (pass.atNode c e) (StaysFoldable e) := by
  have follows : Returns (pass.atNode c e) fun r => ∀ ρ, Follows ρ e r :=
    Returns.all fun ρ => atNode_follows all pass e
  have stays (kept : Permitted (TooDeep c) (pass.atNode c e) Foldable) :
      Permitted (TooDeep c) (pass.atNode c e) (StaysFoldable e) :=
    Permitted.mono (kept.and follows) fun r both => ⟨fun _ => both.1, both.2⟩
  obtain ⟨v, value⟩ := foldable.atOrigin
  have rewritten (node : Permitted (TooDeep c) (pass.atNode c e) (Rewritten e)) :
      Permitted (TooDeep c) (pass.atNode c e) (StaysFoldable e) := by
    refine stays (Permitted.mono (node.and follows) ?_)
    rintro r ⟨rfl | rewrite, kept⟩
    · exact foldable
    · exact rewrite.foldable foldable ((kept origin).value v value)
  cases pass with
  | sort => exact stays (.of_succeeds (sortNode_value foldable_ring (v := ()) foldable))
  | common => exact rewritten (commonNode_rewritten (foldable_asks all) foldable)
  | power => exact rewritten (powerNode_rewritten (foldable_asks all) foldable)
  | circular =>
    refine stays (.of_succeeds (.pure ?_))
    rw [circularNode_value value]
    exact foldable
  | boolean =>
    refine stays (.of_succeeds (.pure ?_))
    rw [booleanNode_value value]
    exact foldable

/-- A pass leaves a foldable expression of the same values, or is refused for a tree that is too deep. -/
theorem pass_staysFoldable (pass : Pass) (foldable : Foldable e) :
    Permitted (TooDeep c) (pass.run c e) (StaysFoldable e) :=
  replaceM_congruence (.permitted _) staysFoldable_congruence (fun foldable => foldable.rational.elementary)
    Foldable.part (fun foldable stays => stays.foldable foldable) (atNode_staysFoldable all pass) foldable

end Passes
end ComputerAlgebra.Expr

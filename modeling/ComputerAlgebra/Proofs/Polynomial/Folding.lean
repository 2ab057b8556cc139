import ComputerAlgebra.Proofs.Lifting.Undefined
import ComputerAlgebra.Proofs.Polynomial.Formal
import ComputerAlgebra.Proofs.Rational.Confined
import ComputerAlgebra.Proofs.Rational.Reduction
import ComputerAlgebra.Proofs.Rational.Undefined

/-!
Polynomial expressions with constants that are still to be computed. In place of a fraction there may be any
arithmetic on fractions that has a value. Under a codomain with all fractions evaluation and one pass of
simplification put the value in its place, which leaves a polynomial expression, and neither is refused.
-/

namespace ComputerAlgebra.Expr

variable {c : Config} {ρ : Assignment} {op : BinaryOp} {a b e r : Expr} {q v : Rat}

section Constants

def FoldsTo (e : Expr) (q : Rat) : Prop := valueAt? (fun _ => none) e = some q

theorem foldsTo_ofRat (q : Rat) : FoldsTo (.num (.ofRat q)) q := valueAt?_ofRat.mpr rfl

theorem FoldsTo.value (folds : FoldsTo e q) (ρ : Assignment) : valueAt? ρ e = some q := by
  rw [← folds]
  exact valueAt?_congr fun x named => by cases names_assigned folds x named

theorem FoldsTo.kept (folds : FoldsTo e q) (follows : ∀ ρ, Follows ρ e r) : FoldsTo r q :=
  (follows fun _ => none).value q folds

theorem FoldsTo.operands (folds : FoldsTo (.binary op a b) q) : (∃ x, FoldsTo a x) ∧ ∃ y, FoldsTo b y :=
  value_operands folds

/-- A power of a constant is a constant wherever it has a value. -/
theorem FoldsTo.power {n : Expr} (base : FoldsTo a q) (value : valueAt? ρ (.binary .pow a n) = some v) :
    FoldsTo (.binary .pow a n) v := by
  obtain ⟨k, rfl, x, known, defined, result⟩ := valueAt?_pow.mp value
  obtain rfl : x = q := Option.some.inj (known.symm.trans (base.value ρ))
  exact valueAt?_pow.mpr ⟨k, rfl, x, base, defined, result⟩

end Constants

inductive Foldable : Expr → Prop
  | constant {e : Expr} {q : Rat} (folds : FoldsTo e q) : Foldable e
  | var {x : String} (plain : isConstantName x = false) : Foldable (.var x)
  | sum {a b : Expr} (left : Foldable a) (right : Foldable b) : Foldable (.binary .sum a b)
  | minus {a b : Expr} (left : Foldable a) (right : Foldable b) : Foldable (.binary .minus a b)
  | mul {a b : Expr} (left : Foldable a) (right : Foldable b) : Foldable (.binary .mul a b)
  | div {a d : Expr} (dividend : Foldable a) {q : Rat} (folds : FoldsTo d q) (nonzero : q ≠ 0) :
    Foldable (.binary .div a d)
  | pow {a : Expr} (base : Foldable a) (n : Nat) : Foldable (.binary .pow a (.num (.ofInt n)))

theorem IsPolynomial.foldable (polynomial : IsPolynomial e) : Foldable e := by
  induction polynomial with
  | num q => exact .constant (foldsTo_ofRat q)
  | var plain => exact .var plain
  | sum _ _ iha ihb => exact .sum iha ihb
  | minus _ _ iha ihb => exact .minus iha ihb
  | mul _ _ iha ihb => exact .mul iha ihb
  | div _ nonzero ih => exact .div ih (foldsTo_ofRat _) nonzero
  | pow _ n ih => exact .pow ih n

theorem FoldsTo.foldable_operands (folds : FoldsTo (.binary op a b) q) : Foldable a ∧ Foldable b := by
  obtain ⟨⟨x, left⟩, y, right⟩ := folds.operands
  exact ⟨.constant left, .constant right⟩

@[simp] theorem foldable_sum : Foldable (.binary .sum a b) ↔ Foldable a ∧ Foldable b := by
  refine ⟨fun foldable => ?_, fun ⟨left, right⟩ => .sum left right⟩
  cases foldable with
  | constant folds => exact folds.foldable_operands
  | sum left right => exact ⟨left, right⟩

@[simp] theorem foldable_minus : Foldable (.binary .minus a b) ↔ Foldable a ∧ Foldable b := by
  refine ⟨fun foldable => ?_, fun ⟨left, right⟩ => .minus left right⟩
  cases foldable with
  | constant folds => exact folds.foldable_operands
  | minus left right => exact ⟨left, right⟩

@[simp] theorem foldable_mul : Foldable (.binary .mul a b) ↔ Foldable a ∧ Foldable b := by
  refine ⟨fun foldable => ?_, fun ⟨left, right⟩ => .mul left right⟩
  cases foldable with
  | constant folds => exact folds.foldable_operands
  | mul left right => exact ⟨left, right⟩

theorem foldable_num {z : Number} : Foldable (.num z) ↔ ∃ q, z = .ofRat q := by
  constructor
  · rintro ⟨folds⟩
    exact ⟨_, valueAt?_num.mp folds⟩
  · rintro ⟨q, rfl⟩
    exact .constant (foldsTo_ofRat q)

def origin : Assignment := fun _ => some 0

namespace Foldable

theorem value (foldable : Foldable e) (total : ∀ x, (ρ x).isSome) : ∃ v, valueAt? ρ e = some v := by
  induction foldable with
  | constant folds => exact ⟨_, folds.value ρ⟩
  | @var x plain =>
    obtain ⟨q, given⟩ := Option.isSome_iff_exists.mp (total x)
    exact ⟨q, valueAt?_var.mpr ⟨plain, given⟩⟩
  | sum _ _ iha ihb =>
    obtain ⟨x, left⟩ := iha
    obtain ⟨y, right⟩ := ihb
    exact ⟨x + y, valueAt?_sum.mpr ⟨x, left, y, right, rfl⟩⟩
  | minus _ _ iha ihb =>
    obtain ⟨x, left⟩ := iha
    obtain ⟨y, right⟩ := ihb
    exact ⟨x - y, valueAt?_minus.mpr ⟨x, left, y, right, rfl⟩⟩
  | mul _ _ iha ihb =>
    obtain ⟨x, left⟩ := iha
    obtain ⟨y, right⟩ := ihb
    exact ⟨x * y, valueAt?_mul.mpr ⟨x, left, y, right, rfl⟩⟩
  | @div a d _ q folds nonzero ih =>
    obtain ⟨x, dividend⟩ := ih
    exact ⟨x / q, valueAt?_div.mpr ⟨x, dividend, q, folds.value ρ, nonzero, rfl⟩⟩
  | @pow a _ n ih =>
    obtain ⟨x, base⟩ := ih
    exact ⟨x ^ (n : Int), valueAt?_pow.mpr ⟨n, rfl, x, base, by omega, rfl⟩⟩

theorem atOrigin (foldable : Foldable e) : ∃ v, valueAt? origin e = some v := foldable.value fun _ => rfl

theorem operation (foldable : Foldable (.binary op a b)) : op ∈ BinaryOp.arithmetic := by
  obtain ⟨v, value⟩ := foldable.atOrigin
  exact value_arithmetic value

theorem div_operands (foldable : Foldable (.binary .div a b)) : Foldable a ∧ ∃ q, FoldsTo b q ∧ q ≠ 0 := by
  cases foldable with
  | constant folds =>
    obtain ⟨x, left, y, right, nonzero, -⟩ := valueAt?_div.mp folds
    exact ⟨.constant left, y, right, nonzero⟩
  | div dividend folds nonzero => exact ⟨dividend, _, folds, nonzero⟩

theorem pow_operands {n : Expr} (foldable : Foldable (.binary .pow a n)) : Foldable a ∧
    ((∃ k : Nat, n = .num (.ofInt k)) ∨ ∃ q, FoldsTo a q) := by
  cases foldable with
  | constant folds =>
    obtain ⟨⟨x, base⟩, -⟩ := folds.operands
    exact ⟨.constant base, .inr ⟨x, base⟩⟩
  | pow base k => exact ⟨base, .inl ⟨k, rfl⟩⟩

theorem part {part : Expr} (foldable : Foldable e) (member : part ∈ e.children) : Foldable part := by
  cases foldable with
  | @constant e q folds =>
    cases e with
    | num | var => cases member
    | binary =>
      obtain ⟨left, right⟩ := folds.foldable_operands
      rcases List.mem_pair.mp member with rfl | rfl
      · exact left
      · exact right
    | bool | unary | lam | app | provided | piecewise | interval => simp [FoldsTo, valueAt?] at folds
  | var => cases member
  | sum left right | minus left right | mul left right =>
    rcases List.mem_pair.mp member with rfl | rfl
    · exact left
    · exact right
  | div dividend folds _ =>
    rcases List.mem_pair.mp member with rfl | rfl
    · exact dividend
    · exact .constant folds
  | pow base k =>
    rcases List.mem_pair.mp member with rfl | rfl
    · exact base
    · exact .constant (foldsTo_ofRat (k : Int))

theorem shape (foldable : Foldable e) : (∃ q, e = .num (.ofRat q)) ∨
    (∃ x, e = .var x ∧ isConstantName x = false) ∨ ∃ op a b, e = .binary op a b := by
  obtain ⟨v, value⟩ := foldable.atOrigin
  cases e with
  | num z => exact .inl ⟨v, by rw [valueAt?_num.mp value]⟩
  | var x => exact .inr (.inl ⟨x, rfl, (valueAt?_var.mp value).1⟩)
  | binary op a b => exact .inr (.inr ⟨op, a, b, rfl⟩)
  | bool | unary | lam | app | provided | piecewise | interval => simp [valueAt?] at value

end Foldable

/-- What the constants of an expression are computed to: a polynomial expression of the same values, which is a
number when the expression is a constant. -/
structure Folded (e r : Expr) : Prop where
  polynomial : IsPolynomial r
  literal : ∀ q, FoldsTo e q → r = .num (.ofRat q)
  follows : ∀ ρ, Follows ρ e r

namespace Folded
variable {a' b' : Expr}

theorem refl (polynomial : IsPolynomial e) (leaf : e.children = []) : Folded e e := by
  refine ⟨polynomial, fun q folds => ?_, fun ρ => .refl e⟩
  cases polynomial with
  | num p => rw [valueAt?_ofRat.mp folds]
  | var => simp [FoldsTo] at folds
  | sum | minus | mul | div | pow => cases leaf

/-- A polynomial expression of the same values, if it is a number where the expression is a constant. -/
theorem of_number (polynomial : IsPolynomial r) (number : ∀ q, FoldsTo e q → ∃ z, r = .num z)
    (follows : ∀ ρ, Follows ρ e r) : Folded e r := by
  refine ⟨polynomial, fun q folds => ?_, follows⟩
  obtain ⟨z, rfl⟩ := number q folds
  rw [valueAt?_num.mp (folds.kept follows)]

variable (left : Folded a a') (right : Folded b b')
include left right

/-- Over what its operands are computed to an operation is a polynomial expression, unless it is a constant. -/
theorem rebuilt (foldable : Foldable (.binary op a b)) :
    (∃ q, FoldsTo (.binary op a b) q) ∨ IsPolynomial (.binary op a' b') := by
  cases foldable with
  | constant folds => exact .inl ⟨_, folds⟩
  | sum => exact .inr (.sum left.polynomial right.polynomial)
  | minus => exact .inr (.minus left.polynomial right.polynomial)
  | mul => exact .inr (.mul left.polynomial right.polynomial)
  | div _ folds nonzero =>
    rw [right.literal _ folds]
    exact .inr (.div left.polynomial nonzero)
  | pow _ n =>
    rw [(right.follows origin).literal _ rfl]
    exact .inr (.pow left.polynomial n)

theorem value (known : valueAt? ρ (.binary op a b) = some v) : valueAt? ρ (.binary op a' b') = some v :=
  ((left.follows ρ).binary (right.follows ρ)).value v known

end Folded

section Rules
variable {evaluate : Expr → Computation Expr}

private theorem computed_polynomial {x y : Number} (given : IsPolynomial (.binary op (.num x) (.num y))) :
    ∃ q, op.compute? c x y = pure (some (.ofRat q)) := by
  obtain ⟨v, value⟩ := given.foldable.atOrigin
  exact ⟨v, compute?_value value⟩

/-- Where one operand is no number, a polynomial expression has no number for a base or a dividend. -/
private theorem dividend_symbolic (given : IsPolynomial (.binary op a b)) (asymmetric : op = .div ∨ op = .pow)
    (symbolic : ∀ x y, a = .num x → b = .num y → False) : a.isZero = false ∧ a ≠ b := by
  obtain ⟨y, rfl⟩ : ∃ y, b = .num y := by
    cases given with
    | div | pow => exact ⟨_, rfl⟩
    | sum | minus | mul => simp at asymmetric
  constructor
  · rw [Bool.eq_false_iff]
    intro zero
    rw [isZero_iff.mp zero] at symbolic
    exact symbolic 0 y rfl rfl
  · rintro rfl
    exact symbolic y y rfl rfl

theorem binaryRule?_polynomial (given : IsPolynomial (.binary op a b)) :
    Succeeds (binaryRule? c evaluate op a b) (Offers IsPolynomial) := by
  have numbers (x y : Number) (first : a = .num x) (second : b = .num y) :
      Succeeds (do return (← op.compute? c x y).map Expr.num) (Offers IsPolynomial) := by
    subst first second
    obtain ⟨q, computed⟩ := computed_polynomial (c := c) given
    rw [computed, pure_bind]
    exact .pure (.some (.num q))
  cases given with
  | sum | minus =>
    simp only [binaryRule?]
    split
    · exact numbers _ _ rfl rfl
    · exact .pure .none
  | mul left right =>
    simp only [binaryRule?]
    split
    · exact numbers _ _ rfl rfl
    · refine .pure (.ite (fun _ => .some (.num 0)) fun _ => .ite (fun _ => .some right) fun _ => ?_)
      exact .ite (fun _ => .some left) fun _ => .none
  | @div a dividend q nonzero =>
    simp only [binaryRule?]
    split
    · next x y same => exact numbers x y rfl same
    · next symbolic =>
      obtain ⟨regular, -⟩ := dividend_symbolic (.div dividend nonzero) (.inl rfl) symbolic
      simp only [identityRule?, regular, Bool.false_eq_true, if_false]
      split
      · exact .pure (.some dividend)
      · exact .pure .none
  | pow base n =>
    simp only [binaryRule?]
    split
    · next x y same => exact numbers x y rfl same
    · exact .pure (.ite (fun _ => .some (.num 1)) fun _ => .ite (fun _ => .some base) fun _ => .none)

theorem negate_polynomial (given : IsPolynomial a) : Succeeds (negate c a) IsPolynomial := by
  unfold negate
  split
  · next z =>
    cases given with
    | num q =>
      rw [Number.neg_ofRat, pure_bind]
      exact .pure (.num (-q))
  · exact .pure (.mul (.num (-1)) given)

private theorem simplifyIdentity?_polynomial (given : IsPolynomial (.binary op a b))
    (symbolic : ∀ x y, a = .num x → b = .num y → False) :
    Succeeds (simplifyIdentity? c op a b) (Offers IsPolynomial) := by
  have opposite {part : Expr} (polynomial : IsPolynomial part) :
      Succeeds (do return some (← negate c part)) (Offers IsPolynomial) :=
    (negate_polynomial polynomial).bind fun _ negated => .pure (.some negated)
  cases given with
  | sum left right => exact .pure (.ite (fun _ => .some right) fun _ => .ite (fun _ => .some left) fun _ => .none)
  | minus left right =>
    simp only [simplifyIdentity?]
    split
    · exact .pure (.some left)
    split
    · exact opposite right
    · exact .pure .none
  | mul left right =>
    have square : Offers IsPolynomial (if a = b then some (.binary .pow a 2) else none) :=
      .ite (fun _ => .some (.pow left 2)) fun _ => .none
    simp only [simplifyIdentity?]
    split
    · exact .pure (.some (.num 0))
    split
    · exact .pure (.some right)
    split
    · exact .pure (.some left)
    split
    · split
      · cases right with
        | mul _ inner => exact .pure (.some inner)
      · exact .pure square
    · exact .pure square
  | @div _ dividend q nonzero =>
    obtain ⟨regular, apart⟩ := dividend_symbolic (.div dividend nonzero) (.inl rfl) symbolic
    simp only [simplifyIdentity?, regular, apart, Bool.false_eq_true, if_false]
    split
    · exact .pure (.some dividend)
    split
    · exact opposite dividend
    · exact .pure .none
  | @pow _ base n =>
    obtain ⟨regular, -⟩ := dividend_symbolic (.pow base n) (.inr rfl) symbolic
    have above : (Expr.num (.ofInt n)).isMinusOne = false := by
      rw [Bool.eq_false_iff, Ne, whole_isMinusOne]
      omega
    simp only [simplifyIdentity?, regular, above, Bool.false_eq_true, if_false]
    split
    · exact .pure (.some (.num 1))
    split
    · exact .pure (.some base)
    · exact .pure .none

theorem simplifyBinary?_polynomial (given : IsPolynomial (.binary op a b)) :
    Succeeds (simplifyBinary? c op a b) (Offers IsPolynomial) := by
  have numbers (x y : Number) (first : a = .num x) (second : b = .num y) :
      Succeeds (if op = .div && y.isZero then return none else return whenExact (← op.compute? c x y))
        (Offers IsPolynomial) := by
    subst first second
    obtain ⟨q, computed⟩ := computed_polynomial (c := c) given
    rw [computed, pure_bind]
    split
    · exact .pure .none
    · exact .pure (.some (.num q))
  have identity := simplifyIdentity?_polynomial (c := c) given
  have known := given.foldable.operation
  rcases BinaryOp.arithmetic_cases known with rfl | rfl | rfl | rfl | rfl
  all_goals
    simp only [simplifyBinary?]
    split
    · exact numbers _ _ rfl rfl
    · next symbolic => exact identity symbolic

end Rules

section Nodes
variable {parts : List Expr} (all : c.codomain.HoldsFractions)
include all

/-- A polynomial expression lies within the codomain, and no part of it is NaN. -/
private theorem confine_polynomial {outside : Expr} (known : op ∈ BinaryOp.arithmetic) (polynomial : IsPolynomial r) :
    confine c (.binary op a b) r outside = r := by
  obtain ⟨v, value⟩ := polynomial.foldable.atOrigin
  refine confine_eq (value_parts_not_nan value) ?_
  rw [arithmetic_codomain known]
  exact value_fits all value

/-- A constant operation is computed from its operands. -/
private theorem evaluateConstant_folded (evaluate : Expr → Computation Expr) {a' b' : Expr}
    (folds : FoldsTo (.binary op a b) q) (left : Folded a a') (right : Folded b b') :
    evaluateNode c evaluate (.binary op a b) [a', b'] = pure (.num (.ofRat q)) := by
  have known := value_arithmetic folds
  obtain ⟨⟨x, first⟩, y, second⟩ := folds.operands
  have value : valueAt? origin (.binary op a' b') = some q := left.value right (folds.value origin)
  obtain rfl := left.literal x first
  obtain rfl := right.literal y second
  rw [evaluateNode_literal _ known, literalValue_attained known value (all q)]
  rfl

theorem evaluateNode_folded {evaluate : Expr → Computation Expr} (foldable : Foldable e)
    (related : List.Forall₂ Folded e.children parts) : Succeeds (evaluateNode c evaluate e parts) (Folded e) := by
  rcases foldable.shape with ⟨q, rfl⟩ | ⟨x, rfl, plain⟩ | ⟨op, a, b, rfl⟩
  · exact .pure (.refl (.num q) rfl)
  · simp only [evaluateNode, plain, Bool.false_eq_true, if_false]
    exact .pure (.refl (.var plain) rfl)
  have follows : Returns (evaluateNode c evaluate (.binary op a b) parts) fun r => ∀ ρ, Follows ρ (.binary op a b) r :=
    Returns.all fun ρ => evaluateNode_follows all _ _ (related.imp fun _ _ folded => folded.follows ρ)
  obtain ⟨a', rest, left, others, rfl⟩ := List.forall₂_cons_left_iff.mp related
  obtain ⟨b', rest, right, none_left, rfl⟩ := List.forall₂_cons_left_iff.mp others
  obtain rfl := List.forall₂_nil_left_iff.mp none_left
  by_cases constant : ∃ q, FoldsTo (.binary op a b) q
  · obtain ⟨q, folds⟩ := constant
    have computed := evaluateConstant_folded all evaluate folds left right
    rw [computed] at follows ⊢
    exact .pure (.of_number (.num q) (fun _ _ => ⟨_, rfl⟩) (follows ⟨0⟩ _ ⟨0⟩ rfl))
  · have polynomial := (left.rebuilt right foldable).resolve_left constant
    obtain ⟨v, value⟩ := polynomial.foldable.atOrigin
    obtain ⟨⟨x, first⟩, y, second⟩ := value_operands value
    have bare : ∀ part ∈ [a', b'], part.condition = none := by
      simp [value_unconditioned first, value_unconditioned second]
    have single : ∀ part ∈ [a', b'], part.isSet = false := by simp [value_no_set first, value_no_set second]
    have shape : Succeeds (evaluateNode c evaluate (.binary op a b) [a', b']) IsPolynomial := by
      obtain ⟨d, decided⟩ := condition?_pure c (.binary op a b) single
      have defined : d ≠ some false := by
        have returned : Returns (condition? c (.binary op a b) [a', b']) fun d => d ≠ some false :=
          condition?_value value
        rw [decided] at returned
        exact returned ⟨0⟩ d ⟨0⟩ rfl
      rw [evaluateNode_bare rfl bare, decided, pure_bind, if_neg defined]
      refine (binaryRule?_polynomial polynomial).bind fun r offered => .pure ?_
      have result : IsPolynomial (r.getD (.binary op a' b')) := by
        cases r with
        | none => exact polynomial
        | some t => exact offered t rfl
      exact (confine_polynomial all foldable.operation result).symm ▸ result
    exact (shape.of_returns follows).mono fun r kept =>
      .of_number kept.1 (fun q folds => absurd ⟨q, folds⟩ constant) kept.2

/-- Evaluation computes the constants of an expression, with any number of reductions that may be nested. -/
theorem evaluateWithin_folded (fuel : Nat) (foldable : Foldable e) :
    Succeeds (evaluateWithin c (fuel + 1) e) (Folded e) :=
  foldM_holds .succeeds (fun foldable _ member => foldable.part member) (evaluateNode_folded all) foldable

theorem simplifyNode_folded {again : Expr → Computation Expr} {value : Computation Expr} (foldable : Foldable e)
    (evaluated : Succeeds value (Folded e)) (related : List.Forall₂ Folded e.children parts) :
    Succeeds (simplifyNode c again e value parts) (Folded e) := by
  rcases foldable.shape with ⟨q, rfl⟩ | ⟨x, rfl, plain⟩ | ⟨op, a, b, rfl⟩
  · exact .pure (.refl (.num q) rfl)
  · exact .pure (.refl (.var plain) rfl)
  have follows : Returns (simplifyNode c again (.binary op a b) value parts) fun r => ∀ ρ, Follows ρ (.binary op a b) r :=
    Returns.all fun ρ => simplifyNode_follows all _ (evaluated.returns.mono fun _ folded => folded.follows ρ) _
      (related.imp fun _ _ folded => folded.follows ρ)
  obtain ⟨a', rest, left, others, rfl⟩ := List.forall₂_cons_left_iff.mp related
  obtain ⟨b', rest, right, none_left, rfl⟩ := List.forall₂_cons_left_iff.mp others
  obtain rfl := List.forall₂_nil_left_iff.mp none_left
  have shape : Succeeds (simplifyNode c again (.binary op a b) value [a', b']) fun r =>
      IsPolynomial r ∧ ∀ q, FoldsTo (.binary op a b) q → ∃ z, r = .num z := by
    simp only [simplifyNode]
    refine evaluated.bind fun w folded => ?_
    split
    · next exact same =>
      rw [exactValue?_eq same, pure_bind, confine_polynomial all foldable.operation folded.polynomial]
      exact .pure ⟨folded.polynomial, fun q folds => ⟨_, folded.literal q folds⟩⟩
    · next inexact =>
      -- A constant has been computed by now.
      have varying (q : Rat) : ¬ FoldsTo (.binary op a b) q := by
        intro folds
        rw [folded.literal q folds] at inexact
        simp [exactValue?, Number.ofRat, Number.isExact, RealNumber.isExact, Number.isNaN, RealNumber.isNaN] at inexact
      have polynomial := (left.rebuilt right foldable).resolve_left (not_exists.mpr varying)
      obtain ⟨v, known⟩ := polynomial.foldable.atOrigin
      obtain ⟨⟨x, first⟩, y, second⟩ := value_operands known
      have bare : ∀ part ∈ [a', b'], part.condition = none := by
        simp [value_unconditioned first, value_unconditioned second]
      rw [liftConditions_bare bare, bind_assoc]
      refine (simplifyBinary?_polynomial polynomial).bind fun r offered => ?_
      rw [pure_bind]
      have result : IsPolynomial (r.getD (.binary op a' b')) := by
        cases r with
        | none => exact polynomial
        | some t => exact offered t rfl
      rw [show (Expr.binary op a b).withChildren [a', b'] = .binary op a' b' from rfl,
        confine_polynomial all foldable.operation result]
      exact .pure ⟨result, fun q folds => absurd folds (varying q)⟩
  exact (shape.of_returns follows).mono fun r kept => .of_number kept.1.1 kept.1.2 kept.2

/-- One pass of simplification computes the constants of an expression. -/
theorem simplifyWithin_folded (fuel : Nat) (foldable : Foldable e) :
    Succeeds (simplifyWithin c (fuel + 1) e) (Folded e) := by
  rw [simplifyWithin_foldM]
  refine foldM_holds .succeeds (fun foldable _ member => foldable.part member) (fun foldable related => ?_) foldable
  exact simplifyNode_folded all foldable (evaluateWithin_folded all allowance foldable) related

end Nodes
end ComputerAlgebra.Expr

import ComputerAlgebra.Proofs.Rational.Simplification

/-!
Operations that fail at operands which have values: a quotient by zero, and a negative power of
zero. Where the expression has a value elsewhere, nothing that simplification does to such a node
hides the failure, since every rule that could do so asks for a proof that something is not zero.
-/

namespace ComputerAlgebra.Expr

variable {c : Config} {ρ σ : Assignment} {v : Rat} {e : Expr}

/-- An operation that fails at an assignment although its operands have values there. -/
inductive Singular (ρ : Assignment) : Expr → Prop
  | quotient {a b : Expr} {x : Rat} (left : valueAt? ρ a = some x) (right : valueAt? ρ b = some 0) :
    Singular ρ (.binary .div a b)
  | power {a : Expr} {n : Int} (base : valueAt? ρ a = some 0) (below : n < 0) :
    Singular ρ (.binary .pow a (.num (.ofInt n)))

theorem Singular.undefined (singular : Singular ρ e) : valueAt? ρ e = none := by
  rw [Option.eq_none_iff_forall_ne_some]
  intro v value
  cases singular with
  | quotient left right =>
    obtain ⟨x, -, y, divisor, apart, -⟩ := valueAt?_div.mp value
    rw [right] at divisor
    exact apart (Option.some.inj divisor).symm
  | power base below =>
    obtain ⟨k, exponent, x, found, defined, -⟩ := valueAt?_pow.mp value
    rw [base] at found
    rw [Number.ofInt_injective (Expr.num.inj exponent)] at below
    exact defined below (Option.some.inj found).symm

/-- An expression without a value whose operands have values is such an operation. -/
theorem singular_of_operands (rational : IsRational e) (undefined : valueAt? ρ e = none)
    (covered : ∀ x ∈ e.names, (ρ x).isSome)
    (operands : ∀ part ∈ e.children, (valueAt? ρ part).isSome) : Singular ρ e := by
  cases rational with
  | num q => simp [valueAt?, Number.rational?_eq_some.mpr rfl] at undefined
  | @var x plain =>
    have given := covered x (by simp)
    simp only [valueAt?, plain, Bool.false_eq_true, if_false] at undefined
    simp [undefined] at given
  | @sum a b _ _ =>
    obtain ⟨x, left⟩ := Option.isSome_iff_exists.mp (operands a (by simp [children]))
    obtain ⟨y, right⟩ := Option.isSome_iff_exists.mp (operands b (by simp [children]))
    simp [valueAt?, left, right] at undefined
  | @minus a b _ _ =>
    obtain ⟨x, left⟩ := Option.isSome_iff_exists.mp (operands a (by simp [children]))
    obtain ⟨y, right⟩ := Option.isSome_iff_exists.mp (operands b (by simp [children]))
    simp [valueAt?, left, right] at undefined
  | @mul a b _ _ =>
    obtain ⟨x, left⟩ := Option.isSome_iff_exists.mp (operands a (by simp [children]))
    obtain ⟨y, right⟩ := Option.isSome_iff_exists.mp (operands b (by simp [children]))
    simp [valueAt?, left, right] at undefined
  | @div a b _ _ =>
    obtain ⟨x, left⟩ := Option.isSome_iff_exists.mp (operands a (by simp [children]))
    obtain ⟨y, right⟩ := Option.isSome_iff_exists.mp (operands b (by simp [children]))
    simp only [valueAt?, left, right, Option.bind_some, quotient?] at undefined
    split at undefined
    · next zero => exact .quotient left (zero ▸ right)
    · cases undefined
  | @pow a _ n =>
    obtain ⟨x, base⟩ := Option.isSome_iff_exists.mp (operands a (by simp [children]))
    have exponent : (Expr.num (.ofInt n)).integer? = some n := integer?_eq_some.mpr rfl
    simp only [valueAt?, base, exponent, Option.bind_some, power?] at undefined
    split at undefined
    · next zero => exact .power (zero.1 ▸ base) zero.2
    · cases undefined

theorem Singular.binary {op : BinaryOp} {a b a' b' : Expr} (singular : Singular ρ (.binary op a b))
    (left : Follows ρ a a') (right : Follows ρ b b') : Singular ρ (.binary op a' b') := by
  cases singular with
  | quotient first second => exact .quotient (left.value _ first) (right.value _ second)
  | power base below =>
    rw [right.literal _ rfl]
    exact .power (left.value _ base) below

/-- A rule that, where it applies, gives an operation that fails as well. -/
def Stays (ρ : Assignment) (rule : Computation (Option Expr)) : Prop :=
  Returns rule fun r => ∀ e, r = some e → Singular ρ e

theorem Stays.none : Stays ρ (pure Option.none) := Returns.pure (by simp)

theorem Stays.some (singular : Singular ρ e) : Stays ρ (pure (Option.some e)) := by
  refine Returns.pure ?_
  rintro _ ⟨rfl⟩
  exact singular

/-- An operation on literals fails everywhere or nowhere. -/
theorem Singular.not_literal {op : BinaryOp} {x y : Number}
    (singular : Singular ρ (.binary op (.num x) (.num y))) :
    valueAt? σ (.binary op (.num x) (.num y)) = none := by
  rw [Option.eq_none_iff_forall_ne_some]
  intro v value
  cases singular with
  | quotient left right =>
    obtain ⟨p, -, q, divisor, apart, -⟩ := valueAt?_div.mp value
    rw [valueAt?_num.mp right] at divisor
    exact apart (valueAt?_ofRat.mp divisor)
  | power base below =>
    obtain ⟨k, exponent, p, found, defined, -⟩ := valueAt?_pow.mp value
    rw [valueAt?_num.mp base] at found
    rw [Number.ofInt_injective (Expr.num.inj exponent)] at below
    exact defined below (valueAt?_ofRat.mp found)

section Evaluation
variable {evaluate : Expr → Computation Expr} {a b : Expr}

/-- What is zero at some assignment is never proved not to be. -/
theorem provablyNonzero_refused (faithful : Returns (evaluate e) (Follows ρ e))
    (zero : valueAt? ρ e = some 0) :
    Returns (provablyNonzero c evaluate e) fun found => found = false := by
  refine (provablyNonzero_value faithful zero).mono ?_
  intro found sound
  cases found with
  | true => exact absurd rfl (sound rfl)
  | false => rfl

theorem identityRule?_singular (faithful : ∀ e, Returns (evaluate e) (Follows ρ e)) {op : BinaryOp}
    (singular : Singular ρ (.binary op a b)) : Stays ρ (identityRule? c evaluate op a b) := by
  cases singular with
  | quotient left right =>
    simp only [identityRule?]
    split
    · next one =>
      rw [isOne_iff.mp one] at right
      simp at right
    split
    · refine Returns.bind (provablyNonzero_refused (faithful b) right) ?_
      rintro _ rfl
      exact Stays.none
    · exact Stays.none
  | @power a n base below =>
    simp only [identityRule?]
    split
    · next trivial =>
      rcases (Bool.or_eq_true _ _).mp trivial with one | zero
      · rw [isOne_iff.mp one] at base
        simp at base
      · have vanishes := whole_isZero.mp zero
        omega
    split
    · next one =>
      have unit := whole_isOne.mp one
      omega
    · exact Stays.none

theorem binaryRule?_singular (faithful : ∀ e, Returns (evaluate e) (Follows ρ e)) {op : BinaryOp}
    (singular : Singular ρ (.binary op a b)) (regular : valueAt? σ (.binary op a b) = some v) :
    Stays ρ (binaryRule? c evaluate op a b) := by
  have identity := identityRule?_singular (c := c) faithful singular
  have literal : ∀ x y, a = .num x → b = .num y → False := by
    rintro x y rfl rfl
    simp [singular.not_literal] at regular
  cases singular with
  | quotient | power =>
    simp only [binaryRule?]
    exact identity

theorem Singular.unconditioned {op : BinaryOp} (singular : Singular ρ (.binary op a b)) :
    ∀ part ∈ [a, b], part.condition = Option.none := by
  intro part member
  cases singular with
  | quotient left right =>
    rcases List.mem_pair.mp member with rfl | rfl
    · exact value_unconditioned left
    · exact value_unconditioned right
  | power base below =>
    rcases List.mem_pair.mp member with rfl | rfl
    · exact value_unconditioned base
    · rfl

/-- Such an operation is within the domain of arithmetic, and none of its operands is NaN. -/
theorem Singular.confine_eq {self outside : Expr}
    (arithmetic : self.codomain c = c.codomain) (singular : Singular ρ e) :
    confine c self e outside = e := by
  apply Expr.confine_eq
  · cases singular with
    | quotient left right => simp [children, value_not_nan left, value_not_nan right]
    | @power a n base below =>
      have whole : (Expr.num (.ofInt n)).isNaN = false := rfl
      simp [children, value_not_nan base, whole]
  · rw [arithmetic]
    cases singular <;> rfl

end Evaluation

/-- What stands in the place of an expression keeps its values at all assignments, and fails where
it fails provided that it has a value elsewhere. -/
structure Persists (ρ σ : Assignment) (e r : Expr) : Prop where
  follows : ∀ τ, Follows τ e r
  singular : Singular ρ e → ∀ v, valueAt? σ e = some v → Singular ρ r

/-- The parts of an operator expression with what stands in their place. -/
theorem persists_operands {op : BinaryOp} {a b : Expr} {parts : List Expr}
    (kept : List.Forall₂ (Persists ρ σ) (Expr.binary op a b).children parts) :
    ∃ a' b', parts = [a', b'] ∧ (∀ τ, Follows τ a a') ∧ ∀ τ, Follows τ b b' := by
  obtain ⟨a', rest, left, others, rfl⟩ := List.forall₂_cons_left_iff.mp kept
  obtain ⟨b', rest, right, none_left, rfl⟩ := List.forall₂_cons_left_iff.mp others
  obtain rfl := List.forall₂_nil_left_iff.mp none_left
  exact ⟨a', b', rfl, left.follows, right.follows⟩

section Nodes
variable {evaluate : Expr → Computation Expr}

theorem evaluateNode_singular (faithful : ∀ e, Returns (evaluate e) (Follows ρ e)) {op : BinaryOp}
    {a b a' b' : Expr} (singular : Singular ρ (.binary op a' b'))
    (regular : valueAt? σ (.binary op a' b') = some v) :
    Returns (evaluateNode c evaluate (.binary op a b) [a', b']) (Singular ρ) := by
  simp only [evaluateNode]
  refine Returns.bind (condition?_value regular) ?_
  intro d defined
  rw [if_neg defined]
  have rule : Stays ρ (evaluationRule c evaluate (.binary op a b) [a', b']) :=
    binaryRule?_singular faithful singular regular
  refine Returns.bind (liftConditions_plain .returns (.binary op a b) singular.unconditioned rule
    singular _) ?_
  intro r fails
  refine Returns.pure ?_
  rw [fails.confine_eq (value_codomain regular)]
  exact fails

theorem evaluateNode_persists (all : c.codomain.HoldsFractions)
    (faithful : ∀ e, Returns (evaluate e) (Follows ρ e)) (e : Expr)
    (parts : List Expr) (kept : List.Forall₂ (Persists ρ σ) e.children parts) :
    Returns (evaluateNode c evaluate e parts) (Persists ρ σ e) := by
  have follows : Returns (evaluateNode c evaluate e parts) fun r => ∀ τ, Follows τ e r :=
    Returns.all fun τ => evaluateNode_follows all e parts (kept.imp fun _ _ h => h.follows τ)
  have singular : Returns (evaluateNode c evaluate e parts) fun r =>
      ∀ (_ : Singular ρ e) (v : Rat) (_ : valueAt? σ e = some v), Singular ρ r := by
    refine Returns.all fun fails => Returns.all fun v => Returns.all fun value => ?_
    cases e with
    | binary op a b =>
      obtain ⟨a', b', rfl, left, right⟩ := persists_operands kept
      exact evaluateNode_singular faithful (fails.binary (left ρ) (right ρ))
        (((left σ).binary (right σ)).value v value)
    | num | var | bool | unary | lam | app | provided | piecewise | interval => cases fails
  exact (follows.and singular).mono fun r both => ⟨both.1, both.2⟩

end Nodes
end ComputerAlgebra.Expr

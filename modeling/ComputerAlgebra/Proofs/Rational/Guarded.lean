import ComputerAlgebra.Proofs.Rational.Singular

/-!
Simplification of operations that fail at their operands. The rules for quotients and powers ask for
a proof that a base or a divisor is not zero; there is none where it is zero at some assignment, and
the rules without that question keep the failure.
-/

namespace ComputerAlgebra.Expr

variable {c : Config} {ρ σ : Assignment} {v : Rat} {e : Expr} (all : c.codomain.HoldsFractions)

section Identities
include all

theorem nonzero_refused (zero : valueAt? ρ e = some 0) :
    Returns (nonzero c e) fun found => found = false :=
  provablyNonzero_refused (evaluate_follows all e) zero

/-- A number below zero is never proved to be above it. -/
theorem positive_refused {n : Int} (below : n < 0) :
    Returns (positive c (.num (.ofInt n))) fun found => found = false := by
  refine Returns.bind Returns.trivial fun _ _ => ?_
  refine Returns.bind (evaluate_follows (ρ := fun _ => none) all (.num (.ofInt n))) ?_
  intro r followed
  rw [followed.literal _ rfl]
  refine Returns.pure ?_
  have negative : (n : Rat) < 0 := by exact_mod_cast below
  simp [RealNumber.isNegative, negative]

theorem divIdentity_singular {a b : Expr} (right : valueAt? ρ b = some 0) :
    Stays ρ (simplifyIdentity? c .div a b) := by
  have refused := nonzero_refused all right
  have unit : Stays ρ (do
      if a = b then
        if ← nonzero c b then return some 1
      return none) := by
    split
    · refine Returns.bind refused ?_
      rintro _ rfl
      exact Stays.none
    · exact Stays.none
  simp only [simplifyIdentity?]
  split
  · next one =>
    rw [isOne_iff.mp one] at right
    simp at right
  split
  · next one =>
    rw [isMinusOne_iff.mp one] at right
    simp at right
  split
  · refine Returns.bind refused ?_
    rintro _ rfl
    exact unit
  · exact unit

theorem powIdentity_singular {a : Expr} {n : Int} (base : valueAt? ρ a = some 0) (below : n < 0) :
    Stays ρ (simplifyIdentity? c .pow a (.num (.ofInt n))) := by
  simp only [simplifyIdentity?]
  split
  · next trivial =>
    rcases (Bool.or_eq_true _ _).mp trivial with one | zero
    · rw [isOne_iff.mp one] at base
      simp at base
    · have vanishes := whole_isZero.mp zero
      omega
  split
  · next one =>
    have unit := whole_isOne.mp one
    omega
  split
  · exact Stays.some (.quotient (valueAt?_one.mpr rfl) base)
  split
  · refine Returns.bind (positive_refused all below) ?_
    rintro _ rfl
    exact Stays.none
  · exact Stays.none

theorem simplifyBinary?_singular {op : BinaryOp} {a b : Expr}
    (singular : Singular ρ (.binary op a b)) (regular : valueAt? σ (.binary op a b) = some v) :
    Stays ρ (simplifyBinary? c op a b) := by
  have literal : ∀ x y, a = .num x → b = .num y → False := by
    rintro x y rfl rfl
    simp [singular.not_literal] at regular
  cases singular with
  | quotient left right =>
    simp only [simplifyBinary?]
    exact divIdentity_singular all right
  | power base below =>
    simp only [simplifyBinary?]
    exact powIdentity_singular all base below

end Identities

section Reduction
include all

theorem simplifyNode_singular {again : Expr → Computation Expr} {op : BinaryOp} {a b a' b' : Expr}
    {value : Computation Expr} (evaluated : Returns value (Singular ρ))
    (singular : Singular ρ (.binary op a' b')) (regular : valueAt? σ (.binary op a' b') = some v) :
    Returns (simplifyNode c again (.binary op a b) value [a', b']) (Singular ρ) := by
  simp only [simplifyNode]
  refine Returns.bind evaluated ?_
  intro w fails
  have unsettled : exactValue? (.binary op a b) w = none := by cases fails <;> rfl
  rw [unsettled]
  have rule : Stays ρ (simplificationRule c again (.binary op a b) [a', b']) :=
    simplifyBinary?_singular all singular regular
  refine Returns.bind (liftConditions_plain .returns (.binary op a b) singular.unconditioned rule
    singular _) ?_
  intro r fails
  refine Returns.pure ?_
  rw [fails.confine_eq (value_codomain regular)]
  exact fails

theorem simplifyNode_persists {again : Expr → Computation Expr} {value : Computation Expr}
    (e : Expr) (evaluated : Returns value (Persists ρ σ e)) (parts : List Expr)
    (kept : List.Forall₂ (Persists ρ σ) e.children parts) :
    Returns (simplifyNode c again e value parts) (Persists ρ σ e) := by
  have follows : Returns (simplifyNode c again e value parts) fun r => ∀ τ, Follows τ e r := by
    refine Returns.all fun τ => simplifyNode_follows all e ?_ parts ?_
    · exact evaluated.mono fun r both => both.follows τ
    · exact kept.imp fun _ _ both => both.follows τ
  have singular : Returns (simplifyNode c again e value parts) fun r =>
      ∀ (_ : Singular ρ e) (v : Rat) (_ : valueAt? σ e = some v), Singular ρ r := by
    refine Returns.all fun fails => Returns.all fun v => Returns.all fun regular => ?_
    cases e with
    | binary op a b =>
      obtain ⟨a', b', rfl, left, right⟩ := persists_operands kept
      exact simplifyNode_singular all (evaluated.mono fun r both => both.singular fails v regular)
        (fails.binary (left ρ) (right ρ)) (((left σ).binary (right σ)).value v regular)
    | num | var | bool | unary | lam | app | provided | piecewise | interval => cases fails
  exact (follows.and singular).mono fun r both => ⟨both.1, both.2⟩

theorem innerSimplified_persists (e : Expr) : Returns (innerSimplified c e) (Persists ρ σ e) := by
  have kept : KeptByNodes c (Persists ρ σ) :=
    ⟨evaluateNode_persists all (evaluate_follows all),
      fun again e value parts evaluated persists =>
        simplifyNode_persists all e evaluated parts persists⟩
  exact kept.innerSimplified e

end Reduction

section Passes
include all

theorem guardedPower?_singular {base : Expr} {exponent : Computation Expr}
    (zero : valueAt? ρ base = some 0) : Stays ρ (guardedPower? c false base exponent) := by
  unfold guardedPower?
  rw [if_neg (by simp)]
  refine Returns.bind (nonzero_refused all zero) ?_
  rintro _ rfl
  exact Stays.none

theorem mergePower_singular {a : Expr} {n : Int} (base : valueAt? ρ a = some 0) (below : n < 0) :
    Stays ρ (mergePowers? c (.binary .pow a (.num (.ofInt n)))) := by
  unfold mergePowers?
  split
  · next same => cases same
  · next inner p m same =>
    obtain ⟨rfl, rfl⟩ : a = .binary .pow inner p ∧ Expr.num (.ofInt n) = m := by simpa using same
    obtain ⟨k, rfl, y, based, -, vanishes⟩ := valueAt?_pow.mp base
    rw [eq_zero_of_zpow_eq_zero vanishes] at based
    rw [integer?_eq_some.mpr rfl]
    have unsafe_power : (decide (0 ≤ n)) = false := by simpa using below
    simp only [unsafe_power, Bool.and_false]
    exact guardedPower?_singular all based
  · exact Stays.none

theorem flattenDivision?_singular {a b : Expr} {x : Rat} (left : valueAt? ρ a = some x)
    (right : valueAt? ρ b = some 0) : Stays ρ (flattenDivision? c (.binary .div a b)) := by
  have refused := nonzero_refused all right
  have cancelled : Stays ρ (cancelled? c b a) := by
    unfold cancelled?
    split
    · refine Returns.bind refused ?_
      rintro _ rfl
      exact Stays.none
    · exact Stays.none
  unfold flattenDivision?
  split
  · next s t b same =>
    cases same
    obtain ⟨p, above, q, below, -, -⟩ := valueAt?_div.mp left
    refine Stays.some (.quotient above (valueAt?_mul.mpr ⟨q, below, 0, right, mul_zero q⟩))
  · next same =>
    cases same
    have inverted : Stays ρ (invertedQuotient? c a b) := by
      unfold invertedQuotient?
      split
      · next s t =>
        obtain ⟨p, above, q, below, regular, vanishes⟩ := valueAt?_div.mp right
        obtain rfl : p = 0 := (div_eq_zero_iff.mp vanishes).resolve_right regular
        refine Returns.bind Returns.trivial fun found _ => ?_
        split
        · exact Stays.some (.quotient (valueAt?_mul.mpr ⟨x, left, q, below, rfl⟩) above)
        · exact Stays.none
      · exact Stays.none
    refine Returns.bind inverted ?_
    intro r stays
    split
    · next flat => exact Stays.some (stays flat rfl)
    · exact cancelled
  · exact Stays.none

theorem commonNode_singular (singular : Singular ρ e) : Returns (commonNode c e) (Singular ρ) := by
  cases singular with
  | quotient left right =>
    unfold commonNode
    refine firstOf_returns Stays.none ?_
    refine firstOf_returns Stays.none ?_
    refine firstOf_returns Stays.none ?_
    refine firstOf_returns (flattenDivision?_singular all left right) ?_
    exact Returns.pure (.quotient left right)
  | power base below =>
    unfold commonNode
    refine firstOf_returns Stays.none ?_
    refine firstOf_returns Stays.none ?_
    refine firstOf_returns (mergePower_singular all base below) ?_
    refine firstOf_returns Stays.none ?_
    exact Returns.pure (.power base below)

theorem powerNode_singular (singular : Singular ρ e) : Returns (powerNode c e) (Singular ρ) := by
  cases singular with
  | @quotient a b x left right =>
    obtain ⟨m, y, first, based, definedm, -⟩ := splitPower_value left
    obtain ⟨n, z, second, based', definedn, vanishes⟩ := splitPower_value right
    have zero := eq_zero_of_zpow_eq_zero vanishes
    rw [zero] at based'
    simp only [powerNode]
    split
    · next alike =>
      simp only [Bool.and_eq_true, decide_eq_true_eq] at alike
      rw [← alike.1.2] at based'
      refine Returns.bind (nonzero_refused all based') ?_
      rintro _ rfl
      exact Returns.pure (.quotient left right)
    · exact Returns.pure (.quotient left right)
  | power base below => exact Returns.pure (.power base below)

omit all in
theorem circularNode_singular (singular : Singular ρ e) : circularNode e = e := by
  cases singular with
  | quotient left right =>
    unfold circularNode
    split
    case h_8 => rfl
    all_goals
      next same => cases same <;> simp [valueAt?] at right
  | power base below => rfl

theorem pass_singular (pass : Pass) (singular : Singular ρ e) :
    Returns (pass.atNode c e) (Singular ρ) := by
  cases pass with
  | sort => cases singular <;> exact Returns.pure (by constructor <;> assumption)
  | common => exact commonNode_singular all singular
  | power => exact powerNode_singular all singular
  | circular =>
    refine Returns.pure ?_
    rw [circularNode_singular singular]
    exact singular
  | boolean => cases singular <;> exact Returns.pure (by constructor <;> assumption)

theorem pass_persists (pass : Pass) (e : Expr) : Returns (pass.run c e) (Persists ρ σ e) := by
  refine foldM_returns ?_ e
  intro e parts kept
  have walk : ∀ r, (∀ τ, Follows τ e r) → (Singular ρ e → Singular ρ r) →
      Returns (pass.atNode c r) (Persists ρ σ e) := by
    intro r follows fails
    have node : Returns (pass.atNode c r) fun t => ∀ τ, Follows τ r t :=
      Returns.all fun τ => atNode_follows all pass r
    have singular : Returns (pass.atNode c r) fun t => ∀ _ : Singular ρ e, Singular ρ t :=
      Returns.all fun given => pass_singular all pass (fails given)
    exact (node.and singular).mono fun t both =>
      ⟨fun τ => (follows τ).trans (both.1 τ), fun given _ _ => both.2 given⟩
  cases e with
  | num | bool =>
    obtain rfl := List.forall₂_nil_left_iff.mp kept
    exact walk _ (fun _ => Follows.refl _) id
  | var x => exact walk _ (fun _ => Follows.refl _) id
  | binary op a b =>
    obtain ⟨a', b', rfl, left, right⟩ := persists_operands kept
    exact walk _ (fun τ => (left τ).binary (right τ)) fun fails => fails.binary (left ρ) (right ρ)
  | unary | lam | app | provided | piecewise | interval =>
    refine Returns.trivial.mono fun r _ => ⟨fun τ => ?_, fun fails => by cases fails⟩
    exact Follows.vacuous (by simp) (by simp [valueAt?])

end Passes

section Collapse

/-- An operation that fails is not multiplied out. -/
theorem multiplyOut_singular (singular : Singular ρ e) :
    Polynomial.Answers (Polynomial.multiplyOut c e) (· = .atom e) := by
  cases singular with
  | @quotient a b x left right =>
    simp only [Polynomial.multiplyOut]
    split
    · next q divisor =>
      rw [rational?_eq_some.mp divisor] at right
      rw [if_pos (valueAt?_ofRat.mp right).symm]
      exact Polynomial.ofAtom_atom c _
    · exact Polynomial.ofAtom_atom c _
  | @power a n base below =>
    have exponent : (Expr.num (.ofInt n)).integer? = some n := integer?_eq_some.mpr rfl
    simp only [Polynomial.multiplyOut, exponent, if_pos below]
    exact Polynomial.ofAtom_atom c _

theorem collapse?_singular (singular : Singular ρ e) : Stays ρ (collapse? c e) := by
  have polynomial : Returns (Polynomial.ofExpr? c e) fun r => ∀ p, r = some p → p = .atom e := by
    refine Returns.bind Returns.trivial fun _ _ => ?_
    exact multiplyOut_singular singular
  refine Returns.bind polynomial ?_
  intro r single
  split
  · next p =>
    refine Returns.get fun u => ?_
    rw [single p rfl, Polynomial.toExpr_atom]
    exact Stays.some singular
  · exact Stays.none

/-- An operation that fails at an assignment still does after any part of a round, provided that it
has a value elsewhere. -/
theorem singular_keptByRounds (all : c.codomain.HoldsFractions) (ρ σ : Assignment) (v : Rat) :
    KeptByRounds c fun e => Singular ρ e ∧ valueAt? σ e = some v where
  pass pass e given := (pass_persists all pass e).mono fun _ kept =>
    ⟨kept.singular given.1 v given.2, (kept.follows σ).value v given.2⟩
  reduce given := (innerSimplified_persists all _).mono fun _ kept =>
    ⟨kept.singular given.1 v given.2, (kept.follows σ).value v given.2⟩
  collapse given := ((collapse?_singular given.1).and (collapse?_value given.2)).mono
    fun _ both e' same => ⟨both.1 e' same, both.2 e' same⟩

end Collapse
end ComputerAlgebra.Expr

import ComputerAlgebra.Proofs.Polynomial.Reading
import ComputerAlgebra.Proofs.Rational.Collection
import ComputerAlgebra.Proofs.Semantics.Sorting
import ComputerAlgebra.Proofs.Simplification.Rounds

/-!
The passes over rational trees. Sorting, collection and the merging of powers keep the value at
every node and so over the whole tree; the identities of circular functions and of connectives find
nothing to do in an expression that has a value.
-/

namespace ComputerAlgebra.Expr

variable {c : Config} {ρ : Assignment} {v : Rat}

theorem sortNode_follows (e : Expr) : Returns (sortNode c e) (Follows ρ e) := by
  cases e with
  | binary op a b => exact follows_of_value fun v value => (sortNode_value (valueAt?_ring ρ) value).returns
  | num | var | bool | unary | lam | app | provided | piecewise | interval =>
    exact Returns.pure (Follows.refl _)

theorem squareOf?_value {f : Circular} {e : Expr} (value : valueAt? ρ e = some v) :
    squareOf? f e = none := by
  unfold squareOf?
  split
  · obtain ⟨k, rfl, x, base, -⟩ := valueAt?_pow.mp value
    simp [valueAt?] at base
  · rfl

theorem circularNode_value {e : Expr} (value : valueAt? ρ e = some v) : circularNode e = e := by
  unfold circularNode
  split
  · obtain ⟨x, left, y, right, rfl⟩ := valueAt?_sum.mp value
    simp [isPythagorean, squareOf?_value left, squareOf?_value right]
  any_goals simp [valueAt?] at value
  rfl

theorem booleanNode_value {e : Expr} (value : valueAt? ρ e = some v) : booleanNode e = e := by
  unfold booleanNode
  split
  any_goals simp [valueAt?] at value
  rfl

/-- A rewriting of nodes that is right at every node is right over the whole tree. -/
theorem replaceM_follows {f : Expr → Computation Expr}
    (atNode : ∀ e, Returns (f e) (Follows ρ e)) (e : Expr) :
    Returns (replaceM f e) (Follows ρ e) := by
  refine foldM_returns ?_ e
  intro e parts followed
  cases e with
  | num | bool =>
    obtain rfl := List.forall₂_nil_left_iff.mp followed
    exact atNode _
  | var x => exact atNode _
  | binary op a b =>
    obtain ⟨a', rest, left, others, rfl⟩ := List.forall₂_cons_left_iff.mp followed
    obtain ⟨b', rest, right, none_left, rfl⟩ := List.forall₂_cons_left_iff.mp others
    obtain rfl := List.forall₂_nil_left_iff.mp none_left
    refine (atNode (.binary op a' b')).mono ?_
    intro r after
    exact (left.binary right).trans after
  | unary | lam | app | provided | piecewise | interval =>
    exact Returns.trivial.mono fun r _ => Follows.vacuous (by simp) (by simp [valueAt?])

theorem atNode_follows (all : c.codomain.HoldsFractions) (pass : Pass) (e : Expr) :
    Returns (pass.atNode c e) (Follows ρ e) := by
  cases pass with
  | sort => exact sortNode_follows e
  | common => exact commonNode_follows all e
  | power => exact powerNode_follows all e
  | circular =>
    refine Returns.pure ⟨?_, fun v value => by rw [circularNode_value value]; exact value⟩
    rintro z rfl
    rfl
  | boolean =>
    refine Returns.pure ⟨?_, fun v value => by rw [booleanNode_value value]; exact value⟩
    rintro z rfl
    rfl

/-- A pass keeps the value of an expression wherever it has one. -/
theorem pass_follows (all : c.codomain.HoldsFractions) (pass : Pass) (e : Expr) :
    Returns (pass.run c e) (Follows ρ e) :=
  replaceM_follows (atNode_follows all pass) e

end ComputerAlgebra.Expr

/-!
Simplification of rational expressions in rounds. The polynomial form has the value of the
expression wherever it has one, and so has every candidate of a round.
-/

namespace ComputerAlgebra.Expr

variable {c : Config} {ρ : Assignment}

/-- The values at an assignment are a reading of expressions in the fractions. -/
theorem valueAt?_reading (ρ : Assignment) :
    Reading (fun e x => valueAt? ρ e = some x) fun e => (valueAt? ρ e).getD 0 where
  unique value := by rw [value]; rfl
  ofRat := valueAt?_ofRat
  sum := valueAt?_sum
  minus := valueAt?_minus
  mul := valueAt?_mul
  quotient := by
    intro a q v regular value
    obtain ⟨x, left, y, right, -, rfl⟩ := valueAt?_div.mp value
    rw [valueAt?_ofRat.mp right]
    refine ⟨x, left, ?_⟩
    rw [div_eq_inv_mul]
    rfl
  power := by
    intro a v n
    rw [valueAt?_pow]
    constructor
    · rintro ⟨k, exponent, x, base, -, rfl⟩
      have same : (n : Int) = k := Number.ofInt_injective (Expr.num.inj exponent)
      rw [← same, zpow_natCast]
      exact ⟨x, base, rfl⟩
    · rintro ⟨x, base, rfl⟩
      exact ⟨n, rfl, x, base, by omega, zpow_natCast x n⟩

theorem collapse?_value {e : Expr} {v : Rat} (value : valueAt? ρ e = some v) :
    Keeps ρ v (collapse? c e) := by
  unfold collapse?
  have polynomial : Returns (Polynomial.ofExpr? c e) fun r => ∀ p, r = some p →
      Polynomial.Represents (fun e x => valueAt? ρ e = some x) (fun e => (valueAt? ρ e).getD 0) p v := by
    refine Returns.bind Returns.trivial fun _ _ => ?_
    exact Polynomial.multiplyOut_represents (valueAt?_reading ρ) c e value
  refine Returns.bind polynomial ?_
  intro r represents
  split
  · next p =>
    refine Returns.get fun u => ?_
    exact Keeps.some (Polynomial.toExpr_value (valueAt?_reading ρ) u (represents p rfl))
  · exact Keeps.none

/-- A value that an expression has is kept by all parts of a round. -/
theorem value_keptByRounds (all : c.codomain.HoldsFractions) (ρ : Assignment) (v : Rat) :
    KeptByRounds c fun e => valueAt? ρ e = some v where
  pass pass e value := (pass_follows all pass e).mono fun _ follows => follows.value v value
  reduce value := (innerSimplified_follows all _).mono fun _ follows => follows.value v value
  collapse value := collapse?_value value

end ComputerAlgebra.Expr

import ComputerAlgebra.Proofs.Computation
import ComputerAlgebra.Proofs.Expr.Children
import ComputerAlgebra.Proofs.Polynomial.Atoms
import ComputerAlgebra.Proofs.Rational.Value

/-!
Multiplying out follows the structure of an expression: sums, differences, products, quotients by a
fraction other than zero and powers with a natural exponent are taken apart, fractions are constants,
and what is left are atoms. What each operation on polynomials keeps, and what is known of the atoms,
is known of the polynomial of an expression.
-/

namespace ComputerAlgebra

namespace Expr

/-- The expressions that are not taken apart when a polynomial is multiplied out. -/
def IsAtom : Expr → Prop
  | .binary .sum _ _ | .binary .minus _ _ | .binary .mul _ _ => False
  | .binary .div _ b => ∀ q, b.rational? = some q → q = 0
  | .binary .pow _ n => ∀ k, n.integer? = some k → k < 0
  | e => e.rational? = none

end Expr

namespace Polynomial

/-- What the operations on polynomials keep between an expression and its polynomial, products and powers
under every limit on the count of terms with the property `L`. -/
structure Structural (P : Expr → Polynomial → Prop) (L : Limit → Prop := fun _ => True) : Prop where
  sum : ∀ {a b p q}, P a p → P b q → P (.binary .sum a b) (add p q)
  minus : ∀ {a b p q}, P a p → P b q → P (.binary .minus a b) (add p (scale (-1) q))
  mul : ∀ {a b p q r} {limit : Limit}, L limit → P a p → P b q → mul? limit p q = some r →
    P (.binary .mul a b) r
  quotient : ∀ {a p} {k : Rat}, k ≠ 0 → P a p → P (.binary .div a (.num (.ofRat k))) (scale k⁻¹ p)
  one : ∀ {a p}, P a p → P (.binary .pow a (.num (.ofInt 0))) (constant 1)
  power : ∀ {a p r} {n : Nat} {limit : Limit}, L limit → n ≠ 0 → P a p → pow? limit p n = some r →
    P (.binary .pow a (.num (.ofInt n))) r
  constant : ∀ k, P (.num (.ofRat k)) (constant k)

theorem over_structural {S : Expr → Prop} : Structural fun _ p => p.Over S where
  sum := over_add
  minus left right := over_add left (over_scale right)
  mul _ := over_mul?
  quotient _ left := over_scale left
  one _ := over_constant 1
  power _ _ base found := over_pow? base found
  constant := over_constant

variable {J : Judgment} {c : Config} {P : Expr → Polynomial → Prop} {L : Limit → Prop} {Q : Expr → Prop}

/-- The polynomial of an expression, from its atoms and from what the operations keep. What is known of
an expression may be needed of its operands. -/
theorem multiplyOut_structural (rules : Structural P L)
    (bounded : J.Holds (liftM c.expansionBound : Computation (Option TermBound)) L)
    (operands : ∀ {op a b}, Q (.binary op a b) → Q a ∧ Q b)
    (atoms : ∀ e, e.IsAtom → Q e → J.Answers (ofAtom c e) (P e)) (e : Expr) :
    Q e → J.Answers (multiplyOut c e) (P e) := by
  have limited {f : Limit → Option Polynomial} {whole : Expr}
      (found : ∀ limit r, L limit → f limit = some r → P whole r) :
      J.Answers (OptionT.mk do return f (← c.expansionBound)) (P whole) :=
    J.bind bounded fun limit known => J.pure fun r same => found limit r known same
  induction e using Expr.children_induction with
  | node e ih =>
    intro known
    unfold multiplyOut
    split
    · next a b =>
      refine J.answers_bind (ih a (by simp [Expr.children]) (operands known).1) fun p left => ?_
      refine J.answers_bind (ih b (by simp [Expr.children]) (operands known).2) fun q right => ?_
      exact J.answers_pure (rules.sum left right)
    · next a b =>
      refine J.answers_bind (ih b (by simp [Expr.children]) (operands known).2) fun q right => ?_
      refine J.answers_bind (ih a (by simp [Expr.children]) (operands known).1) fun p left => ?_
      exact J.answers_pure (rules.minus left right)
    · next a b =>
      refine J.answers_bind (ih a (by simp [Expr.children]) (operands known).1) fun p left => ?_
      refine J.answers_bind (ih b (by simp [Expr.children]) (operands known).2) fun q right => ?_
      exact limited fun limit r known found => rules.mul known left right found
    · next a b =>
      cases divisor : b.rational? with
      | none => exact atoms _ (by simp [Expr.IsAtom, divisor]) known
      | some k =>
        dsimp only
        split
        · next zero => exact atoms _ (by simp [Expr.IsAtom, divisor, zero]) known
        · next regular =>
          refine J.answers_bind (ih a (by simp [Expr.children]) (operands known).1) fun p left => ?_
          rw [Expr.rational?_eq_some.mp divisor]
          exact J.answers_pure (rules.quotient regular left)
    · next a n =>
      cases exponent : n.integer? with
      | none => exact atoms _ (by simp [Expr.IsAtom, exponent]) known
      | some k =>
        dsimp only
        split
        · next negative => exact atoms _ (by simpa [Expr.IsAtom, exponent] using negative) known
        · next above =>
          obtain ⟨m, rfl⟩ := Int.eq_ofNat_of_zero_le (not_lt.mp above)
          refine J.answers_bind (ih a (by simp [Expr.children]) (operands known).1) fun p base => ?_
          rw [Expr.integer?_eq_some.mp exponent]
          split
          · next zero =>
            rw [zero]
            exact J.answers_pure (rules.one base)
          · next positive =>
            exact limited fun limit r known found => rules.power known (by simpa using positive) base found
    · next sum minus mul div pow =>
      cases fraction : e.rational? with
      | none =>
        refine atoms _ ?_ known
        unfold Expr.IsAtom
        split
        · exact sum _ _ rfl
        · exact minus _ _ rfl
        · exact mul _ _ rfl
        · exact absurd rfl (div _ _)
        · exact absurd rfl (pow _ _)
        · exact fraction
      | some k =>
        rw [Expr.rational?_eq_some.mp fraction]
        exact J.answers_pure (rules.constant k)

theorem multiplyOut_atom {e : Expr} (atom : e.IsAtom) : multiplyOut c e = ofAtom c e := by
  unfold Expr.IsAtom at atom
  split at atom
  · cases atom
  · cases atom
  · cases atom
  · next b =>
    rw [multiplyOut]
    split
    · next q divisor => rw [if_pos (atom q divisor)]
    · rfl
  · next n =>
    rw [multiplyOut]
    split
    · next k exponent => rw [if_pos (atom k exponent)]
    · rfl
  · next sum minus mul div pow =>
    rw [multiplyOut]
    · simp only [atom]
    · exact sum
    · exact minus
    · exact mul
    · exact div
    · exact pow

theorem multiplyOut_div (c : Config) (a : Expr) {q : Rat} (nonzero : q ≠ 0) :
    multiplyOut c (.binary .div a (.num (.ofRat q))) =
      (do return scale q⁻¹ (← multiplyOut c a)) := by
  have divisor : (Expr.num (.ofRat q)).rational? = some q := rfl
  rw [multiplyOut, divisor]
  exact if_neg nonzero

theorem multiplyOut_pow (c : Config) (a : Expr) (n : Nat) :
    multiplyOut c (.binary .pow a (.num (.ofInt n))) =
      (do
        let p ← multiplyOut c a
        if n = 0 then return constant 1
        OptionT.mk do return pow? (← c.expansionBound) p n) := by
  have exponent : (Expr.num (.ofInt n)).integer? = some (n : Int) := Expr.integer?_eq_some.mpr rfl
  rw [multiplyOut, exponent]
  have zero : ((n : Int) = 0) = (n = 0) := by simp
  simp only [show ¬ (n : Int) < 0 by omega, if_false, zero, Int.toNat_natCast]

end Polynomial
end ComputerAlgebra

import ComputerAlgebra.Proofs.Polynomial.Conversion
import ComputerAlgebra.Proofs.Polynomial.Evaluation
import Mathlib.Tactic.Linarith

/-!
Expressions as polynomials and back, under any reading of expressions in a commutative ring that
contains the fractions: the polynomial of an expression has the value of the expression, and the
expression of a polynomial has the value of the polynomial.
-/

namespace ComputerAlgebra

variable {A : Type*} [CommRing A] [Algebra ℚ A] {M : Expr → A → Prop} {α : Expr → A}

/-- A way to read expressions as elements of a ring. It may leave some of them without a value;
sums, products and the like have one exactly when their operands do. -/
structure Reading (M : Expr → A → Prop) (α : Expr → A) : Prop where
  unique : ∀ {e x}, M e x → α e = x
  ofRat : ∀ {q x}, M (.num (.ofRat q)) x ↔ x = algebraMap ℚ A q
  sum : ∀ {a b v}, M (.binary .sum a b) v ↔ ∃ x, M a x ∧ ∃ y, M b y ∧ x + y = v
  minus : ∀ {a b v}, M (.binary .minus a b) v ↔ ∃ x, M a x ∧ ∃ y, M b y ∧ x - y = v
  mul : ∀ {a b v}, M (.binary .mul a b) v ↔ ∃ x, M a x ∧ ∃ y, M b y ∧ x * y = v
  quotient : ∀ {a q v}, q ≠ 0 → M (.binary .div a (.num (.ofRat q))) v →
    ∃ x, M a x ∧ algebraMap ℚ A q⁻¹ * x = v
  power : ∀ {a v} {n : Nat}, M (.binary .pow a (.num (.ofInt n))) v ↔ ∃ x, M a x ∧ x ^ n = v

namespace Polynomial

/-- A polynomial over atoms that have values, and itself of the given value. -/
def Represents (M : Expr → A → Prop) (α : Expr → A) (p : Polynomial) (v : A) : Prop :=
  p.Over (fun a => M a (α a)) ∧ p.eval α = v

namespace KeyedTerm

def product (α : Expr → A) (t : KeyedTerm) : A :=
  (t.factors.map fun f => α f.atom ^ f.power).prod

def eval (α : Expr → A) (t : KeyedTerm) : A := algebraMap ℚ A t.coefficient * t.product α

def Over (P : Expr → Prop) (t : KeyedTerm) : Prop := ∀ f ∈ t.factors, P f.atom

omit [Algebra ℚ A] in
theorem ofTerm_product (u : FloatUnit) (m : Monomial) (q : Rat) :
    (ofTerm u m q).product α = m.eval α := by
  have sorted : (ofTerm u m q).factors.Perm (m.map fun f => ⟨f.1.canonicalKey u, f.1, f.2⟩) :=
    List.mergeSort_perm _ _
  rw [product, (sorted.map fun f => α f.atom ^ f.power).prod_eq, List.map_map, Monomial.eval]
  rfl

theorem ofTerm_over {P : Expr → Prop} {u : FloatUnit} {m : Monomial} {q : Rat} (known : m.Over P) :
    (ofTerm u m q).Over P := by
  intro f member
  simp only [ofTerm, List.mem_mergeSort, List.mem_map] at member
  obtain ⟨s, inside, rfl⟩ := member
  exact known s inside

end KeyedTerm

theorem keyedTerms_over {P : Expr → Prop} {p : Polynomial} (u : FloatUnit) (known : p.Over P) :
    ∀ t ∈ keyedTerms u p, t.Over P := by
  intro t member
  obtain ⟨s, inside, rfl⟩ := List.mem_map.mp (List.mem_mergeSort.mp member)
  exact KeyedTerm.ofTerm_over (known s inside)

/-- A property of fractions that goes over to natural powers, products, sums and differences. -/
structure Written (P : Expr → Prop) : Prop where
  number : ∀ q, P (ratExpr q)
  power : ∀ {a} (n : Nat), P a → P (.binary .pow a (.num (Number.ofInt n)))
  operation : ∀ {op a b}, op ∈ [BinaryOp.mul, .sum, .minus] → P a → P b → P (.binary op a b)

namespace Written
variable {P : Expr → Prop} (written : Written P)
include written

theorem factorExpr {a : Expr} (holds : P a) (n : Nat) : P (factorExpr a n) := by
  unfold Polynomial.factorExpr
  split
  · exact holds
  · exact written.power n holds

theorem termExpr {t : KeyedTerm} (known : t.Over P) (k : Rat) : P (termExpr k t.product?) := by
  have times (factors : List KeyedFactor) (known : ∀ f ∈ factors, P f.atom) : ∀ {e : Expr}, P e →
      P (factors.foldl (fun e g => .binary .mul e (Polynomial.factorExpr g.atom g.power)) e) := by
    induction factors with
    | nil => exact fun holds => holds
    | cons f factors ih =>
      intro e holds
      rw [List.forall_mem_cons] at known
      exact ih known.2 (written.operation (by simp) holds (written.factorExpr known.1 _))
  obtain ⟨factors, q⟩ := t
  cases factors with
  | nil => exact written.number k
  | cons f factors =>
    obtain ⟨first, rest⟩ := List.forall_mem_cons.mp known
    have product := times factors rest (written.factorExpr first f.power)
    simp only [KeyedTerm.product?, Polynomial.termExpr]
    split
    · exact product
    · exact written.operation (by simp) (written.number k) product

theorem toExpr (u : FloatUnit) {p : Polynomial} (known : p.Over P) : P (toExpr u p) := by
  have plus (terms : List KeyedTerm) (known : ∀ t ∈ terms, t.Over P) : ∀ {sum : Expr}, P sum →
      P (terms.foldl appendTerm sum) := by
    induction terms with
    | nil => exact fun holds => holds
    | cons t terms ih =>
      intro sum holds
      rw [List.forall_mem_cons] at known
      refine ih known.2 (written.operation ?_ holds (written.termExpr known.1 _))
      split <;> simp
  have terms := keyedTerms_over u known
  unfold Polynomial.toExpr
  generalize keyedTerms u p = items at terms
  cases items with
  | nil => exact written.number 0
  | cons t items =>
    rw [List.forall_mem_cons] at terms
    exact plus items terms.2 (written.termExpr terms.1 _)

end Written

section Writing
variable (reading : Reading M α)
include reading

theorem factorExpr_value {a : Expr} (value : M a (α a)) (n : Nat) :
    M (factorExpr a n) (α a ^ n) := by
  unfold factorExpr
  split
  · next one =>
    rw [one, pow_one]
    exact value
  · exact reading.power.mpr ⟨α a, value, rfl⟩

private theorem foldl_factors_value (factors : List KeyedFactor) : ∀ {e : Expr} {x : A}, M e x →
    (∀ f ∈ factors, M f.atom (α f.atom)) →
    M (factors.foldl (fun e g => .binary .mul e (factorExpr g.atom g.power)) e)
      (x * (factors.map fun f => α f.atom ^ f.power).prod) := by
  induction factors with
  | nil =>
    intro e x value _
    simpa using value
  | cons f factors ih =>
    intro e x value known
    rw [List.foldl_cons, List.map_cons, List.prod_cons, ← mul_assoc]
    refine ih ?_ fun g member => known g (by simp [member])
    exact reading.mul.mpr ⟨x, value, _, factorExpr_value reading (known f (by simp)) f.power, rfl⟩

/-- A term of the value of a coefficient times the product of its factors. -/
theorem termExpr_value {t : KeyedTerm} (known : t.Over fun a => M a (α a)) (k : Rat) :
    M (termExpr k t.product?) (algebraMap ℚ A k * t.product α) := by
  obtain ⟨factors, q⟩ := t
  cases factors with
  | nil =>
    rw [KeyedTerm.product, List.map_nil, List.prod_nil, mul_one]
    exact reading.ofRat.mpr rfl
  | cons f factors =>
    have product := foldl_factors_value reading factors
      (factorExpr_value reading (known f (by simp)) f.power)
      fun g member => known g (by simp [member])
    rw [← List.prod_cons, ← List.map_cons (f := fun f : KeyedFactor => α f.atom ^ f.power)] at product
    simp only [KeyedTerm.product?, termExpr]
    split
    · next one =>
      rw [one, map_one, one_mul]
      exact product
    · exact reading.mul.mpr ⟨_, reading.ofRat.mpr rfl, _, product, rfl⟩

theorem appendTerm_value {sum : Expr} {x : A} (value : M sum x) {t : KeyedTerm}
    (known : t.Over fun a => M a (α a)) : M (appendTerm sum t) (x + t.eval α) := by
  have piece := termExpr_value reading known t.coefficient.abs
  unfold appendTerm KeyedTerm.eval
  by_cases positive : 0 < t.coefficient
  · have size : t.coefficient.abs = t.coefficient := if_pos positive.le
    rw [if_pos positive]
    rw [size] at piece ⊢
    exact reading.sum.mpr ⟨x, value, _, piece, rfl⟩
  · have size : t.coefficient.abs = -t.coefficient := by
      unfold Rat.abs
      split <;> linarith
    rw [if_neg positive]
    rw [size] at piece ⊢
    refine reading.minus.mpr ⟨x, value, _, piece, ?_⟩
    rw [map_neg, neg_mul, sub_neg_eq_add]

private theorem foldl_terms_value (terms : List KeyedTerm) : ∀ {sum : Expr} {x : A}, M sum x →
    (∀ t ∈ terms, t.Over fun a => M a (α a)) →
    M (terms.foldl appendTerm sum) (x + (terms.map (KeyedTerm.eval α)).sum) := by
  induction terms with
  | nil =>
    intro sum x value _
    simpa using value
  | cons t terms ih =>
    intro sum x value known
    rw [List.foldl_cons, List.map_cons, List.sum_cons, ← add_assoc]
    exact ih (appendTerm_value reading value (known t (by simp))) fun s member =>
      known s (by simp [member])

/-- The expression of a polynomial has the value of the polynomial. -/
theorem toExpr_value (u : FloatUnit) {p : Polynomial} {v : A} (represents : Represents M α p v) :
    M (toExpr u p) v := by
  obtain ⟨known, rfl⟩ := represents
  have sorted : (keyedTerms u p).Perm (p.map fun t => KeyedTerm.ofTerm u t.1 t.2) :=
    List.mergeSort_perm _ _
  have total : ((keyedTerms u p).map (KeyedTerm.eval α)).sum = p.eval α := by
    rw [(sorted.map (KeyedTerm.eval α)).sum_eq, List.map_map, eval]
    congr 1
    apply List.map_congr_left
    intro t _
    simp only [Function.comp_apply, KeyedTerm.eval, KeyedTerm.ofTerm_product]
    rfl
  have over_terms := keyedTerms_over u known
  rw [← total]
  unfold toExpr
  generalize keyedTerms u p = terms at over_terms
  cases terms with
  | nil => exact reading.ofRat.mpr (map_zero (algebraMap ℚ A)).symm
  | cons t terms =>
    rw [List.map_cons, List.sum_cons]
    exact foldl_terms_value reading terms
      (termExpr_value reading (over_terms t (by simp)) t.coefficient) fun s member =>
        over_terms s (by simp [member])

end Writing
section Multiplying
variable {β γ : Type} {P : β → Prop} {Q : γ → Prop}

def Answers (m : OptionT Computation β) (P : β → Prop) : Prop :=
  Returns m.run fun r => ∀ b, r = some b → P b

theorem Answers.pure {b : β} (holds : P b) : Answers (pure b) P :=
  Judgment.returns.answers_pure holds

theorem Answers.failure : Answers (failure : OptionT Computation β) P :=
  Judgment.returns.answers_failure

theorem Answers.bind {m : OptionT Computation β} {f : β → OptionT Computation γ}
    (first : Answers m P) (next : ∀ b, P b → Answers (f b) Q) : Answers (m >>= f) Q :=
  Judgment.returns.answers_bind first next

theorem Answers.trivial {m : OptionT Computation β} : Answers m fun _ => True :=
  Returns.trivial.mono fun _ _ _ _ => True.intro

theorem Answers.mono {m : OptionT Computation β} {P' : β → Prop} (given : Answers m P)
    (weaker : ∀ b, P b → P' b) : Answers m P' :=
  Returns.mono given fun _ holds b same => weaker b (holds b same)

private theorem finite_atom (e w : Expr) : Answers (match w with
    | .num z => if z.isFinite then pure (atom e) else failure
    | _ => pure (atom e)) (· = atom e) := by
  split
  · split
    · exact Answers.pure rfl
    · exact Answers.failure
  · exact Answers.pure rfl

/-- A subtree becomes the atom that it is, or nothing. -/
theorem ofAtom_atom (c : Config) (e : Expr) : Answers (ofAtom c e) (· = atom e) := by
  unfold ofAtom
  split
  · exact Answers.bind Answers.trivial fun w _ => finite_atom _ w
  · exact Answers.bind Answers.trivial fun w _ => finite_atom _ w

end Multiplying

section Operations
variable {p q : Polynomial} {x y : A}

theorem Represents.constant (k : Rat) : Represents M α (constant k) (algebraMap ℚ A k) :=
  ⟨over_constant k, eval_constant α k⟩

theorem Represents.add (left : Represents M α p x) (right : Represents M α q y) :
    Represents M α (add p q) (x + y) :=
  ⟨over_add left.1 right.1, by rw [eval_add, left.2, right.2]⟩

theorem Represents.scale (k : Rat) (given : Represents M α p x) :
    Represents M α (scale k p) (algebraMap ℚ A k * x) :=
  ⟨over_scale given.1, by rw [eval_scale, given.2]⟩

theorem Represents.mul? {limit : Limit} {r : Polynomial} (left : Represents M α p x)
    (right : Represents M α q y) (found : mul? limit p q = some r) : Represents M α r (x * y) :=
  ⟨over_mul? left.1 right.1 found, by rw [eval_mul? α found, left.2, right.2]⟩

theorem Represents.pow? {limit : Limit} {n : Nat} {r : Polynomial} (given : Represents M α p x)
    (found : pow? limit p n = some r) : Represents M α r (x ^ n) :=
  ⟨over_pow? given.1 found, by rw [eval_pow? α found, given.2]⟩

end Operations

theorem represents_structural (reading : Reading M α) :
    Structural fun e p => ∀ v, M e v → Represents M α p v where
  sum first second _ value := by
    obtain ⟨x, left, y, right, rfl⟩ := reading.sum.mp value
    exact (first x left).add (second y right)
  minus first second _ value := by
    obtain ⟨x, left, y, right, rfl⟩ := reading.minus.mp value
    have negated := (first x left).add ((second y right).scale (-1))
    rwa [map_neg, map_one, neg_one_mul, ← sub_eq_add_neg] at negated
  mul _ first second found _ value := by
    obtain ⟨x, left, y, right, rfl⟩ := reading.mul.mp value
    exact (first x left).mul? (second y right) found
  quotient regular first _ value := by
    obtain ⟨x, left, rfl⟩ := reading.quotient regular value
    exact (first x left).scale _
  one _ v value := by
    obtain ⟨x, -, rfl⟩ := reading.power (n := 0).mp value
    rw [pow_zero, ← map_one (algebraMap ℚ A)]
    exact Represents.constant 1
  power _ _ first found _ value := by
    obtain ⟨x, base, rfl⟩ := reading.power.mp value
    exact (first x base).pow? found
  constant q _ value := by
    rw [reading.ofRat.mp value]
    exact Represents.constant q

theorem multiplyOut_represents (reading : Reading M α) (c : Config) (e : Expr) {v : A} (value : M e v) :
    Answers (multiplyOut c e) fun p => Represents M α p v := by
  refine Answers.mono (multiplyOut_structural (J := .returns) (Q := fun _ => True)
    (represents_structural reading) Returns.trivial (fun _ => ⟨trivial, trivial⟩) ?_ e trivial)
    fun p all => all v value
  refine fun e _ _ => (ofAtom_atom c e).mono ?_
  rintro _ rfl v value
  have same := reading.unique value
  refine ⟨over_atom ?_, (eval_atom α e).trans same⟩
  rw [same]
  exact value

theorem multiplyOut_atoms (c : Config) (e : Expr) : Answers (multiplyOut c e) (Over Expr.IsAtom) := by
  refine multiplyOut_structural (J := .returns) (Q := fun _ => True) over_structural Returns.trivial
    (fun _ => ⟨trivial, trivial⟩) (fun e atom _ => ?_) e trivial
  refine (ofAtom_atom c e).mono ?_
  rintro _ rfl
  exact over_atom atom

end Polynomial
end ComputerAlgebra

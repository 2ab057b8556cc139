import ComputerAlgebra.Expr.Operand
import ComputerAlgebra.Proofs.Computation
import Mathlib.Algebra.Ring.Hom.Defs

/-!
Readings of expressions in a commutative ring. Of the numbers only those of a ring of their own have to
have a value; sums, differences and products have one exactly when their operands do. What is needed of a
semantics to arrange sums and products is this much and no more.
-/

namespace ComputerAlgebra

variable {N K : Type*} [CommRing N] [CommRing K]

structure Numerals (number : N → Number) : Prop where
  injective : Function.Injective number
  zero : number 0 = 0
  one : number 1 = 1
  minusOne : number (-1) = .ofInt (-1)
  isZero : ∀ {n}, (number n).isZero = true ↔ n = 0
  neg : ∀ c n, Number.neg c (number n) = pure (number (-n))
  add : ∀ c m n, Number.add c (number m) (number n) = pure (number (m + n))
  mul : ∀ c m n, Number.mul c (number m) (number n) = pure (number (m * n))

theorem Numerals.sub {number : N → Number} (numerals : Numerals number) (c : Config) (m n : N) :
    Number.sub c (number m) (number n) = pure (number (m - n)) := by
  rw [Number.sub, numerals.neg, pure_bind, numerals.add, sub_eq_add_neg]

/-- A way to read expressions as elements of a ring, in which the numbers of another ring have the values
that a homomorphism gives them. Some expressions may be left without a value. -/
structure RingReading (number : N → Number) (hom : N →+* K) (M : Expr → K → Prop) : Prop where
  numerals : Numerals number
  num : ∀ {z v}, M (.num z) v ↔ ∃ n, z = number n ∧ hom n = v
  sum : ∀ {a b v}, M (.binary .sum a b) v ↔ ∃ x, M a x ∧ ∃ y, M b y ∧ x + y = v
  minus : ∀ {a b v}, M (.binary .minus a b) v ↔ ∃ x, M a x ∧ ∃ y, M b y ∧ x - y = v
  mul : ∀ {a b v}, M (.binary .mul a b) v ↔ ∃ x, M a x ∧ ∃ y, M b y ∧ x * y = v

namespace RingReading

variable {number : N → Number} {hom : N →+* K} {M : Expr → K → Prop} (reading : RingReading number hom M)
include reading

theorem numeral (n : N) : M (.num (number n)) (hom n) := reading.num.mpr ⟨n, rfl, rfl⟩

theorem zero_value : M 0 0 := by
  have value := reading.numeral 0
  rwa [reading.numerals.zero, map_zero] at value

theorem one_value : M 1 1 := by
  have value := reading.numeral 1
  rwa [reading.numerals.one, map_one] at value

theorem minusOne_value : M Expr.minusOne (-1) := by
  have value := reading.numeral (-1)
  rwa [reading.numerals.minusOne, map_neg, map_one] at value

theorem negate_value {c : Config} {e : Expr} {v : K} (value : M e v) :
    Succeeds (e.negate c) fun r => M r (-v) := by
  unfold Expr.negate
  split
  · obtain ⟨n, rfl, rfl⟩ := reading.num.mp value
    rw [reading.numerals.neg, pure_bind, ← map_neg]
    exact .pure (reading.numeral (-n))
  · exact .pure (reading.mul.mpr ⟨-1, reading.minusOne_value, v, value, neg_one_mul v⟩)

end RingReading
end ComputerAlgebra

import ComputerAlgebra.Proofs.Semantics.Ring
import ComputerAlgebra.Proofs.Simplification.Pass
import Mathlib.Algebra.BigOperators.Group.List.Basic
import Mathlib.Tactic.LinearCombination

/-!
Sorting of sums and products. A sum is read off as a list of signed terms and a product as a list of
factors; neither the order of the list nor the folding of its numbers changes what it comes to. Where an
expression has a value, sorting never fails.
-/

namespace ComputerAlgebra.Expr

variable {N K : Type*} [CommRing N] [CommRing K] {number : N → Number} {hom : N →+* K}
  {M : Expr → K → Prop} {c : Config} {v : K}

def signed (positive : Bool) (x : K) : K := if positive then x else -x

theorem signed_add (positive : Bool) (x y : K) :
    signed positive (x + y) = signed positive x + signed positive y := by
  cases positive
  · exact neg_add x y
  · rfl

theorem signed_sub (positive : Bool) (x y : K) :
    signed positive (x - y) = signed positive x + signed (!positive) y := by
  cases positive
  · rw [sub_eq_add_neg, signed_add]
    simp [signed]
  · exact sub_eq_add_neg x y

def Sums (M : Expr → K → Prop) (terms : List (Bool × Expr)) (total : K) : Prop :=
  ∃ xs : List K, List.Forall₂ (fun t x => ∃ y, M t.2 y ∧ x = signed t.1 y) terms xs ∧ xs.sum = total

def Multiplies (M : Expr → K → Prop) (factors : List Expr) (total : K) : Prop :=
  ∃ xs : List K, List.Forall₂ M factors xs ∧ xs.prod = total

/-- A list related to another one stays so under a permutation of both. -/
private theorem forall₂_perm {α β : Type*} {R : α → β → Prop} {as as' : List α} {bs : List β}
    (same : as.Perm as') (related : List.Forall₂ R as bs) :
    ∃ bs', bs.Perm bs' ∧ List.Forall₂ R as' bs' := by
  have composed : (Relation.Comp List.Perm (List.Forall₂ R)) as' bs := ⟨as, same.symm, related⟩
  rw [← List.forall₂_comp_perm_eq_perm_comp_forall₂] at composed
  obtain ⟨bs', related', same'⟩ := composed
  exact ⟨bs', same'.symm, related'⟩

namespace Sums

theorem nil : Sums M [] 0 := ⟨[], .nil, rfl⟩

theorem nil_inv {total : K} (sums : Sums M [] total) : total = 0 := by
  obtain ⟨xs, values, rfl⟩ := sums
  obtain rfl := List.forall₂_nil_left_iff.mp values
  rfl

theorem cons {positive : Bool} {e : Expr} {terms : List (Bool × Expr)} {x total : K}
    (value : M e x) (rest : Sums M terms total) :
    Sums M ((positive, e) :: terms) (signed positive x + total) := by
  obtain ⟨xs, values, rfl⟩ := rest
  exact ⟨signed positive x :: xs, .cons ⟨x, value, rfl⟩ values, List.sum_cons⟩

theorem cons_inv {positive : Bool} {e : Expr} {terms : List (Bool × Expr)} {total : K}
    (sums : Sums M ((positive, e) :: terms) total) :
    ∃ x rest, M e x ∧ Sums M terms rest ∧ total = signed positive x + rest := by
  obtain ⟨_, values, rfl⟩ := sums
  obtain ⟨_, xs, ⟨x, value, rfl⟩, others, rfl⟩ := List.forall₂_cons_left_iff.mp values
  exact ⟨x, xs.sum, value, ⟨xs, others, rfl⟩, List.sum_cons⟩

theorem perm {terms terms' : List (Bool × Expr)} {total : K} (sums : Sums M terms total)
    (same : terms.Perm terms') : Sums M terms' total := by
  obtain ⟨xs, values, rfl⟩ := sums
  obtain ⟨xs', same', values'⟩ := forall₂_perm same values
  exact ⟨xs', values', same'.symm.sum_eq⟩

theorem append {terms terms' : List (Bool × Expr)} {x y : K} (left : Sums M terms x)
    (right : Sums M terms' y) : Sums M (terms ++ terms') (x + y) := by
  obtain ⟨xs, values, rfl⟩ := left
  obtain ⟨ys, values', rfl⟩ := right
  exact ⟨xs ++ ys, List.rel_append values values', List.sum_append⟩

end Sums

namespace Multiplies

theorem nil : Multiplies M [] 1 := ⟨[], .nil, rfl⟩

theorem nil_inv {total : K} (multiplies : Multiplies M [] total) : total = 1 := by
  obtain ⟨xs, values, rfl⟩ := multiplies
  obtain rfl := List.forall₂_nil_left_iff.mp values
  rfl

theorem cons {e : Expr} {factors : List Expr} {x total : K} (value : M e x)
    (rest : Multiplies M factors total) : Multiplies M (e :: factors) (x * total) := by
  obtain ⟨xs, values, rfl⟩ := rest
  exact ⟨x :: xs, .cons value values, List.prod_cons⟩

theorem cons_inv {e : Expr} {factors : List Expr} {total : K}
    (multiplies : Multiplies M (e :: factors) total) :
    ∃ x rest, M e x ∧ Multiplies M factors rest ∧ total = x * rest := by
  obtain ⟨_, values, rfl⟩ := multiplies
  obtain ⟨x, xs, value, others, rfl⟩ := List.forall₂_cons_left_iff.mp values
  exact ⟨x, xs.prod, value, ⟨xs, others, rfl⟩, List.prod_cons⟩

theorem perm {factors factors' : List Expr} {total : K} (multiplies : Multiplies M factors total)
    (same : factors.Perm factors') : Multiplies M factors' total := by
  obtain ⟨xs, values, rfl⟩ := multiplies
  obtain ⟨xs', same', values'⟩ := forall₂_perm same values
  exact ⟨xs', values', same'.symm.prod_eq⟩

end Multiplies

variable (reading : RingReading number hom M)
include reading

section Sum

theorem signedTerms_sums (e : Expr) : ∀ (positive : Bool) {rest : List (Bool × Expr)} {v total : K},
    M e v → Sums M rest total → Sums M (signedTerms positive e rest) (signed positive v + total) := by
  induction e using children_induction with
  | node e ih =>
    intro positive rest v total value sums
    unfold signedTerms
    split
    · next a b =>
      obtain ⟨x, left, y, right, rfl⟩ := reading.sum.mp value
      rw [signed_add, add_assoc]
      have tail := ih b (by simp [children]) positive right sums
      exact ih a (by simp [children]) positive left tail
    · next a b =>
      obtain ⟨x, left, y, right, rfl⟩ := reading.minus.mp value
      rw [signed_sub, add_assoc]
      have tail := ih b (by simp [children]) (!positive) right sums
      exact ih a (by simp [children]) positive left tail
    · exact Sums.cons value sums

/-- The numbers among the terms are added up, and the rest is kept. -/
theorem splitConstant_sums (terms : List (Bool × Expr)) : ∀ {k : N} {total : K}, Sums M terms total →
    Succeeds (splitConstant c terms (number k)) fun r =>
      ∃ k' rest, r.1 = number k' ∧ Sums M r.2 rest ∧ hom k' + rest = hom k + total := by
  induction terms with
  | nil =>
    intro k total sums
    exact Succeeds.pure ⟨k, total, rfl, sums, rfl⟩
  | cons t terms ih =>
    obtain ⟨positive, e⟩ := t
    intro k total sums
    obtain ⟨x, rest, value, others, rfl⟩ := Sums.cons_inv sums
    unfold splitConstant
    split
    · next z found =>
      rw [exactNumber?_eq found] at value
      obtain ⟨n, rfl, rfl⟩ := reading.num.mp value
      have continued (m : N) (signed_m : hom m = signed positive (hom n)) :
          Succeeds (Number.add c (number k) (number m) >>= splitConstant c terms) fun r =>
            ∃ k' rest', r.1 = number k' ∧ Sums M r.2 rest' ∧
              hom k' + rest' = hom k + (signed positive (hom n) + rest) := by
        rw [reading.numerals.add, pure_bind, ← signed_m, ← add_assoc, ← map_add]
        exact ih others
      cases positive with
      | true =>
        rw [if_pos rfl, pure_bind]
        exact continued n rfl
      | false =>
        rw [if_neg (by simp), reading.numerals.neg, pure_bind]
        exact continued (-n) (map_neg hom n)
    · refine Succeeds.bind (ih others) ?_
      rintro ⟨constant, kept⟩ ⟨k', rest', rfl, sums', same⟩
      refine Succeeds.pure ⟨k', signed positive x + rest', rfl, Sums.cons value sums', ?_⟩
      linear_combination same

theorem foldl_terms_value (terms : List (Bool × Expr)) : ∀ {sum : Expr} {x total : K},
    M sum x → Sums M terms total →
    M (terms.foldl (fun sum (positive, e) => .binary (if positive then .sum else .minus) sum e) sum)
      (x + total) := by
  induction terms with
  | nil =>
    intro sum x total value sums
    rw [sums.nil_inv, add_zero]
    exact value
  | cons t terms ih =>
    obtain ⟨positive, e⟩ := t
    intro sum x total value sums
    obtain ⟨y, rest, term, others, rfl⟩ := Sums.cons_inv sums
    rw [List.foldl_cons, ← add_assoc]
    refine ih ?_ others
    cases positive with
    | true => exact reading.sum.mpr ⟨x, value, y, term, rfl⟩
    | false => exact reading.minus.mpr ⟨x, value, y, term, sub_eq_add_neg x y⟩

theorem ofSignedTerms_value {terms : List (Bool × Expr)} {total : K} (sums : Sums M terms total) :
    Succeeds (ofSignedTerms c terms) fun r => M r total := by
  cases terms with
  | nil =>
    rw [sums.nil_inv]
    exact Succeeds.pure reading.zero_value
  | cons t terms =>
    obtain ⟨positive, e⟩ := t
    obtain ⟨y, rest, term, others, rfl⟩ := Sums.cons_inv sums
    cases positive with
    | true => exact Succeeds.pure (foldl_terms_value reading terms term others)
    | false =>
      refine Succeeds.bind (reading.negate_value term) ?_
      intro first opposite
      exact Succeeds.pure (foldl_terms_value reading terms opposite others)

theorem sortedSum_value {e : Expr} (value : M e v) : Succeeds (sortedSum c e) fun r => M r v := by
  have terms : Sums M (signedTerms true e []) (v + 0) := signedTerms_sums reading e true value Sums.nil
  unfold sortedSum
  have split := splitConstant_sums reading (c := c) (k := 0) _ terms
  rw [reading.numerals.zero] at split
  refine Succeeds.bind split ?_
  rintro ⟨constant, kept⟩ ⟨k, rest, rfl, sums, same⟩
  rw [map_zero, zero_add, add_zero] at same
  refine Succeeds.get fun u => ?_
  have sorted : Sums M (sortByKey u (·.2) kept) rest := sums.perm (sortByKey_perm u _ kept).symm
  have last (positive : Bool) (m : N) (signed_m : signed positive (hom m) = hom k) :
      Succeeds (ofSignedTerms c (sortByKey u (·.2) kept ++ [(positive, .num (number m))])) fun r => M r v := by
    have single : Sums M [(positive, .num (number m))] (signed positive (hom m) + 0) :=
      Sums.cons (reading.numeral m) Sums.nil
    have total : rest + (signed positive (hom m) + 0) = v := by
      rw [signed_m]
      linear_combination same
    exact total ▸ ofSignedTerms_value reading (sorted.append single)
  dsimp only
  split
  · rw [reading.numerals.neg, pure_bind]
    exact last false (-k) (by simp [signed])
  split
  · exact last true k rfl
  · next no_sign no_constant =>
    have zero : k = 0 := by
      by_contra apart
      simp [reading.numerals.isZero, apart] at no_constant
    rw [zero, map_zero, zero_add] at same
    exact same ▸ ofSignedTerms_value reading sorted

end Sum

section Product

theorem factorsOnto_multiplies (e : Expr) : ∀ {rest : List Expr} {v total : K},
    M e v → Multiplies M rest total → Multiplies M (factorsOnto e rest) (v * total) := by
  induction e using children_induction with
  | node e ih =>
    intro rest v total value multiplies
    unfold factorsOnto
    split
    · next a b =>
      obtain ⟨x, left, y, right, rfl⟩ := reading.mul.mp value
      rw [mul_assoc]
      have tail := ih b (by simp [children]) right multiplies
      exact ih a (by simp [children]) left tail
    · exact Multiplies.cons value multiplies

/-- The numbers among the factors are multiplied, and the rest is kept. -/
theorem splitCoefficient_multiplies (factors : List Expr) : ∀ {k : N} {total : K},
    Multiplies M factors total →
    Succeeds (splitCoefficient c factors (number k)) fun r =>
      ∃ k' rest, r.1 = number k' ∧ Multiplies M r.2 rest ∧ hom k' * rest = hom k * total := by
  induction factors with
  | nil =>
    intro k total multiplies
    exact Succeeds.pure ⟨k, total, rfl, multiplies, rfl⟩
  | cons e factors ih =>
    intro k total multiplies
    obtain ⟨x, rest, value, others, rfl⟩ := Multiplies.cons_inv multiplies
    unfold splitCoefficient
    split
    · next z found =>
      rw [exactNumber?_eq found] at value
      obtain ⟨n, rfl, rfl⟩ := reading.num.mp value
      rw [reading.numerals.mul, pure_bind, ← mul_assoc, ← map_mul]
      exact ih others
    · refine Succeeds.bind (ih others) ?_
      rintro ⟨coefficient, kept⟩ ⟨k', rest', rfl, multiplies', same⟩
      refine Succeeds.pure ⟨k', x * rest', rfl, Multiplies.cons value multiplies', ?_⟩
      linear_combination x * same

theorem foldl_factors_value (factors : List Expr) : ∀ {product : Expr} {x total : K},
    M product x → Multiplies M factors total → M (factors.foldl (.binary .mul) product) (x * total) := by
  induction factors with
  | nil =>
    intro product x total value multiplies
    rw [multiplies.nil_inv, mul_one]
    exact value
  | cons e factors ih =>
    intro product x total value multiplies
    obtain ⟨y, rest, factor, others, rfl⟩ := Multiplies.cons_inv multiplies
    rw [List.foldl_cons, ← mul_assoc]
    exact ih (reading.mul.mpr ⟨x, value, y, factor, rfl⟩) others

theorem ofFactors_value {factors : List Expr} {total : K} (multiplies : Multiplies M factors total) :
    M (ofFactors factors) total := by
  cases factors with
  | nil =>
    rw [multiplies.nil_inv]
    exact reading.one_value
  | cons e factors =>
    obtain ⟨y, rest, factor, others, rfl⟩ := Multiplies.cons_inv multiplies
    exact foldl_factors_value reading factors factor others

theorem sortedProduct_value {e : Expr} (value : M e v) :
    Succeeds (sortedProduct c e) fun r => M r v := by
  have factors : Multiplies M (factorsOnto e []) (v * 1) :=
    factorsOnto_multiplies reading e value Multiplies.nil
  unfold sortedProduct
  have split := splitCoefficient_multiplies reading (c := c) (k := 1) _ factors
  rw [reading.numerals.one] at split
  refine Succeeds.bind split ?_
  rintro ⟨coefficient, kept⟩ ⟨k, rest, rfl, multiplies, same⟩
  rw [map_one, one_mul, mul_one] at same
  dsimp only
  split
  · next zero =>
    refine Succeeds.pure ?_
    rw [← same, reading.numerals.isZero.mp zero, map_zero, zero_mul]
    exact reading.zero_value
  · refine Succeeds.get fun u => Succeeds.pure ?_
    have sorted : Multiplies M (sortByKey u id kept) rest :=
      multiplies.perm (sortByKey_perm u id kept).symm
    split
    · rw [← same]
      exact ofFactors_value reading (Multiplies.cons (reading.numeral k) sorted)
    · next plain =>
      have unit : k = 1 := by
        by_contra apart
        have different : number k ≠ 1 := fun equal =>
          apart (reading.numerals.injective (equal.trans reading.numerals.one.symm))
        simp [different] at plain
      rw [← same, unit, map_one, one_mul]
      exact ofFactors_value reading sorted

end Product

/-- Sorting a node keeps its value, under every reading in a ring, and never fails where there is one. -/
theorem sortNode_value {e : Expr} (value : M e v) : Succeeds (sortNode c e) fun r => M r v := by
  unfold sortNode
  split
  · exact sortedSum_value reading value
  · exact sortedSum_value reading value
  · exact sortedProduct_value reading value
  · exact Succeeds.pure value

end ComputerAlgebra.Expr

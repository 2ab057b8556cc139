import ComputerAlgebra.Proofs.Polynomial.Formal
import ComputerAlgebra.Proofs.Polynomial.Reduced
import ComputerAlgebra.Proofs.Termination.Weight
import Mathlib.Algebra.Order.Ring.Rat
import Mathlib.Data.List.Permutation
import Mathlib.Data.Rat.Floor
import Mathlib.Tactic.NormNum

/-!
How many terms an expression is multiplied out to. The limit on the count of terms is held against products,
so products and powers have no more terms than it allows; the terms of a sum or a difference are those of both
operands, and nothing is held against them. What is written for a polynomial has a summand for each term.
-/

namespace ComputerAlgebra

namespace Expr

/-- The number of terms that an expression may be multiplied out to. A product has at most a term for each pair
of terms, and no more than the limit. -/
def capacity (limit : ℚ) : Expr → ℚ
  | .binary .sum a b | .binary .minus a b => capacity limit a + capacity limit b
  | .binary .mul a b => min limit (capacity limit a * capacity limit b)
  | .binary .div a b =>
    match b.rational? with
    | some q => if q = 0 then 1 else capacity limit a
    | none => 1
  | .binary .pow a n =>
    match n.integer? with
    | some k => if 0 < k then min limit (capacity limit a ^ k.toNat) else 1
    | none => 1
  | _ => 1

/-- The number of summands; zero is the sum of none. -/
def summands : Expr → Nat
  | .binary .sum a b | .binary .minus a b => summands a + summands b
  | .num z => if z.isZero then 0 else 1
  | _ => 1

variable {a e : Expr} {limit q : ℚ}

theorem capacity_ofRat : capacity limit (.num (.ofRat q)) = 1 := rfl

theorem capacity_div (nonzero : q ≠ 0) : capacity limit (.binary .div a (.num (.ofRat q))) = capacity limit a :=
  if_neg nonzero

theorem capacity_pow (n : Nat) : capacity limit (.binary .pow a (.num (.ofInt n))) =
    if 0 < n then min limit (capacity limit a ^ n) else 1 := by
  have exponent : (Expr.num (.ofInt n)).integer? = some (n : Int) := integer?_eq_some.mpr rfl
  rw [capacity, exponent]
  simp only [Int.natCast_pos, Int.toNat_natCast]

theorem IsAtom.capacity (atom : e.IsAtom) : e.capacity limit = 1 := by
  unfold IsAtom at atom
  split at atom
  · cases atom
  · cases atom
  · cases atom
  · next b =>
    rw [Expr.capacity]
    split
    · next q divisor => rw [if_pos (atom q divisor)]
    · rfl
  · next n =>
    rw [Expr.capacity]
    split
    · next k exponent => rw [if_neg (atom k exponent).not_gt]
    · rfl
  · next sum minus mul div pow =>
    rw [Expr.capacity]
    · exact sum
    · exact minus
    · exact mul
    · exact div
    · exact pow

/-- An expression has room for no more terms than the limit allows for every node. -/
theorem capacity_le_weight (limit : ℚ) (e : Expr) : e.capacity limit ≤ max limit 1 * e.weight := by
  induction e using children_induction with
  | node e ih =>
    have every : max limit 1 ≤ max limit 1 * e.weight :=
      le_mul_of_one_le_right (zero_le_one.trans (le_max_right _ _)) (by exact_mod_cast weight_pos e)
    have one := (le_max_right limit 1).trans every
    have limited := (le_max_left limit 1).trans every
    have sum {op : BinaryOp} {a b : Expr} (left : a.capacity limit ≤ max limit 1 * a.weight)
        (right : b.capacity limit ≤ max limit 1 * b.weight) :
        a.capacity limit + b.capacity limit ≤ max limit 1 * (Expr.binary op a b).weight := by
      have weight : ((Expr.binary op a b).weight : ℚ) = 1 + (a.weight + b.weight) := by
        exact_mod_cast weight_additive.binary op a b
      rw [weight]
      linarith [le_max_right limit 1]
    unfold capacity
    split
    · exact sum (ih _ (by simp [children])) (ih _ (by simp [children]))
    · exact sum (ih _ (by simp [children])) (ih _ (by simp [children]))
    · exact (min_le_left _ _).trans limited
    · next a b =>
      split
      · split
        · exact one
        · have part : (a.weight : ℚ) ≤ (Expr.binary .div a b).weight := by
            exact_mod_cast (weight_part (by simp [children])).le
          refine (ih a (by simp [children])).trans (mul_le_mul_of_nonneg_left part ?_)
          exact zero_le_one.trans (le_max_right _ _)
      · exact one
    · split
      · split
        · exact (min_le_left _ _).trans limited
        · exact one
      · exact one
    · exact one

theorem IsAtom.summands_le (atom : e.IsAtom) : e.summands ≤ 1 := by
  unfold summands
  split
  · cases atom
  · cases atom
  · split <;> omega
  · exact le_refl 1

end Expr

/-- A monomial over the nodes of an expression has no more factors than the expression has nodes. -/
theorem Monomial.Reduced.length_le {m : Monomial} {e : Expr} (reduced : m.Reduced) (atoms : m.Over (· ∈ e.nodes)) :
    m.length ≤ e.weight := by
  have distinct : (m.map Prod.fst).Nodup := by
    refine List.pairwise_map.mpr (reduced.sorted.imp fun {f g} below same => ?_)
    have self : g.1.cmp g.1 = .eq := Std.ReflCmp.compare_self
    rw [same, self] at below
    cases below
  have few := (List.subperm_of_subset distinct (List.forall_mem_map.mpr atoms)).length_le
  rw [List.length_map, Expr.length_nodes] at few
  exact few.trans (Expr.complexity_le_weight e)

/-- How much an expression of a weight may weigh when it is multiplied out under a limit on the count of terms. -/
def TermBound.room (l : TermBound) (weight : Nat) : Nat := (⌈l.count⌉₊ + 1) * (weight + 1) ^ 3

namespace Polynomial

variable {p q r : Polynomial} {limit : Limit}

section Operations

private theorem mergeRun_length (rest : List Placed) : ∀ s : Placed,
    (mergeRun s rest).length ≤ rest.length + 1 := by
  induction rest with
  | nil => exact fun s => le_refl _
  | cons t rest ih =>
    intro s
    unfold mergeRun
    split
    · exact (ih _).trans (by simp)
    · simpa using ih t

theorem collect_length (terms : List (Monomial × Rat)) : (collect terms).length ≤ terms.length := by
  have merged (items : List Placed) : (mergeRuns items).length ≤ items.length := by
    cases items with
    | nil => exact le_refl _
    | cons s rest => exact mergeRun_length rest s
  unfold collect
  refine (List.length_filter_le _ _).trans ?_
  rw [List.length_map, List.length_mergeSort]
  refine (merged _).trans ?_
  rw [List.length_mergeSort, List.length_mapIdx]

theorem products_length (p q : Polynomial) : (products p q).length = p.length * q.length := by
  simp [products, List.length_flatMap]

theorem constant_length (k : ℚ) : (constant k).length ≤ 1 := by
  unfold constant
  split <;> simp

theorem add_length (p q : Polynomial) : (add p q).length ≤ p.length + q.length :=
  (collect_length (p ++ q)).trans List.length_append.le

theorem scale_length (k : ℚ) (p : Polynomial) : (scale k p).length = p.length := List.length_map ..

theorem mul?_length (found : mul? limit p q = some r) : r.length ≤ p.length * q.length := by
  unfold mul? at found
  split at found
  · cases found
  · rw [Option.ite_none_left_eq_some, Option.some_inj] at found
    rw [← found.2, ← products_length]
    exact collect_length (products p q)

theorem mul?_limited {l : TermBound} (found : mul? (some l) p q = some r) : (r.length : ℚ) ≤ l.count := by
  unfold mul? at found
  split at found
  · cases found
  · rw [Option.ite_none_left_eq_some, Option.some_inj] at found
    obtain ⟨within, rfl⟩ := found
    simpa using within

/-- The rounds of binary powering multiply the counts. -/
theorem powLoop?_length (n : Nat) : ∀ {result square : Polynomial},
    powLoop? limit result square n = some r → r.length ≤ result.length * square.length ^ n := by
  induction n using Nat.strongRecOn with
  | ind n ih =>
    intro result square found
    by_cases zero : n = 0
    · rw [powLoop?, dif_pos zero] at found
      cases found
      rw [zero, pow_zero, mul_one]
    · obtain ⟨next, digit, rest⟩ := powLoop?_step zero found
      have stepped : next.length ≤ result.length * square.length ^ (n % 2) := by
        rcases digit with ⟨odd, multiplied⟩ | ⟨even, rfl⟩
        · rw [odd, pow_one]
          exact mul?_length multiplied
        · rw [even, pow_zero, mul_one]
      have digits : n % 2 + 2 * (n / 2) = n := Nat.mod_add_div n 2
      rcases rest with ⟨last, rfl⟩ | ⟨doubled, squared, looped⟩
      · rwa [show n % 2 = n by omega] at stepped
      · calc r.length ≤ next.length * doubled.length ^ (n / 2) := ih (n / 2) (by omega) looped
          _ ≤ result.length * square.length ^ (n % 2) * (square.length * square.length) ^ (n / 2) :=
            Nat.mul_le_mul stepped (Nat.pow_le_pow_left (mul?_length squared) _)
          _ = result.length * square.length ^ n := by rw [mul_assoc, ← sq, ← pow_mul, ← pow_add, digits]

/-- The last round of binary powering is a product. -/
theorem powLoop?_limited {l : TermBound} (n : Nat) (positive : n ≠ 0) : ∀ {result square : Polynomial},
    powLoop? (some l) result square n = some r → (r.length : ℚ) ≤ l.count := by
  induction n using Nat.strongRecOn with
  | ind n ih =>
    intro result square found
    obtain ⟨next, digit, rest⟩ := powLoop?_step positive found
    by_cases last : n / 2 = 0
    · have ended : next = r := by
        rcases rest with ⟨-, same⟩ | ⟨doubled, -, looped⟩
        · exact same
        · rw [last, powLoop?, dif_pos rfl] at looped
          exact Option.some.inj looped
      rcases digit with ⟨-, multiplied⟩ | ⟨even, -⟩
      · exact ended ▸ mul?_limited multiplied
      · omega
    · rcases rest with ⟨zero, -⟩ | ⟨doubled, -, looped⟩
      · exact absurd zero last
      · exact ih (n / 2) (by omega) last looped

theorem pow?_length {n : Nat} (found : pow? limit p n = some r) : r.length ≤ p.length ^ n := by
  calc r.length ≤ (constant 1).length * p.length ^ n := powLoop?_length n found
    _ ≤ 1 * p.length ^ n := Nat.mul_le_mul_right _ (constant_length 1)
    _ = p.length ^ n := one_mul _

end Operations

section Expressions
variable {c : Config} {l : TermBound} {e : Expr}

/-- The operations keep the count of terms within the capacity. -/
theorem capacity_structural (l : TermBound) :
    Structural (fun e p => (p.length : ℚ) ≤ e.capacity l.count) (· = some l) where
  sum {a b p q} left right := by
    have terms : ((add p q).length : ℚ) ≤ p.length + q.length := by exact_mod_cast add_length p q
    exact terms.trans (add_le_add left right)
  minus {a b p q} left right := by
    have terms : ((add p (scale (-1) q)).length : ℚ) ≤ p.length + (scale (-1) q).length := by
      exact_mod_cast add_length p (scale (-1) q)
    rw [scale_length] at terms
    exact terms.trans (add_le_add left right)
  mul {a b p q r limit} same left right found := by
    subst same
    have terms : (r.length : ℚ) ≤ p.length * q.length := by exact_mod_cast mul?_length found
    refine le_min (mul?_limited found) (terms.trans ?_)
    exact mul_le_mul left right (Nat.cast_nonneg _) ((Nat.cast_nonneg _).trans left)
  quotient nonzero left := by
    rw [scale_length, Expr.capacity_div nonzero]
    exact left
  one {a p} _ := by
    rw [show ((0 : Int)) = ((0 : Nat) : Int) from rfl, Expr.capacity_pow, if_neg (lt_irrefl 0)]
    exact_mod_cast constant_length 1
  power {a p r n limit} same positive base found := by
    subst same
    rw [Expr.capacity_pow, if_pos (Nat.pos_of_ne_zero positive)]
    have terms : (r.length : ℚ) ≤ p.length ^ n := by exact_mod_cast pow?_length found
    exact le_min (powLoop?_limited n positive found)
      (terms.trans (pow_le_pow_left₀ (Nat.cast_nonneg _) base n))
  constant k := by
    rw [Expr.capacity_ofRat]
    exact_mod_cast constant_length k

/-- An expression is multiplied out over its nodes. -/
theorem multiplyOut_nodes (c : Config) (e : Expr) : Answers (multiplyOut c e) (Over (· ∈ e.nodes)) := by
  refine multiplyOut_structural (J := .returns) (Q := (· ∈ e.nodes)) over_structural Returns.trivial
    (fun {op a b} inside => ?_) (fun n _ inside => ?_) e (Expr.nodes_root e)
  · have part {x : Expr} (member : x ∈ (Expr.binary op a b).children) : x ∈ e.nodes :=
      Expr.nodes_trans (Expr.nodes_part member (Expr.nodes_root x)) inside
    exact ⟨part (by simp [Expr.children]), part (by simp [Expr.children])⟩
  · refine (ofAtom_atom c n).mono ?_
    rintro _ rfl
    exact over_atom inside

/-- An expression is multiplied out to no more terms than its capacity. -/
theorem multiplyOut_capacity (bound : c.expansionBound = .ok (some l)) (e : Expr) :
    Answers (multiplyOut c e) fun p => (p.length : ℚ) ≤ e.capacity l.count := by
  have limited : Returns (liftM c.expansionBound : Computation (Option TermBound)) (· = some l) := by
    rw [bound]
    exact Returns.pure rfl
  refine multiplyOut_structural (J := .returns) (Q := fun _ => True) (capacity_structural l) limited
    (fun _ => ⟨trivial, trivial⟩) (fun e atom _ => ?_) e trivial
  refine (ofAtom_atom c e).mono ?_
  rintro _ rfl
  rw [atom.capacity]
  exact_mod_cast le_refl 1

end Expressions

section Writing
variable {u : FloatUnit}

theorem factorExpr_summands {a : Expr} (atom : a.IsAtom) (n : Nat) : (factorExpr a n).summands ≤ 1 := by
  unfold factorExpr
  split
  · exact atom.summands_le
  · exact le_refl 1

private theorem foldl_factors_summands (factors : List KeyedFactor) : ∀ {e : Expr}, e.summands ≤ 1 →
    (factors.foldl (fun e g => .binary .mul e (factorExpr g.atom g.power)) e).summands ≤ 1 := by
  induction factors with
  | nil => exact fun single => single
  | cons f factors ih => exact fun _ => ih (le_refl 1)

/-- What is written for a term is a single summand. -/
theorem termExpr_summands {t : KeyedTerm} (atoms : t.Over Expr.IsAtom) (k : ℚ) :
    (termExpr k t.product?).summands ≤ 1 := by
  obtain ⟨factors, q⟩ := t
  cases factors with
  | nil =>
    change (if (Number.ofRat k).isZero then 0 else 1) ≤ 1
    split <;> omega
  | cons f factors =>
    simp only [KeyedTerm.product?, termExpr]
    split
    · exact foldl_factors_summands factors (factorExpr_summands (atoms f (by simp)) f.power)
    · exact le_refl 1

private theorem foldl_terms_summands (terms : List KeyedTerm) : ∀ sum : Expr,
    (∀ t ∈ terms, t.Over Expr.IsAtom) → (terms.foldl appendTerm sum).summands ≤ sum.summands + terms.length := by
  induction terms with
  | nil => exact fun sum _ => le_refl _
  | cons t terms ih =>
    intro sum atoms
    rw [List.forall_mem_cons] at atoms
    have piece := termExpr_summands atoms.1 t.coefficient.abs
    have appended :
        (appendTerm sum t).summands = sum.summands + (termExpr t.coefficient.abs t.product?).summands := by
      unfold appendTerm
      split <;> rfl
    have further := ih (appendTerm sum t) atoms.2
    rw [List.foldl_cons, List.length_cons]
    omega

/-- What is written for a polynomial has no more summands than the polynomial has terms. -/
theorem toExpr_summands (u : FloatUnit) (atoms : p.Over Expr.IsAtom) : (p.toExpr u).summands ≤ p.length := by
  have terms : (keyedTerms u p).length = p.length := by simp [keyedTerms]
  have all := keyedTerms_over u atoms
  rw [toExpr, ← terms]
  generalize keyedTerms u p = items at all
  cases items with
  | nil => exact le_refl 0
  | cons t items =>
    rw [List.forall_mem_cons] at all
    have first := termExpr_summands all.1 t.coefficient
    calc _ ≤ (termExpr t.coefficient t.product?).summands + items.length := foldl_terms_summands items _ all.2
      _ ≤ items.length + 1 := by omega

end Writing

section Weight
variable {u : FloatUnit} {n w : Nat}

theorem factorExpr_weight (a : Expr) (k : Nat) : (factorExpr a k).weight ≤ a.weight + 2 := by
  unfold factorExpr
  split
  · omega
  · simp only [Expr.weight_additive.binary, Expr.weight_additive.num]
    omega

theorem termExpr_weight {t : KeyedTerm} (few : t.factors.length ≤ n) (light : t.Over fun a => a.weight ≤ w)
    (k : ℚ) :
    (termExpr k t.product?).weight ≤ n * (w + 3) + 2 := by
  have times (factors : List KeyedFactor) (light : ∀ f ∈ factors, f.atom.weight ≤ w) : ∀ e : Expr,
      (factors.foldl (fun e g => .binary .mul e (factorExpr g.atom g.power)) e).weight
        ≤ e.weight + factors.length * (w + 3) := by
    induction factors with
    | nil => exact fun e => Nat.le_add_right _ _
    | cons f factors ih =>
      intro e
      rw [List.forall_mem_cons] at light
      have first := factorExpr_weight f.atom f.power
      have rest := ih light.2 (.binary .mul e (factorExpr f.atom f.power))
      rw [Expr.weight_additive.binary] at rest
      rw [List.foldl_cons, List.length_cons, Nat.succ_mul]
      omega
  obtain ⟨factors, q⟩ := t
  cases factors with
  | nil => exact (Expr.weight_additive.num _).trans_le (by omega)
  | cons f factors =>
    obtain ⟨first, rest⟩ := List.forall_mem_cons.mp light
    have factor := factorExpr_weight f.atom f.power
    have product := times factors rest (factorExpr f.atom f.power)
    have whole : (factors.length + 1) * (w + 3) ≤ n * (w + 3) := Nat.mul_le_mul_right _ few
    rw [Nat.succ_mul] at whole
    simp only [KeyedTerm.product?, termExpr]
    split
    · omega
    · rw [Expr.weight_additive.binary, ratExpr, Expr.weight_additive.num]
      omega

/-- What is written for a polynomial weighs no more than its terms, its factors and its atoms come to. -/
theorem toExpr_weight (u : FloatUnit) (few : ∀ t ∈ p, t.1.length ≤ n) (light : p.Over fun a => a.weight ≤ w) :
    (p.toExpr u).weight ≤ p.length * (n * (w + 3) + 3) + 1 := by
  have plus (terms : List KeyedTerm) (known : ∀ t ∈ terms, t.factors.length ≤ n ∧ t.Over fun a => a.weight ≤ w) :
      ∀ sum : Expr, (terms.foldl appendTerm sum).weight ≤ sum.weight + terms.length * (n * (w + 3) + 3) := by
    induction terms with
    | nil => exact fun e => Nat.le_add_right _ _
    | cons t terms ih =>
      intro sum
      rw [List.forall_mem_cons] at known
      have piece := termExpr_weight known.1.1 known.1.2 t.coefficient.abs
      have rest := ih known.2 (appendTerm sum t)
      have appended : (appendTerm sum t).weight = 1 + (sum.weight + (termExpr t.coefficient.abs t.product?).weight) :=
        Expr.weight_additive.binary ..
      rw [List.foldl_cons, List.length_cons, Nat.succ_mul]
      omega
  have known : ∀ t ∈ keyedTerms u p, t.factors.length ≤ n ∧ t.Over fun a => a.weight ≤ w := by
    intro t member
    refine ⟨?_, keyedTerms_over u light t member⟩
    obtain ⟨s, inside, rfl⟩ := List.mem_map.mp (List.mem_mergeSort.mp member)
    simpa [KeyedTerm.ofTerm] using few s inside
  have terms : (keyedTerms u p).length = p.length := by simp [keyedTerms]
  rw [toExpr, ← terms]
  generalize keyedTerms u p = items at known
  cases items with
  | nil => exact (Expr.weight_additive.whole 0).trans_le (by omega)
  | cons t items =>
    rw [List.forall_mem_cons] at known
    have first := termExpr_weight known.1.1 known.1.2 t.coefficient
    have rest := plus items known.2 (termExpr t.coefficient t.product?)
    rw [List.length_cons, Nat.succ_mul]
    dsimp only
    omega

end Weight
end Polynomial

namespace Expr

open ComputerAlgebra.Polynomial (ofExpr? multiplyOut multiplyOut_capacity multiplyOut_atoms toExpr_summands)

variable {c : Config} {l : TermBound} {e : Expr}

theorem ofExpr?_capacity (bound : c.expansionBound = .ok (some l)) (e : Expr) :
    Returns (ofExpr? c e) fun r => ∀ p, r = some p → (p.length : ℚ) ≤ e.capacity l.count :=
  .bind .trivial fun _ _ => multiplyOut_capacity bound e

theorem collapse?_written {P : Expr → Prop}
    (known : Polynomial.Answers (multiplyOut c e) fun p => ∀ u, P (p.toExpr u)) :
    Returns (e.collapse? c) fun r => ∀ t, r = some t → P t := by
  unfold collapse? Polynomial.ofExpr?
  rw [bind_assoc]
  refine .bind .trivial fun _ _ => .bind known fun r holds => ?_
  split
  · next p =>
    refine .get fun u => .pure ?_
    rintro _ ⟨⟩
    exact holds p rfl u
  · exact .pure nofun

theorem collapse?_capacity (bound : c.expansionBound = .ok (some l)) (e : Expr) :
    Returns (e.collapse? c) fun r => ∀ t, r = some t → (t.summands : ℚ) ≤ e.capacity l.count := by
  have known := Returns.and (multiplyOut_capacity bound e) (multiplyOut_atoms c e)
  refine collapse?_written (known.mono fun r known p same u => ?_)
  have summands : ((p.toExpr u).summands : ℚ) ≤ p.length := by
    exact_mod_cast toExpr_summands u (known.2 p same)
  exact summands.trans (known.1 p same)

/-- An expression without polynomial form is expanded to itself, any other to at most as many summands as its
capacity. -/
theorem expand_capacity (bound : c.expansionBound = .ok (some l)) (e : Expr) :
    Returns (e.expand c) fun t => t = e ∨ (t.summands : ℚ) ≤ e.capacity l.count := by
  unfold expand
  refine Returns.bind (collapse?_capacity bound e) fun r known => Returns.pure ?_
  cases r with
  | none => exact .inl rfl
  | some t => exact .inr (known t rfl)

/-- An expression whose capacity is within the limit on terms is multiplied out to no more terms than the limit
allows, and its collapsed and its expanded form have no more summands. -/
theorem expansion_capped (bound : c.expansionBound = .ok (some l)) (within : e.capacity l.count ≤ l.count)
    (u w : FloatUnit) :
    (∀ p, ofExpr? c e u = .ok (some p) w → (p.length : ℚ) ≤ l.count) ∧
    (∀ t, e.collapse? c u = .ok (some t) w → (t.summands : ℚ) ≤ l.count) ∧
    ∀ t, e.expand c u = .ok t w → t = e ∨ (t.summands : ℚ) ≤ l.count := by
  refine ⟨fun p found => ?_, fun t found => ?_, fun t found => ?_⟩
  · exact (ofExpr?_capacity bound e u _ w found p rfl).trans within
  · exact (collapse?_capacity bound e u _ w found t rfl).trans within
  · exact (expand_capacity bound e u t w found).imp_right (le_trans · within)

section Growth
open ComputerAlgebra.Polynomial (multiplyOut_nodes multiplyOut_reduced toExpr_weight Written)

/-- The collapsed form weighs no more than the limit on terms leaves room for. -/
theorem collapse?_room (bound : c.expansionBound = .ok (some l)) (e : Expr) :
    Returns (e.collapse? c) fun r => ∀ t, r = some t → t.weight ≤ l.room e.weight := by
  have known := Returns.and (multiplyOut_capacity bound e) (Returns.and (multiplyOut_reduced c e) (multiplyOut_nodes c e))
  refine collapse?_written (known.mono fun r known p same u => ?_)
  obtain ⟨few, reduced, nodes⟩ := known
  have atoms := nodes p same
  have terms : p.length ≤ (⌈l.count⌉₊ + 1) * e.weight := by
    have limit : max l.count 1 ≤ ⌈l.count⌉₊ + 1 := max_le ((Nat.le_ceil _).trans (by simp)) (by simp)
    have count := (few p same).trans (capacity_le_weight l.count e)
    exact_mod_cast count.trans (mul_le_mul_of_nonneg_right limit (Nat.cast_nonneg _))
  have written : (p.toExpr u).weight ≤ p.length * (e.weight * (e.weight + 3) + 3) + 1 :=
    toExpr_weight u (fun t member => ((reduced p same).monomials t member).length_le (atoms t member))
      fun t member f inside => nodes_le (fun part => (weight_part part).le) (atoms t member f inside)
  calc (p.toExpr u).weight ≤ p.length * (e.weight * (e.weight + 3) + 3) + 1 := written
    _ ≤ (⌈l.count⌉₊ + 1) * e.weight * (e.weight * (e.weight + 3) + 3) + (⌈l.count⌉₊ + 1) :=
      Nat.add_le_add (Nat.mul_le_mul_right _ terms) (Nat.le_add_left 1 _)
    _ = l.room e.weight := by
      rw [TermBound.room]
      ring

/-- Collapsing nests no more evaluations. -/
theorem collapse?_nesting (c : Config) (e : Expr) :
    Returns (e.collapse? c) fun r => ∀ t, r = some t → t.nesting 1 ≤ e.nesting 1 := by
  have written : Written fun t => t.nesting 1 ≤ e.nesting 1 :=
    { number := fun _ => Nat.zero_le _
      power := fun n nested => by
        have natural : (Expr.num (.ofInt n)).isNatural = true := isNatural_whole n
        simpa [natural] using nested
      operation := fun among left right => by
        rw [nesting_binary]
        simp only [List.mem_cons, List.not_mem_nil, or_false] at among
        rcases among with rfl | rfl | rfl <;> simpa using ⟨left, right⟩ }
  refine collapse?_written (Returns.mono (multiplyOut_nodes c e) fun r nodes p same u => ?_)
  exact written.toExpr u fun t member f inside => nodes_le nesting_part (nodes p same t member f inside)

end Growth

section Limits
open ComputerAlgebra.Polynomial (multiplyOut multiplyOut_var mul? add atom constant)

def threeTerms : Config := { Config.default with maxExpansionTerms := .int 3, sound := by decide +kernel }

/-- The product `(x + 1) (x + 1)`. -/
def squareAbove (x : String) : Expr := .binary .mul (.binary .sum (.var x) 1) (.binary .sum (.var x) 1)

def squareTerms (x : String) : Polynomial := [([(.var x, 2)], 1), ([(.var x, 1)], 2), ([], 1)]

private theorem multiplyOut_square {x : String} (plain : isConstantName x = false)
    (product : mul? (some (.exact 3)) (add (atom (.var x)) (constant 1)) (add (atom (.var x)) (constant 1)) =
      some (squareTerms x)) :
    multiplyOut threeTerms (squareAbove x) = pure (squareTerms x) := by
  have factor : multiplyOut threeTerms (.binary .sum (.var x) 1) = pure (add (atom (.var x)) (constant 1)) := by
    rw [multiplyOut, multiplyOut_var threeTerms plain]
    rfl
  rw [squareAbove, multiplyOut, factor]
  change OptionT.mk (pure (mul? (some (.exact 3)) _ _) : Computation (Option Polynomial)) = _
  rw [product]
  rfl

private theorem multiplyOut_square_x : multiplyOut threeTerms (squareAbove "x") = pure (squareTerms "x") :=
  multiplyOut_square (by decide) (by cbv)

private theorem ofExpr?_pure (shallow : e.checkDepth threeTerms = .ok ()) {p : Polynomial}
    (multiplied : multiplyOut threeTerms e = pure p) (u : FloatUnit) : ofExpr? threeTerms e u = .ok (some p) u := by
  rw [ofExpr?, shallow, multiplied]
  rfl

/-- The three terms of `(x + 1) (x + 1)` are within a limit of three. -/
theorem expansion_capped_square :
    ofExpr? threeTerms (squareAbove "x") ⟨100⟩ = .ok (some (squareTerms "x")) ⟨100⟩ ∧
      ((squareTerms "x").length : ℚ) ≤ 3 := by
  have found := ofExpr?_pure (by decide +kernel) multiplyOut_square_x ⟨100⟩
  exact ⟨found, (expansion_capped (l := .exact 3) rfl (by decide +kernel) ⟨100⟩ ⟨100⟩).1 _ found⟩

/-- Under the same limit the sum of two such products has five terms, and what is written for it five summands. -/
theorem expansion_above_limit : ∃ e p t, e = .binary .sum (squareAbove "x") (squareAbove "y") ∧
    threeTerms.expansionBound = .ok (some (.exact 3)) ∧
    ofExpr? threeTerms e ⟨100⟩ = .ok (some p) ⟨100⟩ ∧ ¬ (p.length : ℚ) ≤ 3 ∧
    e.collapse? threeTerms ⟨100⟩ = .ok (some t) ⟨100⟩ ∧ ¬ (t.summands : ℚ) ≤ 3 := by
  let e : Expr := .binary .sum (squareAbove "x") (squareAbove "y")
  let p : Polynomial :=
    [([(.var "x", 2)], 1), ([(.var "x", 1)], 2), ([], 2), ([(.var "y", 2)], 1), ([(.var "y", 1)], 2)]
  have other : multiplyOut threeTerms (squareAbove "y") = pure (squareTerms "y") :=
    multiplyOut_square (by decide) (by cbv)
  have collected : add (squareTerms "x") (squareTerms "y") = p := by cbv
  have whole : multiplyOut threeTerms e = pure p := by
    rw [multiplyOut, multiplyOut_square_x, other, ← collected]
    rfl
  have found : ofExpr? threeTerms e ⟨100⟩ = .ok (some p) ⟨100⟩ := ofExpr?_pure (by decide +kernel) whole ⟨100⟩
  have five : (p.toExpr ⟨100⟩).summands = 5 := by cbv
  refine ⟨e, p, p.toExpr ⟨100⟩, rfl, rfl, found, by decide +kernel, ?_, ?_⟩
  · rw [collapse?, Computation.bind_ok found]
    rfl
  · rw [five]
    norm_num

end Limits

end Expr
end ComputerAlgebra

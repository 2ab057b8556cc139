import ComputerAlgebra.Proofs.Rational.Collection
import ComputerAlgebra.Proofs.Termination.Rules

/-!
No pass but sorting makes more of a node than there was: factors and exponents are collected in one place, and
quotients and signs are moved. Sums and products that are sorted may become heavier, by no more than a constant that
is put in front of them and the sign of their first term.
-/

namespace ComputerAlgebra.Expr

/-- An expression that comes to no more than another by any additive count, and that nests no more evaluations when a
power counts for one of them at most. -/
structure Merged (e r : Expr) : Prop where
  le : ∀ {k m : Nat} {count : Expr → Nat}, Additive k m count → count r ≤ count e
  nested : ∀ {j : Nat}, j ≤ 1 → r.nesting j ≤ e.nesting j

variable {c : Config} {a b e r x p q s : Expr}

theorem Within.merged (within : Within 0 e r) : Merged e r := ⟨within.le, fun _ => within.nested (Nat.zero_le _)⟩

/-- Operands may go under another operator than a power or a quotient. -/
theorem Within.binary {op op' : BinaryOp} (plain : op' ≠ .pow ∧ op' ≠ .div) (left : Within 0 a x) (right : Within 0 b s) :
    Within 0 (.binary op a b) (.binary op' x s) where
  le additive := by
    have := left.le additive
    have := right.le additive
    simp only [additive.binary]
    omega
  nested low := by
    simp only [nesting_binary, plain, false_and, if_false, Nat.add_zero]
    exact max_le_max (Nat.le_add_right_of_le (left.nested low)) (Nat.le_add_right_of_le (right.nested low))

theorem Within.crossed {op op' : BinaryOp} (plain : op' ≠ .pow ∧ op' ≠ .div) (left : Within 0 b x) (right : Within 0 a s) :
    Within 0 (.binary op a b) (.binary op' x s) where
  le additive := by
    have := left.le additive
    have := right.le additive
    simp only [additive.binary]
    omega
  nested low := by
    simp only [nesting_binary, plain, false_and, if_false, Nat.add_zero]
    rw [max_comm]
    exact max_le_max (Nat.le_add_right_of_le (right.nested low)) (Nat.le_add_right_of_le (left.nested low))

section Collection

theorem within_splitFactor (e : Expr) : Within 0 e (splitFactor e).2 := by
  unfold splitFactor
  split
  · split
    · exact .right
    · exact .refl
  · exact .refl

theorem scaled_bound (z : Number) (x : Expr) :
    (∀ {k m : Nat} {count : Expr → Nat}, Additive k m count → count (scaled z x) ≤ k + (k + count x)) ∧
      ∀ j, (scaled z x).nesting j ≤ x.nesting j := by
  unfold scaled
  split
  · refine ⟨fun additive => ?_, fun j => Nat.zero_le _⟩
    rw [additive.whole]
    omega
  split
  · exact ⟨fun additive => by omega, fun j => le_rfl⟩
  · refine ⟨fun additive => ?_, fun j => by simp⟩
    rw [additive.binary, additive.num]

theorem within_likeTerms? : Returns (likeTerms? c e) (Offers (Within 0 e)) := by
  have collected {op : BinaryOp} {a b : Expr} (combine : Number → Number → Computation Number) :
      Returns (if a.isNumber || b.isNumber || (splitFactor a).2 ≠ (splitFactor b).2 then return none
        else return some (scaled (← combine (splitFactor a).1 (splitFactor b).1) (splitFactor a).2))
        (Offers (Within 0 (.binary op a b))) := by
    refine Judgment.returns.ite (fun _ => .pure .none) fun _ => .bind .trivial fun z _ =>
      .pure (.some ⟨fun additive => ?_, fun _ => ?_⟩)
    · have part := (within_splitFactor a).le additive
      have small := (scaled_bound z (splitFactor a).2).1 additive
      have other := additive.least b
      rw [additive.binary]
      omega
    · refine ((scaled_bound z (splitFactor a).2).2 _).trans (((within_splitFactor a).nested (Nat.zero_le _)).trans ?_)
      exact nesting_part (by simp [children])
  unfold likeTerms?
  split
  · exact collected _
  · exact collected _
  · exact .pure .none

theorem within_opposite? (e : Expr) : Offers (Within 0 e) (opposite? e) := by
  unfold opposite?
  split
  · exact .ite (fun _ => .some .right) fun _ => .none
  · exact .none

theorem within_signs? : Returns (signs? e) (Offers (Within 0 e)) := by
  have plain : BinaryOp.sum ≠ .pow ∧ BinaryOp.sum ≠ .div := by simp
  have plain' : BinaryOp.minus ≠ .pow ∧ BinaryOp.minus ≠ .div := by simp
  unfold signs?
  split
  · next a b =>
    split
    · next x found => exact .pure (.some (.binary plain' .refl (within_opposite? b x found)))
    · exact .bind .trivial fun r _ => .pure (.some (.binary plain' .refl (.number _)))
    · next x _ _ found => exact .pure (.some (.crossed plain' .refl (within_opposite? a x found)))
    · exact .pure .none
  · next a b =>
    split
    · next x found => exact .pure (.some (.binary plain .refl (within_opposite? b x found)))
    · exact .bind .trivial fun r _ => .pure (.some (.binary plain .refl (.number _)))
    · exact .pure .none
  · refine Judgment.returns.ite (fun _ => .pure .none) fun _ => ?_
    split
    · next x found => exact .pure (.some (.trans .right (within_opposite? _ x found)))
    · next a b _ => exact .pure (.some (.trans .right (.crossed plain' .refl .refl)))
    · exact .pure .none
  · exact .pure .none

end Collection

section Powers

theorem splitPower_cases (e : Expr) : e = .binary .pow (splitPower e).1 (splitPower e).2 ∨ splitPower e = (e, 1) := by
  unfold splitPower
  split
  · exact .inl rfl
  · exact .inr rfl

/-- The parts of a power: only what has an exponent that is no number weighs more than its base. -/
theorem splitPower_count {k m : Nat} {count : Expr → Nat} (additive : Additive k m count)
    (split : splitPower a = (x, p)) : count x ≤ count a ∧ count x + count p ≤ k + count a ∧
      (p.isNumber = false → k + (count x + count p) ≤ count a) := by
  rcases splitPower_cases a with same | same
  · rw [split] at same
    obtain rfl : a = .binary .pow x p := same
    rw [additive.binary]
    omega
  · obtain ⟨rfl, rfl⟩ := Prod.mk.inj (split.symm.trans same)
    have one : count (1 : Expr) = k := additive.whole 1
    refine ⟨le_rfl, by omega, fun symbolic => ?_⟩
    cases symbolic

theorem splitPower_nesting {j : Nat} (split : splitPower a = (x, p)) :
    (x.nesting j + if p.isNatural = false then j else 0) ≤ a.nesting j ∧ p.nesting j ≤ a.nesting j := by
  rcases splitPower_cases a with same | same
  · rw [split] at same
    rw [same, nesting_binary]
    simp
  · obtain ⟨rfl, rfl⟩ := Prod.mk.inj (split.symm.trans same)
    simp [isNatural_whole 1, nesting_whole 1]

/-- An exponent that is made of two: a number where both of them are, and no more than both of them in a node. -/
structure Joined (p q s : Expr) : Prop where
  le : ∀ {k m : Nat} {count : Expr → Nat}, Additive k m count → count s ≤ k + (count p + count q) ∧
    (p.isNumber = true → q.isNumber = true → count s = k)
  nested : ∀ j, s.nesting j ≤ max (p.nesting j) (q.nesting j)

theorem joined_number (z : Number) : Joined p q (.num z) where
  le additive := by
    rw [additive.num]
    exact ⟨by omega, fun _ _ => rfl⟩
  nested _ := Nat.zero_le _

theorem joined_node {op : BinaryOp} (plain : op ≠ .pow ∧ op ≠ .div) (symbolic : p.isNumber = false ∨ q.isNumber = false) :
    Joined p q (.binary op p q) where
  le additive := by
    rw [additive.binary]
    refine ⟨le_rfl, fun first second => ?_⟩
    rw [first, second] at symbolic
    simp at symbolic
  nested j := by
    rw [nesting_binary]
    simp [plain]

/-- A power with the exponents of two operands weighs no more than the two under an operator. -/
theorem Joined.power_count {k m : Nat} {count : Expr → Nat} (additive : Additive k m count) {op : BinaryOp}
    (joined : Joined p q s) (left : splitPower a = (x, p)) (right : splitPower b = (x, q)) :
    count (.binary .pow x s) ≤ count (.binary op a b) := by
  obtain ⟨base, first, power⟩ := splitPower_count additive left
  obtain ⟨base', second, power'⟩ := splitPower_count additive right
  obtain ⟨bound, number⟩ := joined.le additive
  have := additive.least x
  rw [additive.binary, additive.binary]
  cases numeral : p.isNumber with
  | false =>
    have := power numeral
    omega
  | true =>
    cases numeral' : q.isNumber with
    | false =>
      have := power' numeral'
      omega
    | true =>
      have := number numeral numeral'
      omega

theorem isNatural_eq_true : e.isNatural = true ↔ ∃ n : Int, 0 ≤ n ∧ e = .num (.ofInt n) := by
  unfold isNatural
  constructor
  · intro natural
    split at natural
    · next n whole => exact ⟨n, by simpa using natural, integer?_eq_some.mp whole⟩
    · cases natural
  · rintro ⟨n, positive, rfl⟩
    rw [integer?_eq_some.mpr rfl]
    simpa using positive

/-- Where the exponent is natural if both exponents are, the power nests no more than the operands. -/
theorem Joined.power_nesting {j : Nat} (joined : Joined p q s) (natural : p.isNatural = true → q.isNatural = true → s.isNatural = true)
    (left : splitPower a = (x, p)) (right : splitPower b = (x, q)) :
    (Expr.binary .pow x s).nesting j ≤ max (a.nesting j) (b.nesting j) := by
  obtain ⟨base, first⟩ := splitPower_nesting (j := j) left
  obtain ⟨base', second⟩ := splitPower_nesting (j := j) right
  have exponent := (joined.nested j).trans (max_le_max first second)
  rw [nesting_binary]
  refine max_le ?_ (by simpa using exponent)
  cases whole : p.isNatural with
  | false =>
    rw [whole] at base
    refine le_max_of_le_left (le_trans ?_ base)
    split <;> simp
  | true =>
    cases whole' : q.isNatural with
    | false =>
      rw [whole'] at base'
      refine le_max_of_le_right (le_trans ?_ base')
      split <;> simp
    | true =>
      rw [whole] at base
      simpa [natural whole whole'] using .inl (Nat.le_of_add_right_le base)

theorem guardedPower?_offers {P : Expr → Prop} {safe : Bool} {base : Expr} {exponent : Computation Expr}
    (power : Returns exponent fun s => P (.binary .pow base s)) : Returns (guardedPower? c safe base exponent) (Offers P) := by
  have known (safe : Bool) : Returns (if safe = true then do return some (.binary .pow base (← exponent)) else return none)
      (Offers P) :=
    Judgment.returns.ite (fun _ => .bind power fun s holds => .pure (.some holds)) fun _ => .pure .none
  unfold guardedPower?
  exact Judgment.returns.ite (fun _ => known true) fun _ => .bind .trivial fun safe _ => known safe

/-- Numbers that are combined are natural where both are, if the operation keeps natural numbers. -/
theorem combined_natural {combine : Number → Number → Computation Number} {f : Int → Int → Int} {x y : Number}
    (exact_on : ∀ m n, combine (.ofInt m) (.ofInt n) = pure (.ofInt (f m n))) (positive : ∀ m n, 0 ≤ m → 0 ≤ n → 0 ≤ f m n) :
    Returns (combine x y) fun z =>
      (Expr.num x).isNatural = true → (Expr.num y).isNatural = true → (Expr.num z).isNatural = true := by
  by_cases natural : (Expr.num x).isNatural = true ∧ (Expr.num y).isNatural = true
  · obtain ⟨m, above, same⟩ := isNatural_eq_true.mp natural.1
    obtain ⟨n, above', same'⟩ := isNatural_eq_true.mp natural.2
    rw [Expr.num.inj same, Expr.num.inj same', exact_on]
    exact .pure fun _ _ => isNatural_eq_true.mpr ⟨_, positive m n above above', rfl⟩
  · exact Returns.trivial.mono fun z _ first second => absurd ⟨first, second⟩ natural

theorem powerOfPower_nesting {j : Nat} {base n : Expr} (inner : s.nesting j ≤ p.nesting j)
    (natural : p.isNatural = true → n.isNatural = true → s.isNatural = true) :
    (Expr.binary .pow base s).nesting j ≤ (Expr.binary .pow (.binary .pow base p) n).nesting j := by
  have exponent : (if s.isNatural = false then j else 0)
      ≤ (if p.isNatural = false then j else 0) + if n.isNatural = false then j else 0 := by
    cases whole : p.isNatural with
    | false => split <;> simp
    | true =>
      cases whole' : n.isNatural with
      | false => split <;> simp
      | true => simp [natural whole whole']
  simp only [nesting_binary, true_and, reduceCtorEq, if_false, Nat.add_zero]
  omega

theorem within_mergePowers? : Returns (mergePowers? c e) (Offers (Within 0 e)) := by
  unfold mergePowers?
  split
  · next a b =>
    generalize left : splitPower a = first
    generalize right : splitPower b = second
    obtain ⟨x, p⟩ := first
    obtain ⟨y, q⟩ := second
    dsimp only
    refine Judgment.returns.ite (fun _ => .pure .none) fun alike => guardedPower?_offers ?_
    obtain rfl : x = y := by
      by_contra different
      simp [different] at alike
    have power {s : Expr} (joined : Joined p q s)
        (natural : p.isNatural = true → q.isNatural = true → s.isNatural = true) :
        Within 0 (.binary .mul a b) (.binary .pow x s) := by
      refine ⟨fun additive => joined.power_count additive left right, fun _ => ?_⟩
      rw [nesting_binary .mul]
      simpa using joined.power_nesting natural left right
    split
    · exact .bind (combined_natural (add_ofInt c) fun _ _ => Int.add_nonneg) fun z natural =>
        .pure (power (joined_number z) natural)
    · next symbolic =>
      have apart : p.isNumber = false ∨ q.isNumber = false := by
        cases p <;> cases q <;> first | exact .inl rfl | exact .inr rfl | exact absurd rfl (symbolic _ _ rfl)
      refine .pure (power (joined_node (by simp) apart) fun first second => ?_)
      obtain ⟨m, -, rfl⟩ := isNatural_eq_true.mp first
      obtain ⟨n, -, rfl⟩ := isNatural_eq_true.mp second
      simp [isNumber, number?] at apart
  · next base p n =>
    split
    · next k whole =>
      obtain rfl := integer?_eq_some.mp whole
      have power {s : Expr} (size : ∀ {k' m : Nat} {count : Expr → Nat}, Additive k' m count →
            count s ≤ k' + (k' + count p)) (nested : ∀ j, s.nesting j ≤ p.nesting j)
          (natural : p.isNatural = true → (Expr.num (.ofInt k)).isNatural = true → s.isNatural = true) :
          Within 0 (.binary .pow (.binary .pow base p) (.num (.ofInt k))) (.binary .pow base s) := by
        refine ⟨fun additive => ?_, fun {j} _ => powerOfPower_nesting (nested j) natural⟩
        have := size additive
        simp only [additive.binary, additive.num]
        omega
      refine guardedPower?_offers ?_
      split
      · next x =>
        refine .bind (combined_natural (mul_ofInt c) fun _ _ => Int.mul_nonneg) fun z natural => .pure (power ?_ ?_ natural)
        · intro k' m count additive
          rw [additive.num]
          omega
        · exact fun _ => Nat.zero_le _
      · next p symbolic =>
        refine .pure (power (fun additive => ?_) (fun j => by simp) fun natural => ?_)
        · rw [additive.binary, additive.num]
        · obtain ⟨m, -, rfl⟩ := isNatural_eq_true.mp natural
          exact absurd rfl (symbolic _)
    · exact .pure .none
  · exact .pure .none

end Powers

section Nodes

theorem within_flattenDivision? : Returns (flattenDivision? c e) (Offers (Within 0 e)) := by
  have inverted {a b : Expr} : Returns (invertedQuotient? c a b) (Offers (Within 0 (.binary .div a b))) := by
    unfold invertedQuotient?
    split
    · refine .bind .trivial fun safe _ => Judgment.returns.ite (fun _ => .pure (.some ⟨fun additive => ?_, fun _ => ?_⟩))
        fun _ => .pure .none
      · simp only [additive.binary]
        omega
      · simp only [nesting_binary, reduceCtorEq, false_and, if_true, if_false, Nat.add_zero]
        omega
    · exact .pure .none
  have cancelled {a b : Expr} : Returns (cancelled? c b a) (Offers (Within 0 (.binary .div a b))) := by
    unfold cancelled?
    split
    · refine .bind .trivial fun safe _ => Judgment.returns.ite (fun _ => .pure .none) fun _ => .pure ?_
      exact .ite (fun _ => .some (.trans .left .right)) fun _ => .ite (fun _ => .some (.trans .left .left)) fun _ => .none
    · exact .pure .none
  unfold flattenDivision?
  split
  · refine .pure (.some ⟨fun additive => ?_, fun _ => ?_⟩)
    · simp only [additive.binary]
      omega
    · simp only [nesting_binary, reduceCtorEq, false_and, if_true, if_false, Nat.add_zero]
      omega
  · refine .bind inverted fun r offered => ?_
    split
    · next flat => exact .pure (.some (offered flat rfl))
    · exact cancelled
  · exact .pure .none

theorem merged_commonNode : Returns (commonNode c e) (Merged e) := by
  have first {rule : Computation (Option Expr)} {others : Computation Expr} (offered : Returns rule (Offers (Within 0 e)))
      (rest : Returns others (Merged e)) :=
    firstOf_holds .returns (offered.mono fun _ holds t found => (holds t found).merged) rest
  unfold commonNode
  refine first within_likeTerms? (first within_signs? (first within_mergePowers? (first within_flattenDivision? ?_)))
  exact .pure Within.refl.merged

theorem merged_powerNode : Returns (powerNode c e) (Merged e) := by
  unfold powerNode
  split
  · next a m b n =>
    refine .pure ?_
    split
    · next same =>
      obtain ⟨-, rfl⟩ : m.integer?.isSome = true ∧ m = n := by simpa using same
      refine Within.merged ⟨fun additive => ?_, fun _ => ?_⟩
      · simp only [additive.binary]
        omega
      · simp only [nesting_binary, true_and, reduceCtorEq, false_and, if_false, Nat.add_zero]
        omega
    · exact Within.refl.merged
  · next a b =>
    generalize left : splitPower a = first
    generalize right : splitPower b = second
    obtain ⟨x, p⟩ := first
    obtain ⟨y, q⟩ := second
    dsimp only
    refine Judgment.returns.ite (fun alike => ?_) fun _ => .pure Within.refl.merged
    obtain rfl : x = y := by
      simp only [Bool.and_eq_true, decide_eq_true_eq] at alike
      exact alike.1.2
    have power {s : Expr} (joined : Joined p q s) : Merged (.binary .div a b) (.binary .pow x s) := by
      refine ⟨fun additive => joined.power_count additive left right, fun {j} least => ?_⟩
      -- The base is nested in the divisor, where it counts for one evaluation already.
      have base := (splitPower_nesting (j := j) right).1
      have exponent := (joined.nested j).trans (max_le_max (splitPower_nesting left).2 (splitPower_nesting right).2)
      simp only [nesting_binary, reduceCtorEq, false_and, if_true, if_false, Nat.add_zero]
      split <;> omega
    refine .bind .trivial fun safe _ => Judgment.returns.ite (fun _ => ?_) fun _ => .pure Within.refl.merged
    split
    · exact .bind .trivial fun z _ => .pure (power (joined_number z))
    · next symbolic =>
      have apart : p.isNumber = false ∨ q.isNumber = false := by
        cases p <;> cases q <;> first | exact .inl rfl | exact .inr rfl | exact absurd rfl (symbolic _ _ rfl)
      exact .pure (power (joined_node (by simp) apart))
  · exact .pure Within.refl.merged

theorem within_circularNode (e : Expr) : Within 0 e (circularNode e) := by
  have outer {f g : Circular} {a x : Expr} (inside : Within 0 a (.unary (.circular f) x)) : Within 0 a (.unary (.circular g) x) := by
    refine ⟨fun additive => ?_, fun low => ?_⟩
    · have := inside.le additive
      rw [additive.unary] at this ⊢
      exact this
    · have := inside.nested low
      rw [nesting_unary] at this ⊢
      exact this
  unfold circularNode
  split
  · split
    · exact .number _
    · exact .refl
  · split
    · exact outer .left
    · exact .refl
  · split
    · exact outer .left
    · exact .refl
  · split
    · exact outer .right
    · exact .refl
  · split
    · exact outer .right
    · exact .refl
  · next m x =>
    split
    · refine ⟨fun additive => ?_, fun _ => ?_⟩
      · have := additive.least m
        simp only [additive.unary, additive.binary, minusOne, additive.num, Head.weight]
        omega
      · simp only [minusOne, nesting_unary, nesting_binary, nesting_num, reduceCtorEq, false_and, if_false, Nat.add_zero]
        omega
    · exact .refl
  · next m x =>
    split
    · refine ⟨fun additive => ?_, fun _ => ?_⟩
      · simp only [additive.unary, additive.binary, Head.weight]
        omega
      · simp only [nesting_unary, nesting_binary, reduceCtorEq, false_and, if_false, Nat.add_zero]
        omega
    · exact .refl
  · exact .refl

theorem within_booleanNode (e : Expr) : Within 0 e (booleanNode e) := by
  have lattice {op dual : BinaryOp} {zero : Bool} {a b : Expr} (plain : dual ≠ .pow ∧ dual ≠ .div) :
      Within 0 (.binary op a b) (latticeNode op dual zero a b) := by
    unfold latticeNode
    split
    · exact .left
    split
    · exact .truth _
    split
    · next x y first second =>
      obtain rfl := negated?_eq_some.mp first
      obtain rfl := negated?_eq_some.mp second
      refine ⟨fun additive => ?_, fun _ => ?_⟩
      · simp only [additive.unary, additive.binary, Head.weight]
        omega
      · simp only [nesting_unary, nesting_binary, plain, false_and, if_false, Nat.add_zero]
        omega
    · exact .refl
  unfold booleanNode
  split
  · exact .trans .operand .operand
  · exact lattice (by simp)
  · exact lattice (by simp)
  · exact .refl

end Nodes

section Sorting

/-- Terms that come to a weight under operators, one for each of them, and that nest no more evaluations than an
expression. -/
structure Terms (e : Expr) (w : Nat) (ts : List Expr) : Prop where
  light : (ts.map fun t => t.weight + 1).sum ≤ w
  nested : ∀ t ∈ ts, t.nesting 1 ≤ e.nesting 1

structure Extends (extra : Nat) (e r : Expr) : Prop where
  heavier : r.weight ≤ e.weight + extra
  shallower : r.nesting 1 ≤ e.nesting 1

variable {w : Nat} {ts us : List Expr}

namespace Terms

theorem nil : Terms e w [] := ⟨Nat.zero_le _, by simp⟩

theorem cons (first : x.nesting 1 ≤ e.nesting 1) (rest : Terms e w ts) : Terms e (w + (x.weight + 1)) (x :: ts) where
  light := by
    have := rest.light
    rw [List.map_cons, List.sum_cons]
    omega
  nested := List.forall_mem_cons.mpr ⟨first, rest.nested⟩

theorem sublist (terms : Terms e w ts) (fewer : us.Sublist ts) : Terms e w us where
  light := ((fewer.map _).sum_le_sum fun _ _ => Nat.zero_le _).trans terms.light
  nested t member := terms.nested t (fewer.subset member)

theorem perm (terms : Terms e w ts) (same : us.Perm ts) : Terms e w us where
  light := (same.map fun t => t.weight + 1).sum_eq ▸ terms.light
  nested t member := terms.nested t (same.mem_iff.mp member)

end Terms

/-- What a sum or a product of terms comes to. -/
theorem foldl_operators {α : Type} {op : α → BinaryOp} {expr : α → Expr} (plain : ∀ t, op t ≠ .pow ∧ op t ≠ .div)
    (items : List α) : ∀ first : Expr, first.nesting 1 ≤ e.nesting 1 → (∀ t ∈ items.map expr, t.nesting 1 ≤ e.nesting 1) →
    let r := items.foldl (fun sum t => .binary (op t) sum (expr t)) first
    r.weight = first.weight + ((items.map expr).map fun t => t.weight + 1).sum ∧ r.nesting 1 ≤ e.nesting 1 := by
  induction items with
  | nil => exact fun first nested _ => ⟨rfl, nested⟩
  | cons t items ih =>
    intro first nested rest
    rw [List.map_cons, List.forall_mem_cons] at rest
    obtain ⟨weight, nesting⟩ := ih (.binary (op t) first (expr t)) (by simpa [plain] using ⟨nested, rest.1⟩) rest.2
    refine ⟨?_, nesting⟩
    rw [List.foldl_cons, weight, weight_additive.binary, List.map_cons, List.map_cons, List.sum_cons]
    omega

private theorem operands_nested {op : BinaryOp} (nested : (Expr.binary op a b).nesting 1 ≤ e.nesting 1) :
    a.nesting 1 ≤ e.nesting 1 ∧ b.nesting 1 ≤ e.nesting 1 :=
  ⟨(nesting_part (by simp [children])).trans nested, (nesting_part (by simp [children])).trans nested⟩

private theorem binary_load (op : BinaryOp) (a b : Expr) (w : Nat) :
    w + (b.weight + 1) + (a.weight + 1) = w + ((Expr.binary op a b).weight + 1) := by
  rw [weight_additive.binary]
  omega

theorem signedTerms_terms (positive : Bool) (a : Expr) (rest : List (Bool × Expr)) : ∀ {w : Nat},
    a.nesting 1 ≤ e.nesting 1 → Terms e w (rest.map (·.2)) →
    Terms e (w + (a.weight + 1)) ((signedTerms positive a rest).map (·.2)) := by
  induction positive, a, rest using signedTerms.induct with
  | case1 positive a b rest inner outer | case2 positive a b rest inner outer =>
    intro w nested others
    obtain ⟨left, right⟩ := operands_nested nested
    rw [signedTerms, ← binary_load]
    exact outer left (inner right others)
  | case3 positive a rest =>
    intro w nested others
    rw [signedTerms]
    · exact others.cons nested
    all_goals assumption

theorem factorsOnto_terms (a : Expr) (rest : List Expr) : ∀ {w : Nat}, a.nesting 1 ≤ e.nesting 1 →
    Terms e w rest → Terms e (w + (a.weight + 1)) (factorsOnto a rest) := by
  induction a, rest using factorsOnto.induct with
  | case1 a b rest inner outer =>
    intro w nested others
    obtain ⟨left, right⟩ := operands_nested nested
    rw [factorsOnto, ← binary_load]
    exact outer left (inner right others)
  | case2 a rest =>
    intro w nested others
    rw [factorsOnto]
    · exact others.cons nested
    all_goals assumption

/-- Exact numbers are folded, and the other terms are left. -/
theorem splitConstant_sublist (terms : List (Bool × Expr)) : ∀ {z : Number},
    Returns (splitConstant c terms z) fun r => r.2.Sublist terms := by
  induction terms with
  | nil => exact .pure (List.Sublist.refl [])
  | cons t terms ih =>
    intro z
    unfold splitConstant
    split
    · exact Judgment.returns.ite (fun _ => .bind .trivial fun _ _ => .bind .trivial fun _ _ => ih.mono fun _ => .cons t)
        fun _ => .bind .trivial fun _ _ => .bind .trivial fun _ _ => ih.mono fun _ => .cons t
    · exact .bind ih fun r fewer => .pure (fewer.cons_cons t)

theorem splitCoefficient_sublist (factors : List Expr) : ∀ {z : Number},
    Returns (splitCoefficient c factors z) fun r => r.2.Sublist factors := by
  induction factors with
  | nil => exact .pure (List.Sublist.refl [])
  | cons f factors ih =>
    intro z
    unfold splitCoefficient
    split
    · exact .bind .trivial fun _ _ => ih.mono fun _ => .cons f
    · exact .bind ih fun r fewer => .pure (fewer.cons_cons f)

theorem negate_extends (x : Expr) : Returns (negate c x) (Extends 2 x) := by
  unfold negate
  split
  · exact .bind .trivial fun z _ => .pure ⟨by simp [weight_additive.num], Nat.zero_le _⟩
  · refine .pure ⟨?_, by simp [minusOne]⟩
    rw [weight_additive.binary, minusOne, weight_additive.num]
    omega

/-- A sum of terms has a weight less than they come to, but for the sign of the first one and for the sum of none. -/
theorem ofSignedTerms_extends {terms : List (Bool × Expr)} (given : Terms e w (terms.map (·.2))) :
    Returns (ofSignedTerms c terms) fun r => r.weight ≤ w + 1 ∧ r.nesting 1 ≤ e.nesting 1 := by
  cases terms with
  | nil => exact .pure ⟨by rw [weight_additive.whole]; omega, Nat.zero_le _⟩
  | cons t terms =>
    obtain ⟨positive, first⟩ := t
    obtain ⟨light, nested⟩ := given
    rw [List.map_cons, List.map_cons, List.sum_cons] at light
    rw [List.map_cons, List.forall_mem_cons] at nested
    dsimp only at light
    have plain (t : Bool × Expr) : (if t.1 then BinaryOp.sum else .minus) ≠ .pow ∧
        (if t.1 then BinaryOp.sum else .minus) ≠ .div := by cases t.1 <;> simp
    have joined {x : Expr} (longer : Extends 2 first x) :
        let r := terms.foldl (fun sum t => .binary (if t.1 then .sum else .minus) sum t.2) x
        r.weight ≤ w + 1 ∧ r.nesting 1 ≤ e.nesting 1 := by
      obtain ⟨weight, nesting⟩ := foldl_operators plain terms x (longer.shallower.trans nested.1) nested.2
      have := longer.heavier
      exact ⟨by omega, nesting⟩
    unfold ofSignedTerms
    dsimp only
    refine Judgment.returns.ite (fun _ => .pure (joined ⟨Nat.le_add_right _ _, le_rfl⟩)) fun _ => ?_
    exact .bind (negate_extends first) fun x longer => .pure (joined longer)

theorem ofFactors_extends {factors : List Expr} (given : Terms e w factors) :
    (ofFactors factors).weight ≤ w + 1 ∧ (ofFactors factors).nesting 1 ≤ e.nesting 1 := by
  cases factors with
  | nil => exact ⟨by rw [ofFactors, weight_additive.whole]; omega, Nat.zero_le _⟩
  | cons first factors =>
    obtain ⟨light, nested⟩ := given
    rw [List.map_cons, List.sum_cons] at light
    rw [List.forall_mem_cons] at nested
    have joined : (ofFactors (first :: factors)).weight = first.weight + ((factors.map id).map fun t => t.weight + 1).sum ∧
        (ofFactors (first :: factors)).nesting 1 ≤ e.nesting 1 :=
      foldl_operators (fun _ => by simp) factors first nested.1 (by simpa using nested.2)
    rw [List.map_id] at joined
    exact ⟨by omega, joined.2⟩

theorem sortNode_extends (e : Expr) : Returns (sortNode c e) (Extends 4 e) := by
  have sum : Returns (sortedSum c e) (Extends 4 e) := by
    have terms : Terms e (e.weight + 1) ((signedTerms true e []).map (·.2)) := by
      simpa using signedTerms_terms true e [] le_rfl Terms.nil (w := 0)
    unfold sortedSum
    refine .bind (splitConstant_sublist _) fun r fewer => .get fun u => ?_
    obtain ⟨z, rest⟩ := r
    have sorted : Terms e (e.weight + 1) ((sortByKey u (·.2) rest).map (·.2)) :=
      (terms.sublist (fewer.map _)).perm ((sortByKey_perm u _ rest).map _)
    have extended {positive : Bool} {z : Number} :
        Terms e (e.weight + 3) ((sortByKey u Prod.snd rest ++ [(positive, Expr.num z)]).map (·.2)) := by
      have added := sorted.cons (x := .num z) (Nat.zero_le _)
      rw [List.map_append]
      exact added.perm (List.perm_append_singleton _ _)
    refine Judgment.returns.ite (fun _ => ?_) fun _ => Judgment.returns.ite (fun _ => ?_) fun _ => ?_
    · exact .bind .trivial fun z _ => (ofSignedTerms_extends extended).mono fun _ both => ⟨both.1, both.2⟩
    · exact (ofSignedTerms_extends extended).mono fun _ both => ⟨both.1, both.2⟩
    · refine (ofSignedTerms_extends sorted).mono fun _ both => ⟨?_, both.2⟩
      have := both.1
      omega
  have product : Returns (sortedProduct c e) (Extends 4 e) := by
    have factors : Terms e (e.weight + 1) (factorsOnto e []) := by
      simpa using factorsOnto_terms e [] le_rfl Terms.nil (w := 0)
    unfold sortedProduct
    refine .bind (splitCoefficient_sublist _) fun r fewer => ?_
    obtain ⟨z, rest⟩ := r
    refine Judgment.returns.ite (fun _ => .pure ⟨?_, Nat.zero_le _⟩) fun _ => .get fun u => .pure ?_
    · rw [weight_additive.whole]
      omega
    have sorted : Terms e (e.weight + 1) (sortByKey u id rest) :=
      (factors.sublist fewer).perm (sortByKey_perm u _ rest)
    split
    · obtain ⟨weight, nesting⟩ := ofFactors_extends (sorted.cons (x := .num z) (Nat.zero_le _))
      exact ⟨weight, nesting⟩
    · obtain ⟨weight, nesting⟩ := ofFactors_extends sorted
      exact ⟨by omega, nesting⟩
  unfold sortNode
  split
  · exact sum
  · exact sum
  · exact product
  · exact .pure ⟨Nat.le_add_right _ _, le_rfl⟩

end Sorting

/-- What a pass other than sorting makes of a node is no more than the node. -/
theorem Pass.atNode_merged {pass : Pass} (unsorted : pass ≠ .sort) (e : Expr) : Returns (pass.atNode c e) (Merged e) := by
  cases pass with
  | sort => exact absurd rfl unsorted
  | common => exact merged_commonNode
  | power => exact merged_powerNode
  | circular => exact .pure (within_circularNode e).merged
  | boolean => exact .pure (within_booleanNode e).merged

def Pass.extra : Pass → Nat
  | .sort => 4
  | _ => 0

theorem Pass.atNode_extends (pass : Pass) (e : Expr) : Returns (pass.atNode c e) (Extends pass.extra e) := by
  by_cases sorting : pass = .sort
  · subst sorting
    exact sortNode_extends e
  · refine (pass.atNode_merged sorting e).mono fun r merged => ⟨?_, merged.nested le_rfl⟩
    exact (merged.le weight_additive).trans (Nat.le_add_right _ _)

theorem Pass.atNode_num (pass : Pass) (z : Number) : pass.atNode c (.num z) = pure (.num z) := by
  cases pass <;> rfl

end ComputerAlgebra.Expr

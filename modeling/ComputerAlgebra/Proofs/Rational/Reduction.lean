import ComputerAlgebra.Proofs.Rational.Evaluation
import ComputerAlgebra.Proofs.Simplification.Reduction

/-!
One pass of simplification over rational expressions: each identity of an operator, and with them
the pass from the leaves up, keeps the value wherever there is one.
-/

namespace ComputerAlgebra.Expr

variable {c : Config} {ρ : Assignment} {v : Rat}

theorem negate_value {e : Expr} (value : valueAt? ρ e = some v) :
    Returns (negate c e) fun r => valueAt? ρ r = some (-v) :=
  ((valueAt?_ring ρ).negate_value value).returns

theorem Keeps.negate {e : Expr} (value : valueAt? ρ e = Option.some (-v)) :
    Keeps ρ v (do return Option.some (← negate c e)) := by
  refine Returns.bind (negate_value value) ?_
  intro r opposite
  rw [neg_neg] at opposite
  exact Keeps.some opposite

section Identities
variable {a b : Expr}

theorem sumIdentity_value (value : valueAt? ρ (.binary .sum a b) = some v) :
    Keeps ρ v (simplifyIdentity? c .sum a b) := by
  obtain ⟨x, left, y, right, rfl⟩ := valueAt?_sum.mp value
  simp only [simplifyIdentity?]
  split
  · next zero =>
    apply Keeps.some
    rw [isZero_iff.mp zero] at left
    rw [valueAt?_zero.mp left, zero_add]
    exact right
  split
  · next zero =>
    apply Keeps.some
    rw [isZero_iff.mp zero] at right
    rw [valueAt?_zero.mp right, add_zero]
    exact left
  · exact Keeps.none

theorem minusIdentity_value (value : valueAt? ρ (.binary .minus a b) = some v) :
    Keeps ρ v (simplifyIdentity? c .minus a b) := by
  obtain ⟨x, left, y, right, rfl⟩ := valueAt?_minus.mp value
  simp only [simplifyIdentity?]
  split
  · next zero =>
    apply Keeps.some
    rw [isZero_iff.mp zero] at right
    rw [valueAt?_zero.mp right, sub_zero]
    exact left
  split
  · next zero =>
    apply Keeps.negate
    rw [isZero_iff.mp zero] at left
    rw [valueAt?_zero.mp left, zero_sub, neg_neg]
    exact right
  · exact Keeps.none

theorem mulIdentity_value (value : valueAt? ρ (.binary .mul a b) = some v) :
    Keeps ρ v (simplifyIdentity? c .mul a b) := by
  obtain ⟨x, left, y, right, rfl⟩ := valueAt?_mul.mp value
  have square : a = b → valueAt? ρ (.binary .pow a 2) = some (x * y) := by
    rintro rfl
    obtain rfl : x = y := by simpa [left] using right
    exact valueAt?_pow.mpr ⟨2, rfl, x, left, by omega, zpow_two x⟩
  simp only [simplifyIdentity?]
  split
  · next zero =>
    apply Keeps.some
    rcases (Bool.or_eq_true _ _).mp zero with first | second
    · rw [isZero_iff.mp first] at left
      simp [valueAt?_zero.mp left]
    · rw [isZero_iff.mp second] at right
      simp [valueAt?_zero.mp right]
  split
  · next one =>
    apply Keeps.some
    rw [isOne_iff.mp one] at left
    rw [valueAt?_one.mp left, one_mul]
    exact right
  split
  · next one =>
    apply Keeps.some
    rw [isOne_iff.mp one] at right
    rw [valueAt?_one.mp right, mul_one]
    exact left
  split
  · next m inner =>
    split
    · next opposites =>
      obtain ⟨first, second⟩ := (Bool.and_eq_true _ _).mp opposites
      apply Keeps.some
      obtain ⟨k, outer, w, deep, rfl⟩ := valueAt?_mul.mp right
      rw [isMinusOne_iff.mp first] at left
      rw [isMinusOne_iff.mp second] at outer
      rw [valueAt?_minusOne.mp left, valueAt?_minusOne.mp outer]
      simpa using deep
    · split
      · next same => exact Keeps.some (square same)
      · exact Keeps.none
  · split
    · next same => exact Keeps.some (square same)
    · exact Keeps.none

theorem divIdentity_value (value : valueAt? ρ (.binary .div a b) = some v) :
    Keeps ρ v (simplifyIdentity? c .div a b) := by
  obtain ⟨x, left, y, right, apart, rfl⟩ := valueAt?_div.mp value
  simp only [simplifyIdentity?]
  split
  · next one =>
    apply Keeps.some
    rw [isOne_iff.mp one] at right
    rw [valueAt?_one.mp right, div_one]
    exact left
  split
  · next one =>
    apply Keeps.negate
    rw [isMinusOne_iff.mp one] at right
    rw [valueAt?_minusOne.mp right, div_neg, div_one, neg_neg]
    exact left
  have unit : Keeps ρ (x / y) (do
      if a = b then
        if ← nonzero c b then return some 1
      return none) := by
    split
    · next same =>
      refine Returns.bind Returns.trivial fun found _ => ?_
      split
      · subst same
        obtain rfl : x = y := by simpa [left] using right
        apply Keeps.some
        rw [div_self apart]
        simp
      · exact Keeps.none
    · exact Keeps.none
  split
  · next zero =>
    refine Returns.bind Returns.trivial fun found _ => ?_
    split
    · apply Keeps.some
      rw [isZero_iff.mp zero] at left
      simp [valueAt?_zero.mp left]
    · exact unit
  · exact unit

theorem powIdentity_value (value : valueAt? ρ (.binary .pow a b) = some v) :
    Keeps ρ v (simplifyIdentity? c .pow a b) := by
  obtain ⟨k, rfl, x, base, defined, rfl⟩ := valueAt?_pow.mp value
  simp only [simplifyIdentity?]
  split
  · next trivial =>
    apply Keeps.some
    rcases (Bool.or_eq_true _ _).mp trivial with one | zero
    · rw [isOne_iff.mp one] at base
      simp [valueAt?_one.mp base]
    · simp [whole_isZero.mp zero]
  next nontrivial =>
  split
  · next one =>
    apply Keeps.some
    rw [whole_isOne.mp one, zpow_one]
    exact base
  split
  · next one =>
    apply Keeps.some
    obtain rfl := whole_isMinusOne.mp one
    exact valueAt?_div.mpr ⟨1, by simp, x, base, defined (by omega), by rw [zpow_neg_one, one_div]⟩
  split
  · next zero =>
    refine Returns.bind Returns.trivial fun found _ => ?_
    split
    · apply Keeps.some
      rw [isZero_iff.mp zero] at base
      have vanishes := valueAt?_zero.mp base
      have apart : k ≠ 0 := by
        rintro rfl
        simp [isZero, Number.ofInt, Number.isZero, RealNumber.isZero] at nontrivial
      simp [vanishes, zero_zpow k apart]
    · exact Keeps.none
  · exact Keeps.none

end Identities

theorem simplifyBinary?_value {op : BinaryOp} {a b : Expr}
    (value : valueAt? ρ (.binary op a b) = some v) :
    Keeps ρ v (simplifyBinary? c op a b) := by
  have folded : ∀ x y, a = .num x → b = .num y →
      Keeps ρ v (if op = .div && y.isZero then return none
        else return whenExact (← op.compute? c x y)) := by
    rintro x y rfl rfl
    rw [compute?_value value, pure_bind]
    split
    · exact Keeps.none
    · exact Keeps.some (valueAt?_num.mpr rfl)
  cases op with
  | sum =>
    simp only [simplifyBinary?]
    split
    · exact folded _ _ rfl rfl
    · exact sumIdentity_value value
  | minus =>
    simp only [simplifyBinary?]
    split
    · exact folded _ _ rfl rfl
    · exact minusIdentity_value value
  | mul =>
    simp only [simplifyBinary?]
    split
    · exact folded _ _ rfl rfl
    · exact mulIdentity_value value
  | div =>
    simp only [simplifyBinary?]
    split
    · exact folded _ _ rfl rfl
    · exact divIdentity_value value
  | pow =>
    simp only [simplifyBinary?]
    split
    · exact folded _ _ rfl rfl
    · exact powIdentity_value value
  | log | and | or | xor | implies | equals | order | mem => simp [valueAt?] at value

theorem exactValue?_eq {self value r : Expr} (found : exactValue? self value = some r) :
    r = value := by
  unfold exactValue? at found
  split at found
  · simp only [Option.ite_none_right_eq_some] at found
    exact (Option.some.inj found.2).symm
  · cases found

section Pass
variable (all : c.codomain.HoldsFractions)
include all

theorem simplifyBinary_value {again : Expr → Computation Expr} {op : BinaryOp} {a b a' b' : Expr}
    {value : Computation Expr} (evaluated : Returns value (Follows ρ (.binary op a b)))
    (original : valueAt? ρ (.binary op a b) = some v)
    (rebuilt : valueAt? ρ (.binary op a' b') = some v) :
    Returns (simplifyNode c again (.binary op a b) value [a', b'])
      fun r => valueAt? ρ r = some v := by
  have confined : ∀ r, valueAt? ρ r = some v →
      valueAt? ρ (confine c (.binary op a b) r (.binary op a b)) = some v := by
    intro r kept
    rw [confine_eq (value_parts_not_nan kept)]
    · exact kept
    · rw [value_codomain original]
      exact value_fits all kept
  simp only [simplifyNode]
  refine Returns.bind evaluated ?_
  intro w followed
  split
  · next exact same =>
    refine Returns.pure (confined _ ?_)
    rw [exactValue?_eq same]
    exact followed.value v original
  · obtain ⟨⟨x, left⟩, y, right⟩ := value_operands rebuilt
    have rule : Returns (simplificationRule c again (.binary op a b) [a', b'])
        fun r => ∀ e, r = some e → valueAt? ρ e = some v := simplifyBinary?_value rebuilt
    refine Returns.bind (liftConditions_plain .returns (.binary op a b) ?_ rule rebuilt _) ?_
    · intro part member
      rcases List.mem_pair.mp member with rfl | rfl
      · exact value_unconditioned left
      · exact value_unconditioned right
    · intro r kept
      exact Returns.pure (confined r kept)

theorem simplifyNode_follows {again : Expr → Computation Expr} {value : Computation Expr}
    (e : Expr) (evaluated : Returns value (Follows ρ e)) (parts : List Expr)
    (followed : List.Forall₂ (Follows ρ) e.children parts) :
    Returns (simplifyNode c again e value parts) (Follows ρ e) := by
  cases e with
  | num | bool | var => exact Returns.pure (Follows.refl _)
  | binary op a b =>
    obtain ⟨a', rest, left, others, rfl⟩ := List.forall₂_cons_left_iff.mp followed
    obtain ⟨b', rest, right, none_left, rfl⟩ := List.forall₂_cons_left_iff.mp others
    obtain rfl := List.forall₂_nil_left_iff.mp none_left
    refine follows_of_value fun v original => ?_
    exact simplifyBinary_value all evaluated original
      ((left.binary right).value v original)
  | unary | lam | app | provided | piecewise | interval =>
    exact Returns.trivial.mono fun r _ => Follows.vacuous (by simp) (by simp [valueAt?])

theorem innerSimplified_follows (e : Expr) : Returns (innerSimplified c e) (Follows ρ e) := by
  have kept : KeptByNodes c (Follows ρ) :=
    ⟨evaluateNode_follows all, fun again e value parts evaluated followed =>
      simplifyNode_follows all e evaluated parts followed⟩
  exact kept.innerSimplified e

end Pass
end ComputerAlgebra.Expr

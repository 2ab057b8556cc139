import ComputerAlgebra.Proofs.Rational.Codomain
import ComputerAlgebra.Proofs.Rational.Simplification
import Mathlib.Tactic.NormNum

/-!
Evaluation and simplification preserve the value of rational expressions: what they return
evaluates, at every assignment at which the expression evaluates to a finite number, to the same
number.
-/

namespace ComputerAlgebra.Expr

variable {c : Config}

theorem isSome_ofList {s : List (String × Rat)} {x : String} :
    (Assignment.ofList s x).isSome ↔ x ∈ s.map Prod.fst := by
  simp [Assignment.ofList, List.lookup_isSome_iff]

section Preservation
variable (all : c.codomain.HoldsFractions)
include all

/-- With fractions for all its variables a rational expression evaluates to its value there, or to
NaN where it has none. -/
theorem assigned_evaluates {e : Expr} (rational : IsRational e) {s : List (String × Rat)}
    (covered : ∀ x ∈ e.names, x ∈ s.map Prod.fst) :
    ∃ t, e.assign s = .ok t ∧
      ∀ w, t.evaluate c w = .ok (.num (.ofValue (valueAt? (Assignment.ofList s) e))) w := by
  obtain ⟨t, v, assigned, evaluated, -, found⟩ := evaluate_assigned (c := c) rational covered
  refine ⟨t, assigned, fun w => ?_⟩
  rw [evaluated, found all]
  rfl

/-- The number that an expression evaluates to under an assignment of all its variables is its value
there. -/
theorem value_of_evaled {e t : Expr} (rational : IsRational e) {s : List (String × Rat)}
    (covered : ∀ x ∈ e.names, x ∈ s.map Prod.fst) (assigned : e.assign s = .ok t) {v : Number}
    {u w : FloatUnit} (value : t.evaled c u = .ok (.num v) w) :
    v = .ofValue (valueAt? (Assignment.ofList s) e) := by
  obtain ⟨t', same, evaluates⟩ := assigned_evaluates (c := c) all rational covered
  obtain rfl : t = t' := Except.ok.inj (assigned.symm.trans same)
  have found := (evaled_ok value).2
  rw [evaluates] at found
  cases found
  rfl

/-- What has a value at an assignment evaluates to it there. -/
theorem evaluates_to_value {r : Expr} {s : List (String × Rat)} {q : Rat}
    (value : valueAt? (Assignment.ofList s) r = some q) :
    ∃ t, r.assign s = .ok t ∧ ∀ w, t.evaluate c w = .ok (.num (.ofRat q)) w := by
  have covered : ∀ x ∈ r.names, x ∈ s.map Prod.fst := by
    intro x named
    exact isSome_ofList.mp (names_assigned value x named)
  have evaluated := assigned_evaluates (c := c) all (isRational_of_valueAt? value) covered
  rwa [value] at evaluated

end Preservation

/-- Evaluation, one pass of simplification and simplification at any level preserve the value of a
rational expression. Where the expression with fractions for all its variables evaluates to a finite
number, whatever one of the three returns evaluates to that number under the same fractions, unless
it is too deep to be evaluated. -/
theorem rational_value_preserved (complex : c.codomain = .complex) {e : Expr}
    (rational : IsRational e) (level : Int) {s : List (String × Rat)}
    (covered : ∀ x ∈ e.names, x ∈ s.map Prod.fst) {t : Expr} (assigned : e.assign s = .ok t)
    {v : Number} (finite : v.isFinite = true) {u w : FloatUnit}
    (value : t.evaled c u = .ok (.num v) w) :
    ∀ m ∈ [e.evaled c, e.innerSimplified c, e.simplify c level], ∀ u₁ r u₂, m u₁ = .ok r u₂ →
      ∃ t', r.assign s = .ok t' ∧ ∀ w', t'.evaluate c w' = .ok (.num v) w' ∧
        (t'.checkDepth c = .ok () → t'.evaled c w' = .ok (.num v) w') := by
  have all : c.codomain.HoldsFractions := complex ▸ Domain.holdsFractions_complex
  have known := value_of_evaled all rational covered assigned value
  cases defined : valueAt? (Assignment.ofList s) e with
  | none =>
    rw [known, defined] at finite
    cases finite
  | some q =>
  rw [defined] at known
  subst known
  intro m member u₁ r u₂ returned
  have kept : valueAt? (Assignment.ofList s) r = some q := by
    simp only [List.mem_cons, List.not_mem_nil, or_false] at member
    rcases member with rfl | rfl | rfl
    · exact (evaled_follows all e u₁ r u₂ returned).value q defined
    · exact (innerSimplified_follows all e u₁ r u₂ returned).value q defined
    · exact (value_keptByRounds all _ q).simplify level defined u₁ r u₂ returned
  obtain ⟨t', assigned', evaluates⟩ := evaluates_to_value all kept
  refine ⟨t', assigned', fun w' => ⟨evaluates w', fun shallow => ?_⟩⟩
  rw [evaled_eq shallow]
  exact evaluates w'

/-- The quotient of `x^2 - 1` by `x - 1` is four where `x` is three, and stays so. -/
theorem rational_value_preserved_quotient :
    ∃ e t : Expr, e = .binary .div (.binary .minus (.binary .pow (.var "x") (.num (.ofInt 2))) 1)
        (.binary .minus (.var "x") 1) ∧
      IsRational e ∧ (∀ x ∈ e.names, x ∈ [("x", (3 : Rat))].map Prod.fst) ∧
      e.assign [("x", 3)] = .ok t ∧ (4 : Number).isFinite = true ∧
      t.evaled .default ⟨50⟩ = .ok (.num 4) ⟨50⟩ ∧
      ∀ u₁ r u₂, e.simplify .default 2 u₁ = .ok r u₂ →
        ∃ t', r.assign [("x", 3)] = .ok t' ∧ ∀ w', t'.evaluate .default w' = .ok (.num 4) w' := by
  let e : Expr := .binary .div (.binary .minus (.binary .pow (.var "x") (.num (.ofInt 2))) 1)
    (.binary .minus (.var "x") 1)
  have plain : IsRational (.var "x") := .var (by decide)
  have rational : IsRational e := .div (.minus (.pow plain 2) (.num 1)) (.minus plain (.num 1))
  have covered : ∀ x ∈ e.names, x ∈ [("x", (3 : Rat))].map Prod.fst := by
    simp [e, names, fold, join, OfNat.ofNat]
  have square : valueAt? (Assignment.ofList [("x", 3)]) e = some 4 := by
    have variable_value : valueAt? (Assignment.ofList [("x", 3)]) (.var "x") = some 3 := by
      exact valueAt?_var.mpr ⟨by decide, rfl⟩
    refine valueAt?_div.mpr ⟨8, ?_, 2, ?_, by norm_num, by norm_num⟩
    · refine valueAt?_minus.mpr ⟨9, ?_, 1, valueAt?_one.mpr rfl, by norm_num⟩
      exact valueAt?_pow.mpr ⟨2, rfl, 3, variable_value, by norm_num, by norm_num⟩
    · exact valueAt?_minus.mpr ⟨3, variable_value, 1, valueAt?_one.mpr rfl, by norm_num⟩
  obtain ⟨t, assigned, evaluates⟩ := evaluates_to_value (c := .default) Domain.holdsFractions_complex square
  have value : t.evaled .default ⟨50⟩ = .ok (.num 4) ⟨50⟩ := by
    cases assigned
    rw [evaled_eq (by rfl)]
    exact evaluates ⟨50⟩
  refine ⟨e, t, rfl, rational, covered, assigned, by rfl, value, ?_⟩
  intro u₁ r u₂ returned
  obtain ⟨t', assigned', preserved⟩ := rational_value_preserved (by rfl) rational 2 covered assigned
    (by rfl) value (e.simplify .default 2) (by simp) u₁ r u₂ returned
  exact ⟨t', assigned', fun w' => (preserved w').1⟩

end ComputerAlgebra.Expr

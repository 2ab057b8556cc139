import ComputerAlgebra.Proofs.Complex.Evaluation
import ComputerAlgebra.Proofs.Complex.Passes
import ComputerAlgebra.Proofs.Expr.Measure

/-!
The passes are sound over the complex numbers: what a pass makes of an elementary expression is elementary and
has the same meaning wherever the expression has one. Sorting and the circular identities always come to a
result. Collection and the merging of powers ask whether parts are zero, and with that they are subject to the
guards of evaluation.
-/

namespace ComputerAlgebra.Expr

theorem pass_sound {c : Config} (pass : Pass) {e : Expr} (elementary : IsElementary e) :
    Returns (pass.run c e) (Refines e) := by
  by_cases asking : pass = .common ∨ pass = .power
  · have asked (t : Expr) (_ : IsElementary t) (_ : t.complexity ≤ e.complexity) (_ : t.nesting 0 ≤ e.nesting 0) :
        Permitted (fun _ => True) (nonzero c t) fun _ => True := .of_returns .trivial
    exact (pass_improves asking asked elementary le_rfl le_rfl).returns.mono fun _ improves => improves.refines
  · exact (pass_refines (not_or.mp asking) elementary).returns

theorem pass_guarded {c : Config} (usable : c.Usable) (pass : Pass) {e : Expr} (elementary : IsElementary e) :
    Permitted (Exceeds c (· ≤ e.complexity) (allowance ≤ e.nesting 0)) (pass.run c e) fun _ => True := by
  by_cases asking : pass = .common ∨ pass = .power
  · have improved := pass_improves asking (fun _ => nonzero_asks usable) elementary le_rfl le_rfl
    exact Permitted.mono improved fun _ _ => trivial
  · exact .of_succeeds ((pass_refines (not_or.mp asking) elementary).mono fun _ _ => trivial)

/-- Whatever a pass returns for an elementary expression is elementary and, under every assignment that gives the
expression a meaning, has that meaning. Every pass but collection and the merging of powers returns. Those two
return as well under settings that can be used, unless as many divisors are inside each other as evaluations may
be nested, or a tree with no more levels than the expression has nodes is deeper than the limit. -/
theorem pass_preserves_meaning (c : Config) (pass : Pass) {e : Expr} (elementary : IsElementary e)
    (u : FloatUnit) :
    (∀ r w, pass.run c e u = .ok r w →
      IsElementary r ∧ ∀ s v, meaning? s e = some v → meaning? s r = some v) ∧
    (pass ≠ .common ∧ pass ≠ .power → ∃ r w, pass.run c e u = .ok r w) ∧
    (c.Usable → (∃ r w, pass.run c e u = .ok r w) ∨
      ∃ f w, pass.run c e u = .error f w ∧ Exceeds c (· ≤ e.complexity) (allowance ≤ e.nesting 0) f) := by
  refine ⟨fun r w returned => ?_, fun silent => ?_, fun usable => ?_⟩
  · have refines := pass_sound pass elementary u r w returned
    exact ⟨refines.elementary elementary, refines.meaning⟩
  · obtain ⟨r, w, returned, -⟩ := pass_refines silent elementary u
    exact ⟨r, w, returned⟩
  · exact (pass_guarded usable pass elementary u).imp_left fun ⟨r, w, returned, _⟩ => ⟨r, w, returned⟩

/-- The product of a variable and its square root: sorting it returns, and so does collection, with an expression
of the same meaning wherever the product has one. -/
theorem pass_preserves_meaning_root :
    ∃ e : Expr, e = .binary .mul (.var "x") (.binary .pow (.var "x") half) ∧
      (∃ r w, Pass.sort.run .default e ⟨30⟩ = .ok r w) ∧
      ∃ r w, Pass.common.run .default e ⟨30⟩ = .ok r w ∧
        ∀ s v, meaning? s e = some v → meaning? s r = some v := by
  let e : Expr := .binary .mul (.var "x") (.binary .pow (.var "x") half)
  have root : IsElementary (.binary .pow (.var "x") half) :=
    .binary (by simp) (.var "x") (isElementary_num.mpr ⟨⟨1 / 2, 0⟩, rfl⟩)
  have elementary : IsElementary e := .binary (by simp) (.var "x") root
  obtain ⟨-, silent, -⟩ := pass_preserves_meaning .default .sort elementary ⟨30⟩
  obtain ⟨kept, -, guarded⟩ := pass_preserves_meaning .default .common elementary ⟨30⟩
  refine ⟨e, rfl, silent (by simp), ?_⟩
  have five : e.complexity = 5 := rfl
  have flat : e.nesting 0 = 0 := by simp [e, half]
  rcases guarded Config.default_usable with ⟨r, w, returned⟩ | ⟨f, w, -, exceeds⟩
  · exact ⟨r, w, returned, (kept r w returned).2⟩
  · rw [five, flat] at exceeds
    cases exceeds with
    | tooDeep le deeper =>
      have shallow : Config.default.isTooDeep 5 = false := by decide +kernel
      rw [isTooDeep_mono le deeper] at shallow
      cases shallow
    | endless many => exact absurd many (by decide)

def leavesOnly : Config := { Config.default with maxTreeDepth := .int 1, sound := by decide +kernel }

/-- The reciprocal of two times two is one under every assignment, and merging the powers is refused, because the
base is not a leaf. -/
theorem deep_base_refused :
    ∃ two e : Expr, two = .binary .sum 1 1 ∧ e = .binary .mul (.binary .pow two minusOne) two ∧
      IsElementary e ∧ (∀ s, meaning? s e = some 1) ∧
      (Pass.common.run leavesOnly e).answer ⟨30⟩ = .error (.treeTooDeep 2 "1") := by
  let two : Expr := .binary .sum 1 1
  have one : IsElementary 1 := isElementary_ofGaussian 1
  have sum : IsElementary two := .binary (by simp) one one
  refine ⟨two, .binary .mul (.binary .pow two minusOne) two, rfl, rfl, ?_, fun s => ?_, by decide +kernel⟩
  · exact .binary (by simp) (.binary (by simp) sum isElementary_minusOne) sum
  · have value : meaning? s two = some 2 := meaning?_sum.mpr ⟨1, meaning?_one.mpr rfl, 1, meaning?_one.mpr rfl, by norm_num⟩
    have reciprocal : meaning? s (.binary .pow two minusOne) = some 2⁻¹ := by
      refine meaning?_pow.mpr ⟨2, value, -1, meaning?_minusOne.mpr rfl, principalPower?_eq_some.mpr ⟨by simp, ?_⟩⟩
      exact Complex.cpow_neg_one 2
    exact meaning?_mul.mpr ⟨2⁻¹, reciprocal, 2, value, by norm_num⟩

end ComputerAlgebra.Expr

import ComputerAlgebra.Proofs.Limit.Growth
import ComputerAlgebra.Proofs.Limit.Simplification
import ComputerAlgebra.Proofs.Polynomial.NormalForm
import ComputerAlgebra.Proofs.Simplification.Sorting

/-!
The limit on the depth of trees is a cut-off. What simplification does on the way to its result does not
depend on the limit, only how far it gets does; and the trees on the way may be deeper than the expression
that is simplified, by no more than its weight and the limit on terms allow.
-/

namespace ComputerAlgebra

namespace Config

def unlimited (c : Config) : c.DepthLimit where
  limit := .double (.infinity false)
  sound := by
    obtain ⟨precision, zero, equality, -⟩ := sound_iff.mp c.sound
    exact sound_iff.mpr ⟨precision, zero, equality, rfl⟩

theorem isTooDeep_unlimited (c : Config) (depth : Nat) : (c.limited c.unlimited).isTooDeep depth = false := rfl

theorem Complete.limited {c : Config} (complete : c.Complete) (l : c.DepthLimit) : (c.limited l).Complete where
  precise := complete.precise
  tolerance := complete.tolerance
  recognition := complete.recognition
  answers := complete.answers
  equality := complete.equality
  expansion := complete.expansion

/-- For every depth but the least there is a limit that lets just the trees pass that are less deep. -/
theorem limit_below (c : Config) {depth : Nat} (large : 2 ≤ depth) :
    ∃ l : c.DepthLimit, ∀ d, (c.limited l).isTooDeep d = true ↔ depth ≤ d := by
  obtain ⟨precision, zero, equality, -⟩ := sound_iff.mp c.sound
  have below (m : Int) : (Literal.int (depth - 1)).below? m = some (decide ((depth - 1 : Int) < m)) := rfl
  refine ⟨⟨.int (depth - 1), sound_iff.mpr ⟨precision, zero, equality, ?_⟩⟩, fun d => ?_⟩
  · rw [below, Option.some.injEq, decide_eq_false_iff_not]
    omega
  · rw [isTooDeep, decide_eq_true_iff]
    change (Literal.int (depth - 1)).below? d = some true ↔ _
    rw [below, Option.some.injEq, decide_eq_true_iff]
    omega

end Config

/-- The depth that decides is that of a tree in question, when no other tree is refused. -/
theorem GuardedBy.depth_le {c : Config} {m : c.DepthLimit → Computation Expr} {u : FloatUnit} {depth bound : Nat}
    {outcome : EStateM.Result Fault FloatUnit Expr} {P : Expr → Prop} {nested : Prop}
    (guarded : GuardedBy depth outcome m u) (positive : 1 ≤ bound)
    (refused : ∀ l, Permitted (Exceeds (c.limited l) (· ≤ bound) nested) (m l) P) : depth ≤ bound := by
  by_contra deeper
  -- Under the limit next to it, only a tree of the depth itself is refused.
  obtain ⟨l, exactly⟩ := c.limit_below (show 2 ≤ depth by omega)
  obtain ⟨d, w, within, tooDeep, run⟩ := guarded.refused l ((exactly depth).mpr le_rfl)
  have same : d = depth := le_antisymm within ((exactly d).mp tooDeep)
  rcases refused l u with ⟨r, w', result, -⟩ | ⟨f, w', failed, refusal⟩
  · rw [run] at result
    cases result
  · rw [run] at failed
    cases failed
    cases refusal with
    | tooDeep low _ => omega

namespace Expr

variable {c : Config}

/-- Where no tree is too deep, an expression without functions has a result, unless it nests too many evaluations. -/
theorem simplify_unlimited (complete : c.Complete) {e : Expr} (free : e.FunctionFree) (level : Int) (u : FloatUnit) :
    (∃ r w, e.simplify (c.limited c.unlimited) level u = .ok r w) ∨
      allowance ≤ e.nesting 1 ∧ ∃ w, e.simplify (c.limited c.unlimited) level u = .error .endlessReduction w := by
  have light : Light (e.nesting 1) e.weight e := ⟨free, le_rfl, le_rfl⟩
  have reaches : Reaches (c.limited c.unlimited) (fun _ => True) (e.nesting 1) level e.weight := reaches_all
  rcases light.simplify id (complete.limited c.unlimited) reaches u with ⟨r, w, run, -⟩ | ⟨f, w, run, refusal⟩
  · exact .inl ⟨r, w, run⟩
  · cases refusal with
    | tooDeep _ deeper => rw [Config.isTooDeep_unlimited] at deeper; cases deeper
    | endless many => exact .inr ⟨many, w, run⟩

/-- There is a depth, that of the expression or more, which decides whether the limit shows. Under every limit
that lets trees of this depth pass, simplification has one and the same outcome; under every other limit it is
refused for a tree that is not deeper. For an expression without functions and under settings that can be
used, the outcome is an expression, unless the expression itself nests too many evaluations inside each other. The
depth is then no more than the weight of the expression where no rounds are run, and no more than the weight and the
limit on terms allow in any case. -/
theorem simplify_cut_off (c : Config) (e : Expr) (level : Int) (u : FloatUnit) :
    ∃ (depth : Nat) (outcome : EStateM.Result Fault FloatUnit Expr), e.depth ≤ depth ∧
      (∀ l : c.DepthLimit, (c.limited l).isTooDeep depth = false →
        e.simplify (c.limited l) level u = outcome) ∧
      (∀ l : c.DepthLimit, (c.limited l).isTooDeep depth = true → ∃ d w, d ≤ depth ∧
        (c.limited l).isTooDeep d = true ∧
        e.simplify (c.limited l) level u = .error (.treeTooDeep d l.limit.plainText) w) ∧
      (c.Complete → e.FunctionFree →
        ((∃ r w, outcome = .ok r w) ∨ allowance ≤ e.nesting 1 ∧ ∃ w, outcome = .error .endlessReduction w) ∧
        (level = 0 → depth ≤ e.weight) ∧
        ∀ l, c.expansionBound = .ok (some l) → depth ≤ l.growth (l.growth e.weight)) := by
  obtain ⟨depth, outcome, guarded⟩ := simplifyChecked_guarded (c := c) level e u
  have whole : GuardedBy (max e.depth depth) outcome (fun l => e.simplify (c.limited l) level) u :=
    (GuardedBy.checkDepth e u).bind (f := fun l _ => simplifyChecked (c.limited l) level e) guarded
  refine ⟨max e.depth depth, outcome, le_max_left _ _, whole.passed, whole.refused, fun complete free => ?_⟩
  have light : Light (e.nesting 1) e.weight e := ⟨free, le_rfl, le_rfl⟩
  refine ⟨?_, ?_, fun l bound => ?_⟩
  · rw [← whole.passed c.unlimited (c.isTooDeep_unlimited _)]
    exact simplify_unlimited complete free level u
  · rintro rfl
    exact whole.depth_le (weight_pos e) fun l => light.simplify id (complete.limited l) reaches_reduced
  · have positive : 1 ≤ l.growth (l.growth e.weight) := (weight_pos e).trans ((l.le_growth _).trans (l.le_growth _))
    exact whole.depth_le positive fun l' =>
      light.simplify id (complete.limited l') (reaches_growth (c := c.limited l') bound level e.weight)

/-- A balanced sum, which is sorted to a deeper one. -/
def balancedSum : Expr := .binary .sum (.binary .sum (.var "x") 1) (.binary .sum (.var "y") (.var "z"))

theorem simplify_cut_off_sum :
    balancedSum.FunctionFree ∧ balancedSum.nesting 1 = 0 ∧ ∃ (depth : Nat) (r : Expr) (w : FloatUnit), 3 ≤ depth ∧
      depth ≤ (TermBound.exact 2000).growth ((TermBound.exact 2000).growth 7) ∧
      balancedSum.simplify (Config.default.limited Config.default.unlimited) (-1) ⟨30⟩ = .ok r w := by
  have name (x : String) : FunctionFree (.var x) := by simp [FunctionFree, nodes_eq, children]
  have one : FunctionFree 1 := functionFree_num.mpr (Number.regular_of_exact rfl)
  have sum {a b : Expr} (left : FunctionFree a) (right : FunctionFree b) : FunctionFree (.binary .sum a b) :=
    (functionFree_head rfl).mpr ⟨by decide, by simp [children, left, right]⟩
  have free : balancedSum.FunctionFree := sum (sum (name "x") one) (sum (name "y") (name "z"))
  have flat : balancedSum.nesting 1 = 0 := by decide
  obtain ⟨depth, outcome, deep, passed, -, answers⟩ := simplify_cut_off .default balancedSum (-1) ⟨30⟩
  obtain ⟨answered, -, bounded⟩ := answers Config.default_complete free
  rcases answered with ⟨r, w, same⟩ | ⟨many, -⟩
  · refine ⟨free, flat, depth, r, w, deep, bounded _ rfl, ?_⟩
    rw [← same]
    exact passed _ (Config.isTooDeep_unlimited _ _)
  · rw [flat] at many
    cases many

/-- Under a limit of three the sum of depth three is let in, and its sorted form, a chain of depth four, is
refused. -/
theorem balanced_sum_refused :
    balancedSum.depth = 3 ∧ shallowTrees.isTooDeep 3 = false ∧
      (balancedSum.simplify shallowTrees (-1)).answer ⟨30⟩ = .error (.treeTooDeep 4 "3") := by
  refine ⟨by decide, by decide +kernel, ?_⟩
  rw [simplify, settledOrBest]
  simp only [show (-1 : Int).natAbs = 1 from rfl, rounds_one_eq_within]
  decide +kernel

end Expr
end ComputerAlgebra

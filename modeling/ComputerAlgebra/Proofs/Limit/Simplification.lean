import ComputerAlgebra.Proofs.Limit.Evaluation
import ComputerAlgebra.Proofs.Simplification.Reduction
import ComputerAlgebra.Simplification.Rounds

/-!
Simplification under a limit on the depth of trees. Its rules and passes ask for the limit where they need a
proof that an expression is not zero, and the pass from the leaves up, the polynomial form and the call itself
ask for it once each.
-/

namespace ComputerAlgebra.Expr

variable {c : Config}

section Rules

theorem nonzero_guarded (e : Expr) : Guarded fun l => nonzero (c.limited l) e :=
  provablyNonzero_guarded evaluate_guarded e

theorem positive_guarded (e : Expr) : Guarded fun l => positive (c.limited l) e :=
  provablyPositive_guarded evaluate_guarded e

theorem validLogBase_guarded (e : Expr) : Guarded fun l => validLogBase (c.limited l) e :=
  (evaled_guarded e).bind fun _ => .fixed _

theorem negate_limited (l : c.DepthLimit) (e : Expr) : negate (c.limited l) e = negate c e := rfl

theorem exactOrder?_limited (l : c.DepthLimit) (test : Comparison) (a b : Expr) :
    exactOrder? (c.limited l) test a b = exactOrder? c test a b := rfl

theorem simplifyIdentity?_guarded (op : BinaryOp) (a b : Expr) :
    Guarded fun l => simplifyIdentity? (c.limited l) op a b := by
  -- What is left of a rule when a proof was not asked for or not found.
  have goOn {β : Type} {asked : Prop} [Decidable asked] {proof : c.DepthLimit → Computation Bool}
      {yes : Computation β} {no : c.DepthLimit → Computation β} (proved : Guarded proof) (rest : Guarded no) :
      Guarded fun l => if asked then (do if ← proof l then yes else no l) else no l :=
    .ite (proved.bind fun _ => .ite (.fixed _) rest) rest
  cases op with
  | minus =>
    simp only [simplifyIdentity?, negate_limited]
    exact .fixed _
  | div =>
    simp only [simplifyIdentity?, negate_limited]
    refine .ite (.pure _) (.ite (.fixed _) ?_)
    exact goOn (nonzero_guarded b) (goOn (nonzero_guarded b) (.pure _))
  | pow =>
    refine .ite (.pure _) (.ite (.pure _) (.ite (.pure _) ?_))
    exact goOn (positive_guarded b) (.pure _)
  | log => exact .ite (.pure _) (goOn (validLogBase_guarded a) (.pure _))
  | _ => exact .fixed _

theorem simplifyUnary?_limited (l : c.DepthLimit) (op : UnaryOp) (a : Expr) :
    simplifyUnary? (c.limited l) op a = simplifyUnary? c op a := by
  simp only [simplifyUnary?, UnaryOp.compute?_limited]

theorem simplifyBinary?_guarded (op : BinaryOp) (a b : Expr) :
    Guarded fun l => simplifyBinary? (c.limited l) op a b := by
  unfold simplifyBinary?
  simp only [exactOrder?_limited, contains?_limited, BinaryOp.compute?_limited]
  split
  case h_8 =>
    split
    · exact .fixed _
    · exact simplifyIdentity?_guarded op a b
  all_goals exact .fixed _

variable {again : c.DepthLimit → Expr → Computation Expr} (each : ∀ e, Guarded fun l => again l e)
include each

theorem simplificationRule_guarded (self : Expr) (parts : List Expr) :
    Guarded fun l => simplificationRule (c.limited l) (again l) self parts := by
  unfold simplificationRule
  simp only [simplifyUnary?_limited]
  split
  · exact .fixed _
  · exact simplifyBinary?_guarded _ _ _
  · exact .pure _
  · refine .after _ fun r => ?_
    cases r with
    | some reduced => exact (each reduced).bind fun _ => .pure _
    | none => exact .pure _
  · exact .pure _
  · exact .pure _

theorem simplifyNode_guarded {value : c.DepthLimit → Computation Expr} (valued : Guarded value) (self : Expr)
    (parts : List Expr) : Guarded fun l => simplifyNode (c.limited l) (again l) self (value l) parts := by
  unfold simplifyNode
  simp only [confine_limited]
  split
  · exact .pure _
  · exact .pure _
  · exact .pure _
  · exact decideCases_guarded evaluate_guarded _
  · refine valued.bind fun v => ?_
    split
    · exact .pure _
    · exact (liftConditions_guarded self (fun e => (evaluate_guarded e).bind fun _ => .pure _)
        (simplificationRule_guarded each self) _ _).bind fun _ => .pure _

end Rules

theorem simplifyWithin_guarded (fuel : Nat) : ∀ e, Guarded fun l => simplifyWithin (c.limited l) fuel e := by
  induction fuel with
  | zero => exact fun _ => .fixed _
  | succ fuel ih =>
    intro e
    simp only [simplifyWithin_foldM]
    exact foldM_guarded (fun self parts => simplifyNode_guarded ih (evaluateWithin_guarded _ self) self parts) e

theorem innerSimplified_guarded (e : Expr) : Guarded fun l => innerSimplified (c.limited l) e :=
  (Guarded.checkDepth e).bind fun _ => simplifyWithin_guarded allowance e

section Passes

theorem splitConstant_limited (l : c.DepthLimit) (terms : List (Bool × Expr)) : ∀ z,
    splitConstant (c.limited l) terms z = splitConstant c terms z := by
  induction terms with
  | nil => exact fun _ => rfl
  | cons term rest ih =>
    intro z
    obtain ⟨positive, e⟩ := term
    simp only [splitConstant, ih]
    rfl

theorem splitCoefficient_limited (l : c.DepthLimit) (factors : List Expr) : ∀ z,
    splitCoefficient (c.limited l) factors z = splitCoefficient c factors z := by
  induction factors with
  | nil => exact fun _ => rfl
  | cons e rest ih =>
    intro z
    simp only [splitCoefficient, ih]
    rfl

theorem sortNode_limited (l : c.DepthLimit) (e : Expr) : sortNode (c.limited l) e = sortNode c e := by
  simp only [sortNode, sortedSum, sortedProduct, splitConstant_limited, splitCoefficient_limited]
  rfl

theorem guardedPower?_guarded (safe : Bool) (base : Expr) (exponent : Computation Expr) :
    Guarded fun l => guardedPower? (c.limited l) safe base exponent := by
  cases safe with
  | true => exact .fixed _
  | false => exact (nonzero_guarded base).bind fun _ => .fixed _

theorem mergePowers?_guarded (e : Expr) : Guarded fun l => mergePowers? (c.limited l) e := by
  unfold mergePowers?
  simp only [Number.add_limited, Number.mul_limited]
  split
  · exact .ite (.pure _) (guardedPower?_guarded _ _ _)
  · split
    · exact guardedPower?_guarded _ _ _
    · exact .pure _
  · exact .pure _

theorem flattenDivision?_guarded (e : Expr) : Guarded fun l => flattenDivision? (c.limited l) e := by
  have inverted (a b : Expr) : Guarded fun l => invertedQuotient? (c.limited l) a b := by
    unfold invertedQuotient?
    split
    · exact (nonzero_guarded _).bind fun _ => .fixed _
    · exact .pure _
  have cancelled (b a : Expr) : Guarded fun l => cancelled? (c.limited l) b a := by
    unfold cancelled?
    split
    · exact (nonzero_guarded _).bind fun _ => .fixed _
    · exact .pure _
  unfold flattenDivision?
  split
  · exact .pure _
  · refine (inverted _ _).bind fun r => ?_
    cases r with
    | some flat => exact .pure _
    | none => exact cancelled _ _
  · exact .pure _

theorem commonNode_guarded (e : Expr) : Guarded fun l => commonNode (c.limited l) e := by
  refine .after (likeTerms? c e) fun r => ?_
  split
  · exact .pure _
  refine .after _ fun r => ?_
  split
  · exact .pure _
  refine (mergePowers?_guarded e).bind fun r => ?_
  split
  · exact .pure _
  exact (flattenDivision?_guarded e).bind fun _ => .fixed _

theorem powerNode_guarded (e : Expr) : Guarded fun l => powerNode (c.limited l) e := by
  unfold powerNode
  simp only [Number.sub_limited]
  split
  · exact .pure _
  · exact .ite ((nonzero_guarded _).bind fun _ => .fixed _) (.pure _)
  · exact .pure _

theorem Pass.atNode_guarded (pass : Pass) (e : Expr) : Guarded fun l => pass.atNode (c.limited l) e := by
  cases pass with
  | sort =>
    simp only [Pass.atNode, sortNode_limited]
    exact .fixed _
  | common => exact commonNode_guarded e
  | power => exact powerNode_guarded e
  | circular | boolean => exact .pure _

theorem Pass.run_guarded (pass : Pass) (e : Expr) : Guarded fun l => pass.run (c.limited l) e := by
  refine foldM_guarded (fun self parts => ?_) e
  split <;> exact pass.atNode_guarded _

end Passes

section Polynomials
open ComputerAlgebra.Polynomial

/-- Going on with the answer of a computation that may give up. -/
theorem guarded_run_bind {α β : Type} {m : c.DepthLimit → OptionT Computation α}
    {f : c.DepthLimit → α → OptionT Computation β} (first : Guarded fun l => (m l).run)
    (next : ∀ a, Guarded fun l => (f l a).run) : Guarded fun l => (m l >>= f l).run := by
  simp only [OptionT.run_bind]
  refine first.bind fun r => ?_
  cases r with
  | none => exact .pure _
  | some a => exact next a

theorem ofAtom_guarded (e : Expr) : Guarded fun l => (ofAtom (c.limited l) e).run := by
  unfold ofAtom
  split
  · exact .fixed _
  · exact guarded_run_bind (.map some (evaluate_guarded _)) fun _ => .fixed _

theorem multiplyOut_guarded (e : Expr) : Guarded fun l => (multiplyOut (c.limited l) e).run := by
  have bounded (f : Limit → Option Polynomial) :
      Guarded fun l => (OptionT.mk do return f (← (c.limited l).expansionBound)).run := by
    have same (l : c.DepthLimit) : (c.limited l).expansionBound = c.expansionBound := rfl
    simp only [same]
    exact .fixed _
  induction e using children_induction with
  | node e ih =>
    unfold multiplyOut
    split
    · next a b =>
      refine guarded_run_bind (ih a (by simp [children])) fun p => ?_
      exact guarded_run_bind (ih b (by simp [children])) fun q => .pure _
    · next a b =>
      refine guarded_run_bind (ih b (by simp [children])) fun q => ?_
      exact guarded_run_bind (ih a (by simp [children])) fun p => .pure _
    · next a b =>
      refine guarded_run_bind (ih a (by simp [children])) fun p => ?_
      exact guarded_run_bind (ih b (by simp [children])) fun q => bounded _
    · next a b =>
      split
      · split
        · exact ofAtom_guarded _
        · exact guarded_run_bind (ih a (by simp [children])) fun p => .pure _
      · exact ofAtom_guarded _
    · next a n =>
      split
      · split
        · exact ofAtom_guarded _
        · refine guarded_run_bind (ih a (by simp [children])) fun p => ?_
          split
          · exact .pure _
          · exact bounded _
      · exact ofAtom_guarded _
    · split
      · exact .pure _
      · exact ofAtom_guarded _

theorem collapse?_guarded (e : Expr) : Guarded fun l => collapse? (c.limited l) e :=
  ((Guarded.checkDepth e).bind fun _ => multiplyOut_guarded e).bind fun _ => .fixed _

theorem expand_guarded (e : Expr) : Guarded fun l => expand (c.limited l) e :=
  (collapse?_guarded e).bind fun _ => .pure _

end Polynomials

section Rounds

theorem runPasses_guarded (passes : List Pass) : ∀ e, Guarded fun l => runPasses (c.limited l) passes e := by
  induction passes with
  | nil => exact fun _ => .pure _
  | cons pass rest ih =>
    intro e
    refine (pass.run_guarded e).bind fun r => (innerSimplified_guarded r).bind fun r => ?_
    exact (ih r).bind fun _ => .pure _

theorem candidates_guarded (e : Expr) : Guarded fun l => candidates (c.limited l) e := by
  refine (runPasses_guarded Pass.all e).bind fun passed => (collapse?_guarded _).bind fun r => ?_
  cases r with
  | none => exact .pure _
  | some collapsed => exact (innerSimplified_guarded collapsed).bind fun _ => .pure _

theorem rounds_guarded (n : Nat) : ∀ e, Guarded fun l => rounds (c.limited l) n e := by
  induction n with
  | zero => exact fun _ => .pure _
  | succ n ih => exact fun e => (candidates_guarded e).bind fun _ => .ite (.pure _) (ih _)

theorem settledOrBest_guarded (level : Int) (e : Expr) :
    Guarded fun l => settledOrBest (c.limited l) level e := by
  refine .ite (.pure _) ((innerSimplified_guarded e).bind fun first => .ite (.pure _) ?_)
  exact (rounds_guarded _ first).bind fun _ => .pure _

theorem simplifyCompact_guarded (level : Int) (e : Expr) :
    Guarded fun l => simplifyCompact (c.limited l) level e :=
  (Guarded.checkDepth e).bind fun _ => (settledOrBest_guarded level e).bind fun _ => .pure _

/-- What a call does once its expression has passed the guard. -/
def simplifyChecked (c : Config) (level : Int) (e : Expr) : Computation Expr := do
  let (best, settled) ← settledOrBest c level e
  if settled || level ≤ 0 then return best
  let expanded ← best.expand c
  if expanded = best then return best
  return simplest best [← simplifyCompact c level expanded]

theorem simplifyChecked_guarded (level : Int) (e : Expr) :
    Guarded fun l => simplifyChecked (c.limited l) level e := by
  refine (settledOrBest_guarded level e).bind fun r => .ite (.pure _) ?_
  refine (expand_guarded r.1).bind fun expanded => .ite (.pure _) ?_
  exact (simplifyCompact_guarded level expanded).bind fun _ => .pure _

end Rounds

end ComputerAlgebra.Expr

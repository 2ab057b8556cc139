import ComputerAlgebra.Proofs.Evaluation.Basic
import ComputerAlgebra.Proofs.Expr.Walk
import ComputerAlgebra.Proofs.Limit.Guarded

/-!
Evaluation under a limit on the depth of trees. The limit is asked for where an identity needs a proof that
an operand is not zero, and nowhere else: functions of numbers, conditions and domains do not depend on it.
-/

namespace ComputerAlgebra

namespace Number
variable {c : Config} (l : c.DepthLimit)

theorem add_limited (z w : Number) : add (c.limited l) z w = add c z w := rfl

theorem sub_limited (z w : Number) : sub (c.limited l) z w = sub c z w := rfl

theorem mul_limited (z w : Number) : mul (c.limited l) z w = mul c z w := rfl

theorem powLoop_limited (n : Nat) : ∀ result square : Number,
    powLoop (c.limited l) result square n = powLoop c result square n := by
  induction n using Nat.strongRecOn with
  | ind n ih =>
    intro result square
    rw [powLoop, powLoop]
    by_cases zero : n = 0
    · rw [dif_pos zero, dif_pos zero]
    · have rest (result square : Number) := ih (n / 2) (by omega) result square
      rw [dif_neg zero, dif_neg zero]
      simp only [rest, mul_limited]

theorem pow_limited (z w : Number) : pow (c.limited l) z w = pow c z w := by
  have powInt (z : Number) (n : Int) : powInt (c.limited l) z n = powInt c z n := by
    unfold Number.powInt
    simp only [powLoop_limited]
    rfl
  unfold pow
  simp only [powInt]
  rfl

theorem abs_limited (z : Number) : abs (c.limited l) z = abs c z := by
  unfold abs sqrt
  simp only [pow_limited]
  rfl

theorem signum_limited (z : Number) : signum (c.limited l) z = signum c z := by
  unfold signum
  simp only [abs_limited]
  rfl

theorem closeWithin_limited (tolerance : Except Fault Rat) (z w : Number) :
    closeWithin (c.limited l) tolerance z w = closeWithin c tolerance z w := by
  unfold closeWithin
  simp only [abs_limited]
  rfl

theorem constant_limited (name : String) : constant (c.limited l) name = constant c name := by
  have bits : (c.limited l).bits = c.bits := rfl
  have settle : Computation.settle (c.limited l) = Computation.settle c := rfl
  have ofFloat (x : BigFloat) : RealNumber.ofFloat (c.limited l) x = RealNumber.ofFloat c x := rfl
  simp only [constant, bits, settle, ofFloat]

end Number

namespace UnaryOp

theorem compute?_limited {c : Config} (l : c.DepthLimit) (op : UnaryOp) (z : Number) :
    op.compute? (c.limited l) z = op.compute? c z := by
  cases op with
  | abs => simp only [compute?, Number.abs_limited]
  | signum => simp only [compute?, Number.signum_limited]
  | _ => rfl

end UnaryOp

namespace BinaryOp

theorem compute?_limited {c : Config} (l : c.DepthLimit) (op : BinaryOp) (z w : Number) :
    op.compute? (c.limited l) z w = op.compute? c z w := by
  cases op with
  | pow => simp only [compute?, Number.pow_limited]
  | _ => rfl

end BinaryOp

namespace Expr

section Unlimited
variable {c : Config} (l : c.DepthLimit)

theorem condition?_limited (self : Expr) (parts : List Expr) :
    condition? (c.limited l) self parts = condition? c self parts := rfl

theorem contains?_limited (s e : Expr) : contains? (c.limited l) s e = contains? c s e := rfl

theorem orderValue?_limited (test : Comparison) (a b : Expr) :
    orderValue? (c.limited l) test a b = orderValue? c test a b := rfl

theorem confine_limited (self result outside : Expr) :
    confine (c.limited l) self result outside = confine c self result outside := rfl

theorem equalsValue?_limited (a b : Expr) : equalsValue? (c.limited l) a b = equalsValue? c a b := by
  simp only [equalsValue?, Number.closeWithin_limited]
  rfl

theorem unaryRule?_limited (op : UnaryOp) (a : Expr) : unaryRule? (c.limited l) op a = unaryRule? c op a := by
  simp only [unaryRule?, UnaryOp.compute?_limited]

end Unlimited

variable {c : Config} {ev : c.DepthLimit → Expr → Computation Expr}

theorem foldM_guarded {β : Type} {f : c.DepthLimit → Expr → List β → Computation β}
    (each : ∀ e parts, Guarded fun l => f l e parts) (e : Expr) : Guarded fun l => foldM (f l) e := by
  induction e using children_induction with
  | node e ih =>
    simp only [foldM_eq]
    exact (Guarded.mapM ih).bind (each e)

section Rules
variable (each : ∀ e, Guarded fun l => ev l e)
include each

theorem provablyNonzero_guarded (e : Expr) :
    Guarded fun l => provablyNonzero (c.limited l) (ev l) e :=
  (Guarded.checkDepth e).bind fun _ => (each e).bind fun _ => .fixed _

theorem provablyPositive_guarded (e : Expr) :
    Guarded fun l => provablyPositive (c.limited l) (ev l) e :=
  (Guarded.checkDepth e).bind fun _ => (each e).bind fun _ => .fixed _

theorem identityRule?_guarded (op : BinaryOp) (a b : Expr) :
    Guarded fun l => identityRule? (c.limited l) (ev l) op a b := by
  cases op with
  | div =>
    refine .ite (.pure _) (.ite ?_ (.pure _))
    exact (provablyNonzero_guarded each b).bind fun _ => .fixed _
  | _ => exact .fixed _

theorem binaryRule?_guarded (op : BinaryOp) (a b : Expr) :
    Guarded fun l => binaryRule? (c.limited l) (ev l) op a b := by
  unfold binaryRule?
  simp only [equalsValue?_limited, orderValue?_limited, contains?_limited, BinaryOp.compute?_limited]
  split
  case h_8 =>
    split
    · exact .fixed _
    · exact identityRule?_guarded each op a b
  all_goals exact .fixed _

theorem evaluationRule_guarded (self : Expr) (parts : List Expr) :
    Guarded fun l => evaluationRule (c.limited l) (ev l) self parts := by
  unfold evaluationRule
  split
  · simp only [unaryRule?_limited]
    exact .fixed _
  · exact binaryRule?_guarded each _ _ _
  · exact .pure _
  · refine .after _ fun r => ?_
    cases r with
    | some reduced => exact (each reduced).bind fun _ => .pure _
    | none => exact .pure _
  · exact .pure _
  · exact .pure _

theorem openCases_guarded (cases : List (Expr × Expr)) : Guarded fun l => openCases (ev l) cases := by
  induction cases with
  | nil => exact .pure _
  | cons entry rest ih =>
    obtain ⟨e, p⟩ := entry
    refine (each p).bind fun truth => ?_
    split
    · exact .pure _
    · exact ih
    · exact ih.bind fun _ => .pure _

theorem decideCases_guarded (cases : List (Expr × Expr)) : Guarded fun l => decideCases (ev l) cases :=
  (openCases_guarded each cases).bind fun _ => .fixed _

end Rules

theorem liftConditions_guarded {settle : c.DepthLimit → Expr → Computation (Option Expr)}
    {rule : c.DepthLimit → List Expr → Computation (Option Expr)} (self : Expr)
    (settled : ∀ e, Guarded fun l => settle l e) (ruled : ∀ parts, Guarded fun l => rule l parts)
    (fuel : Nat) : ∀ parts, Guarded fun l => liftConditions (settle l) (rule l) self fuel parts := by
  induction fuel with
  | zero =>
    intro parts
    unfold liftConditions
    refine (ruled parts).bind fun r => ?_
    split
    · exact .pure _
    · split
      case h_4 impossible => cases impossible
      all_goals exact .pure _
  | succ fuel ih =>
    intro parts
    unfold liftConditions
    refine (ruled parts).bind fun r => ?_
    split
    · exact .pure _
    · split
      case h_4 same =>
        obtain rfl := Nat.succ.inj same
        refine (settled _).bind fun value => ?_
        split
        · exact .pure _
        · exact (ih _).bind fun _ => .pure _
      all_goals exact .pure _

theorem evaluateNode_guarded (each : ∀ e, Guarded fun l => ev l e) (self : Expr) (parts : List Expr) :
    Guarded fun l => evaluateNode (c.limited l) (ev l) self parts := by
  unfold evaluateNode
  simp only [Number.constant_limited, condition?_limited, confine_limited]
  split
  · exact .pure _
  · exact .pure _
  · exact .fixed _
  · exact decideCases_guarded each _
  · refine .after (condition? c self parts) fun defined => .ite (.pure _) ?_
    exact (liftConditions_guarded self (fun _ => .pure _) (evaluationRule_guarded each self) _ _).bind
      fun _ => .pure _

theorem evaluateWithin_guarded (fuel : Nat) : ∀ e, Guarded fun l => evaluateWithin (c.limited l) fuel e := by
  induction fuel with
  | zero => exact fun _ => .fixed _
  | succ fuel ih => exact foldM_guarded (evaluateNode_guarded ih)

theorem evaluate_guarded (e : Expr) : Guarded fun l => evaluate (c.limited l) e :=
  evaluateWithin_guarded allowance e

theorem evaled_guarded (e : Expr) : Guarded fun l => evaled (c.limited l) e :=
  (Guarded.checkDepth e).bind fun _ => evaluate_guarded e

end Expr
end ComputerAlgebra

import ComputerAlgebra.Proofs.Evaluation.Basic
import ComputerAlgebra.Proofs.Expr.Walk

/-!
Evaluation with more reductions nested inside each other than before. Where it has returned with fewer of them it
returns the same, since the number of them shows in nothing but the refusal of one too many.
-/

namespace ComputerAlgebra

/-- Whatever the first computation returns, the second one returns, and it leaves the same digits. -/
def Refines {α : Type} (m m' : Computation α) : Prop := ∀ u a w, m u = .ok a w → m' u = .ok a w

namespace Refines

variable {α β : Type} {m m' : Computation α} {f g : α → Computation β}

theorem refl (m : Computation α) : Refines m m := fun _ _ _ returned => returned

theorem throw {fault : Fault} : Refines (throw fault) m := fun _ _ _ returned => by cases returned

theorem bind (first : Refines m m') (next : ∀ a, Refines (f a) (g a)) : Refines (m >>= f) (m' >>= g) := by
  intro u b w returned
  obtain ⟨a, v, computed, rest⟩ := Computation.of_bind_ok returned
  rw [Computation.bind_ok (first u a v computed)]
  exact next a v b w rest

theorem after (m : Computation α) (next : ∀ a, Refines (f a) (g a)) : Refines (m >>= f) (m >>= g) :=
  bind (refl m) next

theorem ite {p : Prop} [Decidable p] {n n' : Computation α} (yes : Refines m m') (no : Refines n n') :
    Refines (if p then m else n) (if p then m' else n') := by
  split
  · exact yes
  · exact no

theorem mapM {as : List α} (each : ∀ a ∈ as, Refines (f a) (g a)) : Refines (as.mapM f) (as.mapM g) := by
  induction as with
  | nil => exact refl _
  | cons a as ih =>
    rw [List.forall_mem_cons] at each
    rw [List.mapM_cons, List.mapM_cons]
    exact bind each.1 fun b => bind (ih each.2) fun bs => refl _

theorem succeeds {P : α → Prop} (refines : Refines m m') (given : Succeeds m P) : Succeeds m' P := by
  intro u
  obtain ⟨a, w, returned, holds⟩ := given u
  exact ⟨a, w, refines u a w returned, holds⟩

end Refines

namespace Expr

section Deeper
variable {c : Config} {evaluate evaluate' : Expr → Computation Expr}
  (deeper : ∀ e, Refines (evaluate e) (evaluate' e))
include deeper

theorem identityRule?_deeper (op : BinaryOp) (a b : Expr) :
    Refines (identityRule? c evaluate op a b) (identityRule? c evaluate' op a b) := by
  have nonzero : Refines (provablyNonzero c evaluate b) (provablyNonzero c evaluate' b) :=
    .after _ fun _ => .bind (deeper b) fun _ => .refl _
  cases op with
  | div => exact .ite (.refl _) (.ite (.bind nonzero fun _ => .refl _) (.refl _))
  | _ => exact .refl _

theorem binaryRule?_deeper (op : BinaryOp) (a b : Expr) :
    Refines (binaryRule? c evaluate op a b) (binaryRule? c evaluate' op a b) := by
  unfold binaryRule?
  split
  case h_8 =>
    split
    · exact .refl _
    · exact identityRule?_deeper deeper _ _ _
  all_goals exact .refl _

theorem evaluationRule_deeper (self : Expr) (parts : List Expr) :
    Refines (evaluationRule c evaluate self parts) (evaluationRule c evaluate' self parts) := by
  unfold evaluationRule
  split
  · exact .refl _
  · exact binaryRule?_deeper deeper _ _ _
  · exact .refl _
  · refine .after _ fun r => ?_
    cases r with
    | some e => exact .bind (deeper e) fun _ => .refl _
    | none => exact .refl _
  · exact .refl _
  · exact .refl _

theorem openCases_deeper (cases : List (Expr × Expr)) :
    Refines (openCases evaluate cases) (openCases evaluate' cases) := by
  induction cases with
  | nil => exact .refl _
  | cons entry rest ih =>
    obtain ⟨e, p⟩ := entry
    refine .bind (deeper p) fun v => ?_
    dsimp only
    split
    · exact .refl _
    · exact ih
    · exact .bind ih fun _ => .refl _

omit deeper in
theorem liftConditions_deeper {settle : Expr → Computation (Option Expr)} {rule rule' : List Expr → Computation (Option Expr)}
    (ruled : ∀ parts, Refines (rule parts) (rule' parts)) (self : Expr) (fuel : Nat) : ∀ parts,
    Refines (liftConditions settle rule self fuel parts) (liftConditions settle rule' self fuel parts) := by
  induction fuel with
  | zero =>
    intro parts
    unfold liftConditions
    refine .bind (ruled parts) fun r => ?_
    cases r with
    | some e => exact .refl _
    | none =>
      dsimp only
      split <;> first | exact .refl _ | simp_all
  | succ fuel ih =>
    intro parts
    unfold liftConditions
    refine .bind (ruled parts) fun r => ?_
    cases r with
    | some e => exact .refl _
    | none =>
      dsimp only
      split
      · exact .refl _
      · exact .refl _
      · exact .refl _
      next same =>
        cases same
        refine .after _ fun settled => ?_
        cases settled with
        | some e => exact .refl _
        | none => exact .bind (ih _) fun _ => .refl _

theorem evaluateNode_deeper (self : Expr) (parts : List Expr) :
    Refines (evaluateNode c evaluate self parts) (evaluateNode c evaluate' self parts) := by
  unfold evaluateNode
  split
  · exact .refl _
  · exact .refl _
  · exact .refl _
  · exact .bind (openCases_deeper deeper _) fun _ => .refl _
  · refine .after _ fun defined => .ite (.refl _) ?_
    exact .bind (liftConditions_deeper (evaluationRule_deeper deeper self) self _ parts) fun _ => .refl _

theorem foldM_deeper (e : Expr) :
    Refines (foldM (evaluateNode c evaluate) e) (foldM (evaluateNode c evaluate') e) := by
  induction e using children_induction with
  | node e ih =>
    rw [foldM_eq, foldM_eq]
    exact .bind (.mapM ih) fun parts => evaluateNode_deeper deeper e parts

end Deeper

/-- One more reduction that may be nested changes no result. -/
theorem evaluateWithin_deeper (c : Config) (fuel : Nat) :
    ∀ e, Refines (evaluateWithin c fuel e) (evaluateWithin c (fuel + 1) e) := by
  induction fuel with
  | zero => exact fun _ => .throw
  | succ fuel ih => exact foldM_deeper ih

end Expr
end ComputerAlgebra

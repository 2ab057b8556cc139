import ComputerAlgebra.Proofs.Evaluation.Basic
import ComputerAlgebra.Proofs.Exact.Functions
import ComputerAlgebra.Proofs.Expr.Measure

/-!
Nodes that evaluation leaves as they are. A few rules evaluate a part of their node once more; a stable node
stays when those parts do. An expression of stable nodes is its own value, if it has one: it may still take
more reductions inside each other than are allowed.
-/

namespace ComputerAlgebra

/-- What always succeeds with one result is right for a judgment that only looks at results. -/
def Judgment.Admits (J : Judgment) : Prop :=
  ∀ {α : Type} {m : Computation α} {a : α}, Succeeds m (· = a) → J.Holds m (· = a)

theorem Judgment.returns_admits : Judgment.returns.Admits := fun given u b w result => by
  obtain ⟨_, _, same, rfl⟩ := given u
  rw [same] at result
  cases result
  rfl

theorem Judgment.succeeds_admits : Judgment.succeeds.Admits := fun given => given

theorem Judgment.uniform_admits : Judgment.uniform.Admits := fun given u v => by
  obtain ⟨_, w, first, rfl⟩ := given u
  obtain ⟨_, w', second, rfl⟩ := given v
  rw [first, second]
  refine .exact ?_ w w'
  rfl

namespace Expr

/-- The parts that the rule of a node evaluates once more. -/
def questioned : Expr → List Expr
  | .binary .div a b => if a.isZero then [b] else []
  | .piecewise cases => cases.map (·.2)
  | _ => []

theorem questioned_part {n b : Expr} (member : b ∈ n.questioned) : b ∈ n.children := by
  unfold questioned at member
  split at member
  · split at member
    · rw [List.mem_singleton.mp member]
      simp [children]
    · cases member
  · next cases =>
    obtain ⟨entry, inside, rfl⟩ := List.mem_map.mp member
    exact List.mem_flatMap.mpr ⟨entry, inside, by simp⟩
  · cases member

/-- A node of parts without conditions that is defined and has no rule. -/
structure Rests (c : Config) (n : Expr) : Prop where
  bare : ∀ part ∈ n.children, part.condition = none
  defined : ∃ d, d ≠ some false ∧ Succeeds (condition? c n n.children) (· = d)
  unruled : Succeeds (evaluationRule c pure n n.children) (· = none)
  unspoilt : n.children.any isNaN = false

def StableNode (c : Config) : Expr → Prop
  | .num _ | .bool _ => True
  | .var x => isConstantName x = false
  | .piecewise cases => cases ≠ [] ∧ openCases pure cases = pure (cases, false)
  | n => Rests c n

theorem stableNode_ruled {c : Config} {n : Expr} (ruled : n.isRuled = true) : StableNode c n ↔ Rests c n := by
  cases n <;> first | rfl | cases ruled

section Rules
variable {J : Judgment} {c : Config} {evaluate : Expr → Computation Expr}

theorem openCases_answers {cases : List (Expr × Expr)}
    (answers : ∀ entry ∈ cases, J.Holds (evaluate entry.2) (· = entry.2)) :
    ∃ r, openCases pure cases = pure r ∧ J.Holds (openCases evaluate cases) (· = r) := by
  induction cases with
  | nil => exact ⟨_, rfl, J.pure rfl⟩
  | cons entry rest ih =>
    obtain ⟨e, p⟩ := entry
    rw [List.forall_mem_cons] at answers
    obtain ⟨r, known, found⟩ := ih answers.2
    have asked {x : List (Expr × Expr) × Bool} {k : Expr → Computation (List (Expr × Expr) × Bool)}
        (next : J.Holds (k p) (· = x)) : J.Holds (evaluate p >>= k) (· = x) :=
      J.bind answers.1 fun _ same => same ▸ next
    rw [openCases, openCases, pure_bind, known]
    split
    · exact ⟨_, rfl, asked (J.pure rfl)⟩
    · exact ⟨_, rfl, asked found⟩
    · next open_true open_false =>
      refine ⟨_, rfl, asked ?_⟩
      split
      · next same => exact absurd rfl open_true
      · next same => exact absurd rfl open_false
      · exact J.bind found fun _ same => same ▸ J.pure rfl

/-- Numbers are computed with; for other operands an operation has its identities. -/
theorem binaryRule?_identity {op : BinaryOp} {a b : Expr} (arithmetic : op.isStatement = false)
    (nonnumeric : (a.isNumber && b.isNumber) = false) :
    binaryRule? c evaluate op a b = identityRule? c evaluate op a b := by
  unfold binaryRule?
  split
  case h_8 =>
    split
    · cases nonnumeric
    · rfl
  all_goals cases arithmetic

theorem binaryRule?_answers (admits : J.Admits) {op : BinaryOp} {a b : Expr}
    (unruled : Succeeds (binaryRule? c pure op a b) (· = none))
    (answers : ∀ part ∈ questioned (.binary op a b), J.Holds (evaluate part) (· = part)) :
    J.Holds (binaryRule? c evaluate op a b) (· = none) := by
  by_cases quotient : op = .div
  · subst quotient
    cases numeric : b.isNumber with
    | true =>
      cases b with
      | num w => cases a <;> exact admits unruled
      | _ => cases numeric
    | false =>
      rw [binaryRule?_identity rfl (by simp [numeric])] at unruled ⊢
      unfold identityRule? at unruled ⊢
      cases one : b.isOne with
      | true => exact admits (by simpa [one] using unruled)
      | false =>
        cases zero : a.isZero with
        | false => exact admits (by simpa [one, zero] using unruled)
        | true =>
          have known := answers b (by simp [questioned, zero])
          simp only [one, zero, if_true, Bool.false_eq_true, if_false] at unruled ⊢
          cases shallow : b.checkDepth c with
          | error f =>
            obtain ⟨_, _, run, -⟩ := unruled ⟨0⟩
            rw [provablyNonzero, shallow] at run
            cases run
          | ok =>
            have small : J.Holds (provablyNonzero c evaluate b) (· = false) := by
              rw [provablyNonzero, shallow]
              refine J.bind (J.pure rfl) fun _ _ => J.bind known fun r same => ?_
              subst same
              cases r with
              | num z => cases numeric
              | _ => exact J.pure rfl
            exact J.bind small fun t same => same ▸ J.pure rfl
  · cases op <;> first | exact admits unruled | exact absurd rfl quotient

theorem Rests.evaluationRule (admits : J.Admits) {n : Expr} (rests : Rests c n)
    (answers : ∀ part ∈ questioned n, J.Holds (evaluate part) (· = part)) :
    J.Holds (evaluationRule c evaluate n n.children) (· = none) := by
  have unruled := rests.unruled
  cases n with
  | binary op a b => exact binaryRule?_answers admits unruled answers
  | app f args =>
    unfold Expr.evaluationRule at unruled ⊢
    simp only [children] at unruled ⊢
    cases step : reduceOnce? (.app f args) f args with
    | error fault =>
      obtain ⟨_, _, run, -⟩ := unruled ⟨0⟩
      rw [step] at run
      cases run
    | ok reduced =>
      cases reduced with
      | none => exact J.pure rfl
      | some e =>
        obtain ⟨_, _, run, same⟩ := unruled ⟨0⟩
        rw [step] at run
        cases run
        cases same
  | _ => exact admits unruled

theorem Rests.evaluateNode (admits : J.Admits) {n : Expr} (ruled : n.isRuled = true) (rests : Rests c n)
    (answers : ∀ part ∈ questioned n, J.Holds (evaluate part) (· = part)) :
    J.Holds (evaluateNode c evaluate n n.children) (· = n) := by
  obtain ⟨d, open_, known⟩ := rests.defined
  rw [evaluateNode_bare ruled rests.bare]
  refine J.bind (admits known) fun _ same => ?_
  subst same
  rw [if_neg open_]
  refine J.bind (rests.evaluationRule admits answers) fun _ same => J.pure ?_
  rw [same, Option.getD_none, isRuled_withChildren ruled, confine_eq rests.unspoilt (isRuled_fits ruled _)]

theorem pairUp_flatMap (cases : List (Expr × Expr)) :
    pairUp (cases.flatMap fun (e, p) => [e, p]) = cases := by
  induction cases with
  | nil => rfl
  | cons entry rest ih => exact congrArg (entry :: ·) ih

/-- A stable node stays when the parts do that its rule evaluates once more. -/
theorem StableNode.evaluateNode (admits : J.Admits) {n : Expr} (stable : StableNode c n)
    (answers : ∀ part ∈ questioned n, J.Holds (evaluate part) (· = part)) :
    J.Holds (evaluateNode c evaluate n n.children) (· = n) := by
  cases n with
  | num | bool => exact J.pure rfl
  | var x =>
    have plain : isConstantName x = false := stable
    rw [Expr.evaluateNode, plain]
    exact J.pure rfl
  | piecewise cases =>
    obtain ⟨given, same⟩ := stable
    rw [Expr.evaluateNode, children, pairUp_flatMap, decideCases]
    have asked : ∀ entry ∈ cases, J.Holds (evaluate entry.2) (· = entry.2) := fun entry member =>
      answers entry.2 (List.mem_map_of_mem member)
    obtain ⟨r, known, found⟩ := openCases_answers asked
    rw [same] at known
    cases congrFun known ⟨0⟩
    refine J.bind found fun _ same => ?_
    subst same
    cases cases with
    | nil => exact absurd rfl given
    | cons => exact J.pure rfl
  | _ => exact Rests.evaluateNode admits rfl stable answers

end Rules

section Walk
variable {J : Judgment} {c : Config} {e : Expr}

/-- A walk over stable nodes comes back to the expression. -/
theorem foldM_stable (admits : J.Admits) {evaluate : Expr → Computation Expr} (stable : Throughout (StableNode c) e)
    (answers : ∀ n ∈ e.nodes, ∀ part ∈ questioned n, J.Holds (evaluate part) (· = part)) :
    J.Holds (foldM (evaluateNode c evaluate) e) (· = e) := by
  induction e using children_induction with
  | node e ih =>
    obtain ⟨node, below⟩ := throughout_iff.mp stable
    rw [foldM_eq]
    have parts : J.Holds (e.children.mapM (foldM (evaluateNode c evaluate))) (· = e.children) := by
      have each : J.Holds (e.children.mapM (foldM (evaluateNode c evaluate)))
          (List.Forall₂ (fun part r => r = part) e.children) :=
        J.mapM (List.forall₂_same.mpr fun part member =>
          ih part member (below part member) fun n inside => answers n (nodes_part member inside))
      exact J.mono each fun rs same => (List.forall₂_eq_eq_eq ▸ (same.imp fun _ _ => Eq.symm)).symm
    refine J.bind parts fun _ same => ?_
    subst same
    exact node.evaluateNode admits (answers e (by rw [nodes_eq]; exact List.mem_cons_self))

/-- An expression of stable nodes evaluates to nothing but itself. -/
theorem evaluateWithin_stable (admits : J.Admits) (lenient : J.Lenient) (fuel : Nat) :
    ∀ {e : Expr}, Throughout (StableNode c) e → J.Holds (evaluateWithin c fuel e) (· = e) := by
  induction fuel with
  | zero => exact fun _ => lenient.throw
  | succ fuel ih =>
    intro e stable
    refine foldM_stable admits stable fun n inside part member => ih ?_
    exact (stable.within inside).part (questioned_part member)

end Walk

end Expr
end ComputerAlgebra

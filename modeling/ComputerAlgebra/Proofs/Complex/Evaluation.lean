import ComputerAlgebra.Proofs.Complex.Meaning
import ComputerAlgebra.Proofs.Evaluation.Basic
import ComputerAlgebra.Proofs.Expr.Measure
import ComputerAlgebra.Proofs.Expr.Walk
import ComputerAlgebra.Proofs.Limit.Refusal
import ComputerAlgebra.Simplification.Rules

/-!
Evaluation of elementary expressions adds no node, and under settings that can be used it comes to a result
unless a guard refuses. The trees that a guard sees are no deeper than the expression has nodes, and
evaluations are nested in each other no more often than its divisors are.
-/

namespace ComputerAlgebra

namespace Expr

variable {c : Config} {n k : Nat}

/-- An elementary expression over regular numbers with at most so many nodes, and that many divisors inside each
other. -/
structure Bounded (n k : Nat) (e : Expr) : Prop where
  elementary : Elementary Number.Regular e
  small : e.complexity ≤ n
  shallow : e.nesting 0 ≤ k

namespace Bounded

theorem num {z : Number} (regular : z.Regular) (positive : 0 < n) : Bounded n k (.num z) :=
  ⟨.num regular, positive, Nat.zero_le _⟩

theorem condition {e : Expr} (bounded : Bounded n k e) : e.condition = none := by
  cases bounded.elementary <;> rfl

theorem confine {self e : Expr} (bounded : Bounded n k e) : Bounded n k (confine c self e (.num .nan)) := by
  have nan : Bounded n k (.num .nan) := .num (Number.regular_of_exact rfl) ((complexity_pos e).trans_le bounded.small)
  unfold Expr.confine
  split
  · exact nan
  split
  · exact bounded
  · exact nan

end Bounded

theorem compute?_bounded (usable : c.Usable) {op : BinaryOp} {x y : Number}
    (arithmetic : op ∈ [BinaryOp.sum, .minus, .mul, .div, .pow]) (left : x.Regular) (right : y.Regular) :
    Succeeds (op.compute? c x y) fun r => ∃ z, r = some z ∧ z.Regular := by
  have closed := RealNumber.regular_closed usable
  have wrap {m : Computation Number} (given : Succeeds m Number.Regular) :
      Succeeds (do return some (← m)) fun r => ∃ z, r = some z ∧ z.Regular :=
    given.bind fun z regular => .pure ⟨z, rfl, regular⟩
  simp only [List.mem_cons, List.not_mem_nil, or_false] at arithmetic
  rcases arithmetic with rfl | rfl | rfl | rfl | rfl
  · exact wrap (Number.add_succeeds closed left right)
  · exact wrap (Number.sub_succeeds closed left right)
  · exact wrap (Number.mul_succeeds closed left right)
  · exact wrap (Number.div_succeeds closed left right)
  · exact wrap (Number.pow_succeeds usable.toReadable _ _)

section Node
variable {R : Fault → Prop} {evaluate : Expr → Computation Expr}

/-- A rule that gives expressions within bounds, or nothing. -/
def Yields (R : Fault → Prop) (n k : Nat) (rule : Computation (Option Expr)) : Prop :=
  Permitted R rule fun r => ∀ t, r = some t → Bounded n k t

theorem Yields.none : Yields R n k (pure Option.none) := .of_succeeds (.pure (by simp))

theorem Yields.some {t : Expr} (bounded : Bounded n k t) : Yields R n k (pure (Option.some t)) :=
  .of_succeeds (.pure (by rintro _ ⟨rfl⟩; exact bounded))

/-- Evaluation of divisors, which is what the proofs that something is not zero ask for. -/
structure Nests (c : Config) (R : Fault → Prop) (n k : Nat) (evaluate : Expr → Computation Expr) : Prop where
  deep : ∀ depth, depth ≤ n → c.isTooDeep depth = true → R (.treeTooDeep depth c.maxTreeDepth.plainText)
  inner : ∀ e, Elementary Number.Regular e → e.complexity ≤ n → e.nesting 0 < k → Permitted R (evaluate e) fun _ => True

theorem Nests.mono {m j : Nat} (nests : Nests c R n k evaluate) (le : m ≤ n) (le' : j ≤ k) : Nests c R m j evaluate :=
  ⟨fun depth shallow => nests.deep depth (shallow.trans le),
    fun e given small shallow => nests.inner e given (small.trans le) (shallow.trans_le le')⟩

theorem provablyNonzero_permitted (nests : Nests c R n k evaluate) {e : Expr}
    (given : Elementary Number.Regular e) (small : e.complexity ≤ n) (shallow : e.nesting 0 < k) :
    Permitted R (provablyNonzero c evaluate e) fun _ => True := by
  refine (Permitted.checkDepth (nests.deep _ ((depth_le_complexity e).trans small))).bind fun _ _ => ?_
  refine (nests.inner e given small shallow).bind fun r _ => ?_
  split <;> exact .of_succeeds (.pure trivial)

theorem identityRule?_yields (nests : Nests c R n k evaluate) (op : BinaryOp) {a b : Expr}
    (given : Bounded n k (.binary op a b)) : Yields R n k (identityRule? c evaluate op a b) := by
  obtain ⟨-, left, right⟩ := elementary_binary.mp given.elementary
  have small := given.small
  have shallow := given.shallow
  simp only [complexity_binary, nesting_binary] at small shallow
  have first : Bounded n k a := ⟨left, by omega, by omega⟩
  have second : Bounded n k b := ⟨right, by omega, by omega⟩
  have number (z : Number) (exact_one : z.isExact = true) : Bounded n k (.num z) :=
    .num (Number.regular_of_exact exact_one) (by omega)
  cases op with
  | mul =>
    simp only [identityRule?]
    split
    · exact .some (number 0 rfl)
    split
    · exact .some second
    split
    · exact .some first
    · exact .none
  | div =>
    simp only [identityRule?]
    split
    · exact .some first
    split
    · rw [if_pos rfl] at shallow
      refine (provablyNonzero_permitted nests right (by omega) (by omega)).bind fun found _ => ?_
      split
      · exact Yields.some (number 0 rfl)
      · exact Yields.none
    · exact .none
  | pow =>
    simp only [identityRule?]
    split
    · exact .some (number 1 rfl)
    split
    · exact .some first
    · exact .none
  | _ => exact .none

theorem binaryRule?_yields (usable : c.Usable) (nests : Nests c R n k evaluate) {op : BinaryOp} {a b : Expr}
    (given : Bounded n k (.binary op a b)) : Yields R n k (binaryRule? c evaluate op a b) := by
  obtain ⟨arithmetic, left, right⟩ := elementary_binary.mp given.elementary
  have positive : 0 < n := (complexity_pos _).trans_le given.small
  unfold binaryRule?
  split
  case h_8 =>
    split
    · next x y =>
      have computed := compute?_bounded usable arithmetic (elementary_num.mp left) (elementary_num.mp right)
      refine .of_succeeds (computed.bind ?_)
      rintro _ ⟨z, rfl, regular⟩
      refine .pure ?_
      rintro _ ⟨rfl⟩
      exact .num regular positive
    · exact identityRule?_yields nests op given
  all_goals simp at arithmetic

theorem circularRule_yields (usable : c.Usable) {f : Circular} {a a' : Expr} {m j : Nat} (given : Bounded m j a') :
    Yields R (1 + m) k (evaluationRule c evaluate (.unary (.circular f) a) [a']) := by
  cases given.elementary with
  | num regular =>
    refine .of_succeeds (Succeeds.bind (Succeeds.bind (Number.circular_succeeds usable f regular) fun z regular =>
      .pure (P := fun r => ∃ z, r = some z ∧ z.Regular) ⟨z, rfl, regular⟩) ?_)
    rintro _ ⟨z, rfl, regular⟩
    refine .pure ?_
    rintro _ ⟨rfl⟩
    exact .num regular (by omega)
  | var | circular | binary => exact .none

/-- A node that its rule decides, or that stands over its parts, keeps the bound. -/
theorem ruled_bounded {self : Expr} {parts : List Expr} (ruled : self.isRuled = true)
    (bare : ∀ part ∈ parts, part.condition = none) (given : Bounded n k (self.withChildren parts))
    (defined : Succeeds (condition? c self parts) fun _ => True)
    (rule : Yields R n k (evaluationRule c evaluate self parts)) :
    Permitted R (evaluateNode c evaluate self parts) (Bounded n k) := by
  have positive : 0 < n := (complexity_pos _).trans_le given.small
  rw [evaluateNode_bare ruled bare]
  refine (Permitted.of_succeeds defined).bind fun d _ => ?_
  split
  · exact .of_succeeds (.pure (.num (Number.regular_of_exact rfl) positive))
  · refine rule.bind fun r yielded => .of_succeeds (.pure (Bounded.confine ?_))
    cases r with
    | some t => exact yielded t rfl
    | none => exact given

theorem evaluateNode_bounded (usable : c.Usable) (nests : Nests c R n k evaluate) {e : Expr} {parts : List Expr}
    (given : Bounded n k e)
    (related : List.Forall₂ (fun part r => Bounded part.complexity (part.nesting 0) r) e.children parts) :
    Permitted R (evaluateNode c evaluate e parts) (Bounded e.complexity (e.nesting 0)) := by
  cases given.elementary with
  | num regular => exact .of_succeeds (.pure (.num regular (complexity_pos _)))
  | var x =>
    simp only [evaluateNode]
    split
    · next constant =>
      refine (Permitted.of_succeeds (Number.constant_succeeds usable constant)).bind fun z regular => ?_
      exact .of_succeeds (.pure (Bounded.confine (.num regular (complexity_pos _))))
    · exact .of_succeeds (.pure ⟨.var x, le_rfl, le_rfl⟩)
  | @circular f a direct argument =>
    obtain ⟨a', rest, first, none_left, rfl⟩ := List.forall₂_cons_left_iff.mp related
    obtain rfl := List.forall₂_nil_left_iff.mp none_left
    have shallow := first.shallow
    have rebuilt : Bounded (1 + a.complexity) ((Expr.unary (.circular f) a).nesting 0) (.unary (.circular f) a') :=
      ⟨.circular direct first.elementary, by simpa using first.small, by simp only [nesting_unary]; omega⟩
    rw [complexity_unary]
    refine ruled_bounded rfl ?_ rebuilt (.pure trivial) (circularRule_yields usable first)
    exact List.forall_mem_singleton.mpr first.condition
  | @binary op a b arithmetic left right =>
    obtain ⟨a', rest, first, others, rfl⟩ := List.forall₂_cons_left_iff.mp related
    obtain ⟨b', rest, second, none_left, rfl⟩ := List.forall₂_cons_left_iff.mp others
    obtain rfl := List.forall₂_nil_left_iff.mp none_left
    have fewer := first.small
    have fewer' := second.small
    have lower := first.shallow
    have lower' := second.shallow
    have rebuilt : Bounded (Expr.binary op a b).complexity ((Expr.binary op a b).nesting 0) (.binary op a' b') := by
      refine ⟨.binary arithmetic first.elementary second.elementary, ?_, ?_⟩
      · simp only [complexity_binary]
        omega
      · simp only [nesting_binary, ite_self]
        omega
    have single : b'.isSet = false := by cases second.elementary <;> rfl
    refine ruled_bounded rfl ?_ rebuilt (condition?_succeeds single)
      (binaryRule?_yields usable (nests.mono given.small given.shallow) rebuilt)
    simp [first.condition, second.condition]

end Node

section Evaluation
variable (usable : c.Usable)
include usable

/-- Evaluation keeps the bounds, and is refused by guards only. -/
theorem evaluateWithin_bounded (fuel : Nat) : ∀ {n k : Nat} {e : Expr}, Bounded n k e →
    Permitted (Exceeds c (· ≤ n) (fuel ≤ k)) (evaluateWithin c fuel e) (Bounded e.complexity (e.nesting 0)) := by
  induction fuel with
  | zero => exact fun _ => .throw (.endless (Nat.zero_le _))
  | succ fuel ih =>
    intro n k e given
    -- A divisor nests less, so the bound and the allowance go down together.
    have nests : Nests c (Exceeds c (· ≤ n) (fuel + 1 ≤ k)) n k (evaluateWithin c fuel) := by
      refine ⟨fun _ shallow deeper => .tooDeep shallow deeper, fun e given small shallow => ?_⟩
      refine Permitted.mono ((ih ⟨given, small, le_rfl⟩).weaken fun f exceeds => ?_) fun _ _ => trivial
      cases exceeds with
      | tooDeep le deeper => exact .tooDeep le deeper
      | endless many => exact .endless (many.trans_lt shallow)
    refine foldM_holds (.permitted _) (P := Bounded n k) (R := fun e => Bounded e.complexity (e.nesting 0))
      (fun given part member => ?_) (fun given related => evaluateNode_bounded usable nests given related) given
    exact ⟨given.elementary.part member, (complexity_child member).le.trans given.small,
      (nesting_part member).trans given.shallow⟩

/-- Asking whether an elementary expression is zero is refused by guards only. -/
theorem nonzero_asks {n k : Nat} {e : Expr} (given : IsElementary e) (small : e.complexity ≤ n)
    (shallow : e.nesting 0 ≤ k) : Permitted (Exceeds c (· ≤ n) (allowance ≤ k)) (nonzero c e) fun _ => True := by
  have regular : Elementary Number.Regular e := given.mono fun z found => by
    obtain ⟨g, same⟩ := Option.isSome_iff_exists.mp found
    rw [Number.gaussian?_eq_some.mp same]
    exact Number.regular_of_exact (Number.ofGaussian_isExact g)
  refine (Permitted.checkDepth (.tooDeep ((depth_le_complexity e).trans small))).bind fun _ _ => ?_
  refine (evaluateWithin_bounded usable allowance ⟨regular, small, shallow⟩).bind fun r _ => ?_
  split <;> exact .of_succeeds (.pure trivial)

end Evaluation

end Expr
end ComputerAlgebra

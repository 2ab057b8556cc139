import ComputerAlgebra.Expr.Order

/-!
The order of expressions tells different expressions apart: two that compare as equal are the same.
-/

namespace ComputerAlgebra

open Std (LawfulEqOrd)

namespace UnaryOp

theorem mem_all (op : UnaryOp) : op ∈ all := by
  cases op with
  | circular f => cases f <;> decide
  | factorial | phi | signum | abs | not => decide

private theorem all_names : ∀ op ∈ all, ∀ op' ∈ all, op.name = op'.name → op = op' := by
  decide +kernel

theorem name_injective {op op' : UnaryOp} (same : op.name = op'.name) : op = op' :=
  all_names op (mem_all op) op' (mem_all op') same

end UnaryOp

namespace BinaryOp

theorem mem_all (op : BinaryOp) : op ∈ all := by
  cases op with
  | order test => cases test <;> decide
  | sum | minus | mul | div | pow | log | and | or | xor | implies | equals | mem => decide

private theorem all_names : ∀ op ∈ all, ∀ op' ∈ all, op.name = op'.name → op = op' := by
  decide +kernel

theorem name_injective {op op' : BinaryOp} (same : op.name = op'.name) : op = op' :=
  all_names op (mem_all op) op' (mem_all op') same

end BinaryOp

namespace RealNumber

private theorem parts_injective {x y : Dyadic} (same : BigFloat.parts x = BigFloat.parts y) :
    x = y := by
  cases x with
  | zero =>
    cases y with
    | zero => rfl
    | ofOdd n k odd =>
      have zero : 0 = n := congrArg Prod.fst same
      subst zero
      exact absurd odd (by decide)
  | ofOdd n k odd =>
    cases y with
    | zero =>
      have zero : n = 0 := congrArg Prod.fst same
      subst zero
      exact absurd odd (by decide)
    | ofOdd m l odd' =>
      have mantissa : n = m := congrArg Prod.fst same
      have exponent : k = l := congrArg Prod.snd same
      subst mantissa exponent
      rfl

theorem eq_of_cmp {a b : RealNumber} (same : a.cmp b = .eq) : a = b := by
  cases a <;> cases b <;> simp only [cmp, rank, Ordering.then_eq_eq] at same
  case rational.rational p q =>
    rw [Rat.ext (LawfulEqOrd.eq_of_compare same.1) (LawfulEqOrd.eq_of_compare same.2)]
  case float.float x y =>
    have mantissa := LawfulEqOrd.eq_of_compare same.2
    have exponent := LawfulEqOrd.eq_of_compare same.1
    rw [parts_injective (Prod.ext mantissa exponent)]
  case infinity.infinity s t => rw [LawfulEqOrd.eq_of_compare same]
  case nan.nan => rfl
  all_goals exact absurd same (by decide)

end RealNumber

theorem Number.eq_of_cmp {a b : Number} (same : a.cmp b = .eq) : a = b := by
  cases a <;> cases b <;> simp only [cmp, Ordering.then_eq_eq, reduceCtorEq] at same
  case real.real x y => rw [RealNumber.eq_of_cmp same]
  case complex.complex x y x' y' =>
    rw [RealNumber.eq_of_cmp same.1, RealNumber.eq_of_cmp same.2]

namespace Expr

private theorem rank_ne {m n : Nat} (different : m ≠ n) : compare m n ≠ .eq := by
  intro same
  exact different (LawfulEqOrd.eq_of_compare same)

mutual
theorem eq_of_cmp : ∀ {e e' : Expr}, cmp e e' = .eq → e = e'
  | .num z, e', h => by
    cases e' <;> simp only [cmp] at h
    case num w => rw [Number.eq_of_cmp h]
    all_goals exact absurd h (rank_ne (by simp [rank]))
  | .var x, e', h => by
    cases e' <;> simp only [cmp] at h
    case var y => rw [LawfulEqOrd.eq_of_compare h]
    all_goals exact absurd h (rank_ne (by simp [rank]))
  | .bool b, e', h => by
    cases e' <;> simp only [cmp] at h
    case bool b' => rw [LawfulEqOrd.eq_of_compare h]
    all_goals exact absurd h (rank_ne (by simp [rank]))
  | .unary op a, e', h => by
    cases e' <;> simp only [cmp, Ordering.then_eq_eq] at h
    case unary op' a' =>
      rw [UnaryOp.name_injective (LawfulEqOrd.eq_of_compare h.1), eq_of_cmp h.2]
    all_goals exact absurd h (rank_ne (by simp [rank]))
  | .binary op a b, e', h => by
    cases e' <;> simp only [cmp, Ordering.then_eq_eq] at h
    case binary op' a' b' =>
      rw [BinaryOp.name_injective (LawfulEqOrd.eq_of_compare h.1.1), eq_of_cmp h.1.2,
        eq_of_cmp h.2]
    all_goals exact absurd h (rank_ne (by simp [rank]))
  | .lam p body, e', h => by
    cases e' <;> simp only [cmp, Ordering.then_eq_eq] at h
    case lam p' body' => rw [LawfulEqOrd.eq_of_compare h.1, eq_of_cmp h.2]
    all_goals exact absurd h (rank_ne (by simp [rank]))
  | .app f args, e', h => by
    cases e' <;> simp only [cmp, Ordering.then_eq_eq] at h
    case app f' args' => rw [eq_of_cmp h.1, eq_of_cmpList h.2]
    all_goals exact absurd h (rank_ne (by simp [rank]))
  | .provided e p, e', h => by
    cases e' <;> simp only [cmp, Ordering.then_eq_eq] at h
    case provided e' p' => rw [eq_of_cmp h.1, eq_of_cmp h.2]
    all_goals exact absurd h (rank_ne (by simp [rank]))
  | .piecewise cases, e', h => by
    cases e' <;> simp only [cmp] at h
    case piecewise cases' => rw [eq_of_cmpCases h]
    all_goals exact absurd h (rank_ne (by simp [rank]))
  | .interval low high, e', h => by
    cases e' <;> simp only [cmp, Ordering.then_eq_eq] at h
    case interval low' high' => rw [eq_of_cmp h.1, eq_of_cmp h.2]
    all_goals exact absurd h (rank_ne (by simp [rank]))
theorem eq_of_cmpList : ∀ {es es' : List Expr}, cmpList es es' = .eq → es = es'
  | [], es', h => by
    cases es' with
    | nil => rfl
    | cons => simp [cmpList] at h
  | e :: rest, es', h => by
    cases es' with
    | nil => simp [cmpList] at h
    | cons e' rest' =>
      simp only [cmpList, Ordering.then_eq_eq] at h
      rw [eq_of_cmp h.1, eq_of_cmpList h.2]
theorem eq_of_cmpCases : ∀ {cs cs' : List (Expr × Expr)}, cmpCases cs cs' = .eq → cs = cs'
  | [], cs', h => by
    cases cs' with
    | nil => rfl
    | cons => simp [cmpCases] at h
  | (e, p) :: rest, cs', h => by
    cases cs' with
    | nil => simp [cmpCases] at h
    | cons c cs' =>
      obtain ⟨e', p'⟩ := c
      simp only [cmpCases, Ordering.then_eq_eq] at h
      rw [eq_of_cmp h.1.1, eq_of_cmp h.1.2, eq_of_cmpCases h.2]
end

end Expr
end ComputerAlgebra

import ComputerAlgebra.Proofs.Expr.Order
import Mathlib.Data.List.Sort

/-!
Sorting by a comparison. A comparison that is total and transitive sorts any two lists with the same
elements alike, as far as it tells these elements apart.
-/

namespace ComputerAlgebra

open Std (TransCmp OrientedCmp)

section Comparison
variable {α β : Type} {cmp : β → β → Ordering} [TransCmp cmp]

theorem transCmp_comap (f : α → β) : TransCmp fun s t => cmp (f s) (f t) where
  eq_swap := OrientedCmp.eq_swap
  isLE_trans := TransCmp.isLE_trans

theorem transCmp_reverse (f : α → β) : TransCmp fun s t => cmp (f t) (f s) where
  eq_swap := OrientedCmp.eq_swap
  isLE_trans first second := TransCmp.isLE_trans second first

end Comparison

section Sorting
variable {α : Type} (cmp : α → α → Ordering) [TransCmp cmp]

theorem pairwise_mergeSort_cmp (items : List α) :
    (items.mergeSort fun s t => cmp s t != .gt).Pairwise fun s t => cmp s t ≠ .gt := by
  have ordered : (items.mergeSort fun s t => cmp s t != .gt).Pairwise
      fun s t => (cmp s t != .gt) = true := by
    apply List.pairwise_mergeSort
    · intro s t v first second
      simp only [bne_iff_ne, ← Ordering.isLE_iff_ne_gt] at first second ⊢
      exact TransCmp.isLE_trans first second
    · intro s t
      have swap : cmp t s = (cmp s t).swap := OrientedCmp.eq_swap
      rw [swap]
      cases cmp s t <;> rfl
  exact ordered.imp fun le => by simpa using le

/-- Two lists with the same elements are sorted alike when the comparison tells the elements apart. -/
theorem mergeSort_eq_of_perm {items others : List α} (perm : items.Perm others)
    (apart : ∀ s ∈ items, ∀ t ∈ items, cmp s t = .eq → s = t) :
    items.mergeSort (fun s t => cmp s t != .gt) = others.mergeSort fun s t => cmp s t != .gt := by
  have sorted := (List.mergeSort_perm items fun s t => cmp s t != .gt).trans
    (perm.trans (List.mergeSort_perm others fun s t => cmp s t != .gt).symm)
  refine sorted.eq_of_pairwise (fun s t inside inside' below above => ?_)
    (pairwise_mergeSort_cmp cmp items) (pairwise_mergeSort_cmp cmp others)
  apply apart s (List.mem_mergeSort.mp inside) t (perm.mem_iff.mpr (List.mem_mergeSort.mp inside'))
  have swap : cmp t s = (cmp s t).swap := OrientedCmp.eq_swap
  rw [swap] at above
  cases order : cmp s t with
  | lt => rw [order] at above; exact absurd rfl above
  | eq => rfl
  | gt => exact absurd order below

end Sorting
end ComputerAlgebra

/-!
The order of expressions is total. An expression is spelled as a list of marks from the root on, in which
every mark says how much there is to follow; the order of expressions is that of their spellings, mark by
mark, and so it is transitive and the same in both directions.
-/

namespace ComputerAlgebra

open Std (TransCmp)

abbrev Mark := Int × String

namespace Mark

def plain (n : Int) : Mark := (n, "")

abbrev cmp : Mark → Mark → Ordering := compareLex (compareOn Prod.fst) (compareOn Prod.snd)

end Mark

open Mark (plain)

abbrev markOrder : List Mark → List Mark → Ordering := List.compareLex Mark.cmp

theorem markOrder_cons (n m : Int) (s t : String) (xs ys : List Mark) :
    markOrder ((n, s) :: xs) ((m, t) :: ys) =
      ((compare n m).then (compare s t)).then (markOrder xs ys) :=
  List.compareLex_cons_cons

theorem markOrder_plain (n m : Int) (xs ys : List Mark) :
    markOrder (plain n :: xs) (plain m :: ys) = (compare n m).then (markOrder xs ys) := by
  rw [plain, plain, markOrder_cons, Std.ReflOrd.compare_self, Ordering.then_eq]

theorem compare_natCast (m n : Nat) : compare (m : Int) (n : Int) = compare m n := by
  rcases Nat.lt_trichotomy m n with below | rfl | above
  · rw [compare_lt_iff_lt.mpr below, compare_lt_iff_lt.mpr (Int.ofNat_lt.mpr below)]
  · rw [Std.ReflOrd.compare_self, Std.ReflOrd.compare_self]
  · rw [compare_gt_iff_gt.mpr above, compare_gt_iff_gt.mpr (Int.ofNat_lt.mpr above)]

/-- Spellings that start with different sorts are in the order of the sorts. -/
theorem markOrder_apart {m n : Nat} (apart : m ≠ n) (s t : String) (xs ys : List Mark) (next : Ordering) :
    markOrder ((m, s) :: xs) ((n, t) :: ys) = (compare m n).then next := by
  rw [markOrder_cons, compare_natCast]
  cases order : compare m n with
  | eq => exact absurd (Std.LawfulEqOrd.eq_of_compare order) apart
  | lt | gt => rfl

def RealNumber.marks : RealNumber → List Mark
  | .rational q => [plain 0, plain q.num, plain q.den]
  | .float x => [plain 1, plain (BigFloat.parts x).2, plain (BigFloat.parts x).1]
  | .infinity s => [plain 2, plain s.toInt]
  | .nan => [plain 3]

def Number.marks : Number → List Mark
  | .real r => plain 0 :: r.marks
  | .complex re im => plain 1 :: (re.marks ++ im.marks)

namespace RealNumber

private theorem marks_rank (a : RealNumber) : ∃ rest, a.marks = ((a.rank : Int), "") :: rest := by
  cases a <;> exact ⟨_, rfl⟩

private theorem cmp_of_rank {a b : RealNumber} (apart : a.rank ≠ b.rank) : a.cmp b = compare a.rank b.rank := by
  cases a <;> cases b <;> first | rfl | exact absurd rfl apart

private theorem markOrder_of_rank {a b : RealNumber} (apart : a.rank ≠ b.rank) (xs ys : List Mark) :
    markOrder (a.marks ++ xs) (b.marks ++ ys) = (a.cmp b).then (markOrder xs ys) := by
  obtain ⟨rest, first⟩ := marks_rank a
  obtain ⟨rest', second⟩ := marks_rank b
  rw [cmp_of_rank apart, first, second]
  exact markOrder_apart apart _ _ _ _ _

theorem markOrder_marks (a b : RealNumber) (xs ys : List Mark) :
    markOrder (a.marks ++ xs) (b.marks ++ ys) = (a.cmp b).then (markOrder xs ys) := by
  cases a <;> cases b
  case rational.rational p q => simp [marks, markOrder_plain, cmp, compare_natCast, Ordering.then_assoc]
  case float.float x y => simp [marks, markOrder_plain, cmp, Ordering.then_assoc]
  case infinity.infinity s t => cases s <;> cases t <;> simp [marks, markOrder_plain, cmp] <;> rfl
  case nan.nan => simp [marks, markOrder_plain, cmp, rank]
  all_goals exact markOrder_of_rank (by simp [rank]) xs ys

end RealNumber

theorem Number.markOrder_marks (a b : Number) (xs ys : List Mark) :
    markOrder (a.marks ++ xs) (b.marks ++ ys) = (a.cmp b).then (markOrder xs ys) := by
  cases a <;> cases b
  case real.real x y => simp [marks, markOrder_plain, cmp, RealNumber.markOrder_marks]
  case complex.complex => simp [marks, markOrder_plain, cmp, RealNumber.markOrder_marks, Ordering.then_assoc]
  case real.complex | complex.real => exact markOrder_plain _ _ _ _

namespace Expr

mutual
def marks : Expr → List Mark
  | .num z => plain 0 :: z.marks
  | .var x => [(1, x)]
  | .bool b => [plain 2, plain b.toInt]
  | .unary op a => (3, op.name) :: marks a
  | .binary op a b => (4, op.name) :: (marks a ++ marks b)
  | .lam p body => (5, p) :: marks body
  | .app f args => plain 6 :: (marks f ++ marksList args)
  | .provided e p => plain 7 :: (marks e ++ marks p)
  | .piecewise cases => plain 8 :: marksCases cases
  | .interval low high => plain 9 :: (marks low ++ marks high)
def marksList : List Expr → List Mark
  | [] => [plain 0]
  | e :: rest => plain 1 :: (marks e ++ marksList rest)
def marksCases : List (Expr × Expr) → List Mark
  | [] => [plain 0]
  | (e, p) :: rest => plain 1 :: (marks e ++ marks p ++ marksCases rest)
end

private theorem marks_rank (e : Expr) : ∃ s rest, e.marks = ((e.rank : Int), s) :: rest := by
  cases e <;> exact ⟨_, _, by rw [marks]; rfl⟩

private theorem cmp_of_rank {a b : Expr} (apart : a.rank ≠ b.rank) : a.cmp b = compare a.rank b.rank := by
  cases a <;> cases b <;> first | exact absurd rfl apart | simp [cmp]

private theorem markOrder_of_rank {a b : Expr} (apart : a.rank ≠ b.rank) (xs ys : List Mark) :
    markOrder (a.marks ++ xs) (b.marks ++ ys) = (a.cmp b).then (markOrder xs ys) := by
  obtain ⟨s, rest, first⟩ := marks_rank a
  obtain ⟨t, rest', second⟩ := marks_rank b
  rw [cmp_of_rank apart, first, second]
  exact markOrder_apart apart _ _ _ _ _

mutual
/-- Expressions are in the order of their spellings, whatever follows these. -/
theorem markOrder_marks : ∀ (a b : Expr) (xs ys : List Mark),
    markOrder (a.marks ++ xs) (b.marks ++ ys) = (a.cmp b).then (markOrder xs ys)
  | .num z, b, xs, ys => by
    cases b
    case num w => simp [marks, cmp, markOrder_plain, Number.markOrder_marks]
    all_goals exact markOrder_of_rank (by simp [rank]) xs ys
  | .var x, b, xs, ys => by
    cases b
    case var y => simp [marks, cmp, markOrder_cons]
    all_goals exact markOrder_of_rank (by simp [rank]) xs ys
  | .bool p, b, xs, ys => by
    cases b
    case bool q => cases p <;> cases q <;> simp [marks, cmp, markOrder_plain] <;> rfl
    all_goals exact markOrder_of_rank (by simp [rank]) xs ys
  | .unary op a, b, xs, ys => by
    cases b
    case unary op' a' => simp [marks, cmp, markOrder_cons, markOrder_marks a a', Ordering.then_assoc]
    all_goals exact markOrder_of_rank (by simp [rank]) xs ys
  | .binary op a a', b, xs, ys => by
    cases b
    case binary op' b b' =>
      simp [marks, cmp, markOrder_cons, markOrder_marks a b, markOrder_marks a' b', Ordering.then_assoc]
    all_goals exact markOrder_of_rank (by simp [rank]) xs ys
  | .lam p body, b, xs, ys => by
    cases b
    case lam q body' => simp [marks, cmp, markOrder_cons, markOrder_marks body body', Ordering.then_assoc]
    all_goals exact markOrder_of_rank (by simp [rank]) xs ys
  | .app f args, b, xs, ys => by
    cases b
    case app f' args' =>
      simp [marks, cmp, markOrder_plain, markOrder_marks f f', markOrder_marksList args args', Ordering.then_assoc]
    all_goals exact markOrder_of_rank (by simp [rank]) xs ys
  | .provided e p, b, xs, ys => by
    cases b
    case provided e' p' =>
      simp [marks, cmp, markOrder_plain, markOrder_marks e e', markOrder_marks p p', Ordering.then_assoc]
    all_goals exact markOrder_of_rank (by simp [rank]) xs ys
  | .piecewise cases, b, xs, ys => by
    cases b
    case piecewise cases' => simp [marks, cmp, markOrder_plain, markOrder_marksCases cases cases']
    all_goals exact markOrder_of_rank (by simp [rank]) xs ys
  | .interval low high, b, xs, ys => by
    cases b
    case interval low' high' =>
      simp [marks, cmp, markOrder_plain, markOrder_marks low low', markOrder_marks high high', Ordering.then_assoc]
    all_goals exact markOrder_of_rank (by simp [rank]) xs ys
theorem markOrder_marksList : ∀ (es fs : List Expr) (xs ys : List Mark),
    markOrder (marksList es ++ xs) (marksList fs ++ ys) = (cmpList es fs).then (markOrder xs ys)
  | [], [], xs, ys => by simp [marksList, cmpList, markOrder_plain]
  | [], _ :: _, xs, ys | _ :: _, [], xs, ys => by
    simp only [marksList, cmpList, List.cons_append]
    exact markOrder_plain _ _ _ _
  | e :: es, f :: fs, xs, ys => by
    simp [marksList, cmpList, markOrder_plain, markOrder_marks e f, markOrder_marksList es fs, Ordering.then_assoc]
theorem markOrder_marksCases : ∀ (cs ds : List (Expr × Expr)) (xs ys : List Mark),
    markOrder (marksCases cs ++ xs) (marksCases ds ++ ys) = (cmpCases cs ds).then (markOrder xs ys)
  | [], [], xs, ys => by simp [marksCases, cmpCases, markOrder_plain]
  | [], _ :: _, xs, ys | _ :: _, [], xs, ys => by
    simp only [marksCases, cmpCases, List.cons_append]
    exact markOrder_plain _ _ _ _
  | (e, p) :: cs, (e', p') :: ds, xs, ys => by
    simp [marksCases, cmpCases, markOrder_plain, markOrder_marks e e', markOrder_marks p p',
      markOrder_marksCases cs ds, Ordering.then_assoc]
end

instance cmp_trans : TransCmp cmp := by
  have spelled : cmp = fun a b => markOrder a.marks b.marks := by
    funext a b
    have same := markOrder_marks a b [] []
    rw [List.append_nil, List.append_nil] at same
    rw [same]
    exact Ordering.then_eq.symm
  rw [spelled]
  exact transCmp_comap _

instance cmp_lawful : Std.LawfulEqCmp cmp where
  eq_of_compare := eq_of_cmp

end Expr
end ComputerAlgebra

import ComputerAlgebra.Simplification.Rounds

/-!
Sorting by structural recursion. `List.mergeSort` recurses on the lengths of lists, which the kernel does
not unfold; with a bound on the length beside the list the same sort can be evaluated in a proof, and a
round of simplification with it.
-/

namespace ComputerAlgebra.Expr

section Merge
variable {α : Type} (le : α → α → Bool)

def mergeWithin : Nat → List α → List α → List α
  | n + 1, x :: xs, y :: ys =>
    if le x y then x :: mergeWithin n xs (y :: ys) else y :: mergeWithin n (x :: xs) ys
  | _, xs, ys => xs ++ ys

theorem merge_eq_within (n : Nat) : ∀ xs ys : List α, xs.length + ys.length ≤ n →
    xs.merge ys le = mergeWithin le n xs ys := by
  induction n with
  | zero =>
    intro xs ys short
    obtain rfl : xs = [] := List.eq_nil_of_length_eq_zero (by omega)
    obtain rfl : ys = [] := List.eq_nil_of_length_eq_zero (by omega)
    simp [mergeWithin]
  | succ n ih =>
    intro xs ys short
    cases xs with
    | nil => simp [mergeWithin]
    | cons x xs =>
      cases ys with
      | nil => simp [mergeWithin]
      | cons y ys =>
        simp only [List.length_cons] at short
        rw [List.cons_merge_cons, mergeWithin, ih xs (y :: ys) (by simp; omega),
          ih (x :: xs) ys (by simp; omega)]

def mergeSortWithin : Nat → List α → List α
  | n + 1, x :: y :: xs =>
    let left := mergeSortWithin n ((x :: y :: xs).take ((xs.length + 3) / 2))
    let right := mergeSortWithin n ((x :: y :: xs).drop ((xs.length + 3) / 2))
    mergeWithin le (left.length + right.length) left right
  | _, xs => xs

theorem mergeSort_eq_within (n : Nat) : ∀ xs : List α, xs.length ≤ n →
    xs.mergeSort le = mergeSortWithin le n xs := by
  induction n with
  | zero =>
    intro xs short
    obtain rfl : xs = [] := List.eq_nil_of_length_eq_zero (by omega)
    simp [mergeSortWithin]
  | succ n ih =>
    intro xs short
    match xs with
    | [] => simp [mergeSortWithin]
    | [x] => simp [mergeSortWithin]
    | x :: y :: xs =>
      simp only [List.length_cons] at short
      rw [List.mergeSort, mergeSortWithin]
      simp only [List.MergeSort.Internal.splitInTwo_fst, List.MergeSort.Internal.splitInTwo_snd]
      rw [ih _ (by simp; omega), ih _ (by simp; omega)]
      exact merge_eq_within le _ _ _ (Nat.le_refl _)

end Merge

def sortByKeyWithin {α : Type} (u : FloatUnit) (expr : α → Expr) (items : List α) : List α :=
  let keyed := items.map fun x => ((expr x).canonicalKey u, x)
  (mergeSortWithin (fun s t => keyOrder s.1 t.1 != .gt) items.length keyed).map (·.2)

theorem sortByKey_eq_within {α : Type} (u : FloatUnit) (expr : α → Expr) (items : List α) :
    sortByKey u expr items = sortByKeyWithin u expr items := by
  rw [sortByKey, sortByKeyWithin, mergeSort_eq_within _ items.length _ (by simp)]

section Round
variable (c : Config)

def sortNodeWithin (e : Expr) : Computation Expr :=
  match e with
  | .binary .sum _ _ | .binary .minus _ _ => do
    let (constant, terms) ← splitConstant c (signedTerms true e []) 0
    let sorted := sortByKeyWithin (← get) (·.2) terms
    if !sorted.isEmpty && constant.isNegative then
      ofSignedTerms c (sorted ++ [(false, .num (← constant.neg c))])
    else if !constant.isZero || sorted.isEmpty then
      ofSignedTerms c (sorted ++ [(true, .num constant)])
    else ofSignedTerms c sorted
  | .binary .mul _ _ => do
    let (coefficient, factors) ← splitCoefficient c (factorsOnto e []) 1
    if coefficient.isZero then return 0
    let sorted := sortByKeyWithin (← get) id factors
    return ofFactors <|
      if coefficient ≠ 1 || sorted.isEmpty then .num coefficient :: sorted else sorted
  | e => return e

theorem sortNode_eq_within : sortNode c = sortNodeWithin c := by
  funext e
  unfold sortNode sortNodeWithin
  split <;> simp only [sortedSum, sortedProduct, sortByKey_eq_within]

/-- The passes of a round, beginning with the pass that sorts. -/
def passesWithin (e : Expr) : Computation (List Expr) := do
  let sorted ← (← e.replaceM (sortNodeWithin c)).innerSimplified c
  return sorted :: (← runPasses c [.common, .power, .circular, .boolean] sorted)

theorem runPasses_eq_within : runPasses c Pass.all = passesWithin c := by
  funext e
  have sorting : Pass.sort.run c e = e.replaceM (sortNodeWithin c) := by
    rw [← sortNode_eq_within]
    rfl
  rw [Pass.all, runPasses, sorting, passesWithin]

def candidatesWithin (e : Expr) : Computation (List Expr) := do
  let sorted ← (← e.replaceM (sortNodeWithin c)).innerSimplified c
  let passed := sorted :: (← runPasses c [.common, .power, .circular, .boolean] sorted)
  let collapsed ← (passed.getLastD e).collapse? c
  return passed ++ (← collapsed.toList.mapM (innerSimplified c))

theorem candidates_eq_within (e : Expr) : candidates c e = candidatesWithin c e := by
  rw [candidates, candidatesWithin, runPasses_eq_within, passesWithin]
  simp only [bind_assoc, pure_bind]
  refine bind_congr fun first => bind_congr fun sorted => bind_congr fun rest => bind_congr fun r => ?_
  cases r <;> simp

theorem rounds_one_eq_within (best : Expr) :
    rounds c 1 best = do return simplest best (← candidatesWithin c best) := by
  rw [rounds, candidates_eq_within]
  refine bind_congr fun tried => ?_
  dsimp only [rounds]
  split
  · next same => rw [same]
  · rfl

end Round

end ComputerAlgebra.Expr

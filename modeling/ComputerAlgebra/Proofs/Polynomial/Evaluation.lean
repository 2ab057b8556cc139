import ComputerAlgebra.Proofs.Expr.Order
import ComputerAlgebra.Proofs.Polynomial.Atoms
import Mathlib.Algebra.Algebra.Hom
import Mathlib.Algebra.Algebra.Rat
import Mathlib.Algebra.BigOperators.Group.List.Lemmas
import Mathlib.Algebra.BigOperators.Ring.List
import Mathlib.Tactic.Ring

/-!
Evaluation of polynomials. The atoms stand for elements of a commutative ring that contains the
fractions, and each operation on polynomials is the operation of the ring on their values.
-/

namespace ComputerAlgebra

variable {A : Type*} [CommRing A]

namespace Monomial

variable (α : Expr → A)

def eval (m : Monomial) : A := (m.map fun f => α f.1 ^ f.2).prod

@[simp] theorem eval_nil : eval α [] = 1 := rfl

@[simp] theorem eval_cons (a : Expr) (n : Nat) (m : Monomial) :
    eval α ((a, n) :: m) = α a ^ n * eval α m := by
  simp [eval]

theorem eval_mul (m n : Monomial) : eval α (m.mul n) = eval α m * eval α n := by
  induction m, n using Monomial.mul.induct with
  | case1 ys => simp [mul]
  | case2 xs nonempty => cases xs <;> simp [mul]
  | case3 a m xs b n ys below ih =>
    rw [mul, below]
    simp only [eval_cons, ih]
    ring
  | case4 a m xs b n ys above ih =>
    rw [mul, above]
    simp only [eval_cons, ih]
    ring
  | case5 a m xs b n ys same ih =>
    rw [mul, same]
    simp only [eval_cons, ih, Expr.eq_of_cmp same, pow_add]
    ring

theorem eval_congr {α β : Expr → A} {m : Monomial} (same : m.Over fun a => α a = β a) :
    m.eval α = m.eval β := by
  unfold eval
  congr 1
  exact List.map_congr_left fun f inside => by rw [same f inside]

theorem map_eval {B : Type*} [CommRing B] (f : A →+* B) (m : Monomial) :
    f (m.eval α) = m.eval fun a => f (α a) := by
  simp [eval, map_list_prod, Function.comp_def]

theorem eq_of_cmp {m n : Monomial} : m.cmp n = .eq → m = n := by
  induction m, n using Monomial.cmp.induct with
  | case1 => intro; rfl
  | case2 => intro same; cases same
  | case3 => intro same; cases same
  | case4 a m xs b n ys ih =>
    intro same
    simp only [cmp, Ordering.then_eq_eq] at same
    rw [Expr.eq_of_cmp same.1.1, Std.LawfulEqOrd.eq_of_compare same.1.2, ih same.2]

end Monomial

namespace Polynomial

variable [Algebra ℚ A] (α : Expr → A)

def eval (p : Polynomial) : A := (p.map fun t => algebraMap ℚ A t.2 * t.1.eval α).sum

@[simp] theorem eval_nil : eval α [] = 0 := rfl

@[simp] theorem eval_cons (m : Monomial) (q : Rat) (p : Polynomial) :
    eval α ((m, q) :: p) = algebraMap ℚ A q * m.eval α + eval α p := by
  simp [eval]

@[simp] theorem eval_append (p q : Polynomial) : eval α (p ++ q) = eval α p + eval α q := by
  simp [eval]

theorem eval_perm {p q : Polynomial} (same : p.Perm q) : eval α p = eval α q :=
  (same.map _).sum_eq

theorem eval_congr {α β : Expr → A} {p : Polynomial} (same : p.Over fun a => α a = β a) :
    p.eval α = p.eval β := by
  unfold eval
  congr 1
  exact List.map_congr_left fun t inside => by rw [Monomial.eval_congr (same t inside)]

theorem map_eval {B : Type*} [CommRing B] [Algebra ℚ B] (f : A →ₐ[ℚ] B) (p : Polynomial) :
    f (p.eval α) = p.eval fun a => f (α a) := by
  have monomials (m : Monomial) : f (m.eval α) = m.eval fun a => f (α a) := m.map_eval α f.toRingHom
  simp [eval, map_list_sum, Function.comp_def, monomials]

section Collect

def Placed.term (s : Placed) : Monomial × Rat := (s.monomial, s.coefficient)

private theorem eval_mergeRun (rest : List Placed) : ∀ s : Placed,
    eval α ((mergeRun s rest).map Placed.term) = eval α ((s :: rest).map Placed.term) := by
  induction rest with
  | nil => intro s; rfl
  | cons t rest ih =>
    intro s
    unfold mergeRun
    split
    · next same =>
      rw [ih]
      simp only [List.map_cons, Placed.term, eval_cons, Monomial.eq_of_cmp same, map_add]
      ring
    · rw [List.map_cons, List.map_cons]
      simp only [Placed.term, eval_cons, ih]

private theorem eval_mergeRuns (items : List Placed) :
    eval α ((mergeRuns items).map Placed.term) = eval α (items.map Placed.term) := by
  cases items with
  | nil => rfl
  | cons s rest => exact eval_mergeRun α rest s

private theorem placed_terms (terms : List (Monomial × Rat)) :
    (terms.mapIdx fun i (m, q) => (⟨m, q, i⟩ : Placed)).map Placed.term = terms := by
  apply List.ext_getElem
  · simp
  · intro i _ _
    simp [Placed.term]

private theorem eval_filter (terms : List (Monomial × Rat)) :
    eval α (terms.filter fun t => t.2 ≠ 0) = eval α terms := by
  induction terms with
  | nil => rfl
  | cons t terms ih =>
    obtain ⟨m, q⟩ := t
    by_cases zero : q = 0
    · rw [List.filter_cons_of_neg (by simp [zero]), ih, eval_cons, zero]
      simp
    · rw [List.filter_cons_of_pos (by simp [zero]), eval_cons, ih, eval_cons]

theorem eval_collect (terms : List (Monomial × Rat)) : eval α (collect terms) = eval α terms := by
  unfold collect
  rw [eval_filter]
  have ordered := (List.mergeSort_perm (mergeRuns ((terms.mapIdx fun i (m, q) =>
    (⟨m, q, i⟩ : Placed)).mergeSort fun s t => s.monomial.cmp t.monomial != .gt))
    fun s t => s.position ≤ t.position).map Placed.term
  have sorted := (List.mergeSort_perm (terms.mapIdx fun i (m, q) => (⟨m, q, i⟩ : Placed))
    fun s t => s.monomial.cmp t.monomial != .gt).map Placed.term
  refine (eval_perm α ordered).trans ?_
  rw [eval_mergeRuns, eval_perm α sorted, placed_terms]

end Collect

@[simp] theorem eval_constant (q : Rat) : eval α (constant q) = algebraMap ℚ A q := by
  unfold constant
  split
  · next zero => simp [zero]
  · simp

@[simp] theorem eval_atom (e : Expr) : eval α (atom e) = α e := by
  simp [atom]

theorem eval_add (p q : Polynomial) : eval α (add p q) = eval α p + eval α q := by
  rw [add, eval_collect, eval_append]

theorem eval_scale (k : Rat) (p : Polynomial) :
    eval α (scale k p) = algebraMap ℚ A k * eval α p := by
  induction p with
  | nil => simp [scale]
  | cons t p ih =>
    obtain ⟨m, q⟩ := t
    change eval α ((m, k * q) :: scale k p) = _
    rw [eval_cons, eval_cons, ih, map_mul]
    ring

private theorem eval_row (m : Monomial) (a : Rat) (q : Polynomial) :
    eval α (q.map fun (n, b) => (m.mul n, a * b)) =
      algebraMap ℚ A a * m.eval α * eval α q := by
  induction q with
  | nil => simp
  | cons t q ih =>
    obtain ⟨n, b⟩ := t
    rw [List.map_cons, eval_cons, eval_cons, ih, Monomial.eval_mul, map_mul]
    ring

theorem eval_products (p q : Polynomial) : eval α (products p q) = eval α p * eval α q := by
  induction p with
  | nil => simp [products]
  | cons t p ih =>
    obtain ⟨m, a⟩ := t
    have rows : products ((m, a) :: p) q =
        (q.map fun (n, b) => (m.mul n, a * b)) ++ products p q := rfl
    rw [rows, eval_append, eval_row, ih, eval_cons]
    ring

theorem eval_mul? {limit : Limit} {p q r : Polynomial} (found : mul? limit p q = some r) :
    eval α r = eval α p * eval α q := by
  unfold mul? at found
  split at found
  · cases found
  · simp only [Option.ite_none_left_eq_some, Option.some.injEq] at found
    rw [← found.2, eval_collect, eval_products]

/-- Every round of binary powering keeps the result times the rest of the power. -/
theorem eval_powLoop? {limit : Limit} (n : Nat) : ∀ {result square r : Polynomial},
    powLoop? limit result square n = some r → eval α r = eval α result * eval α square ^ n := by
  induction n using Nat.strongRecOn with
  | ind n ih =>
    intro result square r found
    by_cases zero : n = 0
    · rw [powLoop?, dif_pos zero] at found
      cases found
      rw [zero, pow_zero, mul_one]
    · obtain ⟨next, digit, rest⟩ := powLoop?_step zero found
      have stepped : eval α next = eval α result * eval α square ^ (n % 2) := by
        rcases digit with ⟨odd, multiplied⟩ | ⟨even, rfl⟩
        · rw [eval_mul? α multiplied, odd, pow_one]
        · rw [even, pow_zero, mul_one]
      have digits : n % 2 + 2 * (n / 2) = n := Nat.mod_add_div n 2
      rcases rest with ⟨last, rfl⟩ | ⟨doubled, squared, looped⟩
      · rw [stepped]
        congr 2
        omega
      · rw [ih (n / 2) (by omega) looped, stepped, eval_mul? α squared, mul_assoc, ← sq,
          ← pow_mul, ← pow_add, digits]

theorem eval_pow? {limit : Limit} {p r : Polynomial} {n : Nat} (found : pow? limit p n = some r) :
    eval α r = eval α p ^ n := by
  rw [eval_powLoop? α n found]
  simp

end Polynomial
end ComputerAlgebra

import ComputerAlgebra.Proofs.Expr.Total
import ComputerAlgebra.Proofs.Polynomial.Reading
import Mathlib.Algebra.MvPolynomial.Eval

/-!
Reduced polynomials. A reduced monomial lists different atoms in their order with positive powers, and a
reduced polynomial lists different reduced monomials with coefficients other than zero. The operations
keep this form, and two reduced polynomials that are the same polynomial in their atoms have the same
terms.
-/

namespace ComputerAlgebra

open Std (TransCmp OrientedCmp)

namespace Monomial

variable {m n : Monomial}

/-- Powers of different atoms, in the order of the atoms. -/
structure Reduced (m : Monomial) : Prop where
  positive : ∀ f ∈ m, 0 < f.2
  sorted : m.Pairwise fun f g => f.1.cmp g.1 = .lt

theorem Reduced.tail {f : Expr × Nat} (reduced : Reduced (f :: m)) : Reduced m where
  positive g member := reduced.positive g (by simp [member])
  sorted := (List.pairwise_cons.mp reduced.sorted).2

theorem reduced_nil : Reduced [] := ⟨by simp, .nil⟩

theorem reduced_atom (a : Expr) : Reduced [(a, 1)] := ⟨by simp, by simp⟩

private theorem positive_mul : (∀ f ∈ m, 0 < f.2) → (∀ f ∈ n, 0 < f.2) → ∀ f ∈ m.mul n, 0 < f.2 := by
  induction m, n using Monomial.mul.induct with
  | case1 ys =>
    intro _ right
    simpa [mul] using right
  | case2 xs nonempty =>
    intro left _
    cases xs with
    | nil => exact absurd rfl nonempty
    | cons => simpa [mul] using left
  | case3 a k xs b l ys below ih =>
    intro left right
    rw [List.forall_mem_cons] at left
    rw [mul, below, List.forall_mem_cons]
    exact ⟨left.1, ih left.2 right⟩
  | case4 a k xs b l ys above ih =>
    intro left right
    rw [List.forall_mem_cons] at right
    rw [mul, above, List.forall_mem_cons]
    exact ⟨right.1, ih left right.2⟩
  | case5 a k xs b l ys same ih =>
    intro left right
    rw [List.forall_mem_cons] at left right
    rw [mul, same, List.forall_mem_cons]
    exact ⟨Nat.add_pos_left left.1 l, ih left.2 right.2⟩

/-- What is below the first atom of a sorted monomial is below all of them. -/
private theorem above {a b : Expr} {k : Nat} (sorted : ((b, k) :: m).Pairwise fun f g => f.1.cmp g.1 = .lt)
    (below : a.cmp b = .lt) : Over (fun e => a.cmp e = .lt) ((b, k) :: m) := by
  intro f member
  rcases List.mem_cons.mp member with rfl | later
  · exact below
  · exact TransCmp.lt_trans below ((List.pairwise_cons.mp sorted).1 f later)

private theorem sorted_mul : (m.Pairwise fun f g => f.1.cmp g.1 = .lt) →
    (n.Pairwise fun f g => f.1.cmp g.1 = .lt) → (m.mul n).Pairwise fun f g => f.1.cmp g.1 = .lt := by
  induction m, n using Monomial.mul.induct with
  | case1 ys =>
    intro _ right
    simpa [mul] using right
  | case2 xs nonempty =>
    intro left _
    cases xs with
    | nil => exact absurd rfl nonempty
    | cons => simpa [mul] using left
  | case3 a k xs b l ys below ih =>
    intro left right
    obtain ⟨first, rest⟩ := List.pairwise_cons.mp left
    rw [mul, below, List.pairwise_cons]
    exact ⟨over_mul (P := fun e => a.cmp e = .lt) first (above right below), ih rest right⟩
  | case4 a k xs b l ys order ih =>
    intro left right
    obtain ⟨first, rest⟩ := List.pairwise_cons.mp right
    rw [mul, order, List.pairwise_cons]
    exact ⟨over_mul (P := fun e => b.cmp e = .lt) (above left (OrientedCmp.lt_of_gt order)) first, ih left rest⟩
  | case5 a k xs b l ys same ih =>
    intro left right
    obtain rfl := Expr.eq_of_cmp same
    obtain ⟨first, rest⟩ := List.pairwise_cons.mp left
    obtain ⟨first', rest'⟩ := List.pairwise_cons.mp right
    rw [mul, same, List.pairwise_cons]
    exact ⟨over_mul (P := fun e => a.cmp e = .lt) first first', ih rest rest'⟩

theorem Reduced.mul (left : Reduced m) (right : Reduced n) : Reduced (m.mul n) :=
  ⟨positive_mul left.positive right.positive, sorted_mul left.sorted right.sorted⟩

section Order

private theorem cmp_eq : cmp =
    List.compareLex (compareLex (fun f g : Expr × Nat => f.1.cmp g.1) (compareOn Prod.snd)) := by
  funext m n
  induction m, n using Monomial.cmp.induct with
  | case1 | case2 | case3 => rfl
  | case4 a k xs b l ys ih =>
    rw [cmp, ih, List.compareLex_cons_cons]
    rfl

instance cmp_trans : TransCmp cmp := by
  have byAtom : TransCmp fun f g : Expr × Nat => f.1.cmp g.1 := transCmp_comap Prod.fst
  rw [cmp_eq]
  infer_instance

end Order

section Powers

noncomputable def powers (m : Monomial) : Expr →₀ Nat :=
  (m.map fun f => Finsupp.single f.1 f.2).sum

theorem powers_cons (a : Expr) (k : Nat) (m : Monomial) :
    powers ((a, k) :: m) = Finsupp.single a k + powers m := by
  simp [powers]

theorem eval_X (m : Monomial) :
    m.eval (MvPolynomial.X : Expr → MvPolynomial Expr Rat) = MvPolynomial.monomial (powers m) 1 := by
  induction m with
  | nil => rfl
  | cons f m ih =>
    rw [eval_cons, ih, powers_cons, MvPolynomial.X_pow_eq_monomial, MvPolynomial.monomial_mul, mul_one]

theorem powers_absent {a : Expr} (absent : ∀ f ∈ m, f.1 ≠ a) : powers m a = 0 := by
  induction m with
  | nil => rfl
  | cons f m ih =>
    rw [List.forall_mem_cons] at absent
    rw [powers_cons, Finsupp.add_apply, ih absent.2, Finsupp.single_eq_of_ne absent.1.symm]

theorem Reduced.different {f : Expr × Nat} (reduced : Reduced (f :: m)) : ∀ g ∈ m, g.1 ≠ f.1 := by
  intro g member same
  have below := (List.pairwise_cons.mp reduced.sorted).1 g member
  have self : f.1.cmp f.1 = .eq := Std.ReflCmp.compare_self
  rw [same, self] at below
  cases below

/-- The powers in a reduced monomial are those of its atoms. -/
theorem Reduced.mem_iff (reduced : Reduced m) {a : Expr} {k : Nat} :
    (a, k) ∈ m ↔ powers m a = k ∧ 0 < k := by
  induction m with
  | nil =>
    simp only [List.not_mem_nil, false_iff, not_and]
    rintro rfl
    simp [powers]
  | cons f m ih =>
    obtain ⟨b, l⟩ := f
    have positive : 0 < l := reduced.positive (b, l) (by simp)
    rw [List.mem_cons, ih reduced.tail, powers_cons, Finsupp.add_apply, Prod.mk.injEq]
    by_cases same : a = b
    · subst same
      have rest : powers m a = 0 := powers_absent reduced.different
      rw [rest, Finsupp.single_eq_same]
      simp only [true_and]
      omega
    · rw [Finsupp.single_eq_of_ne same, zero_add]
      simp [same]

/-- A reduced monomial is determined by the powers of its atoms. -/
theorem Reduced.eq_of_powers (left : Reduced m) (right : Reduced n) (same : powers m = powers n) : m = n := by
  have nodup {m : Monomial} (reduced : Reduced m) : m.Nodup := by
    refine reduced.sorted.imp fun {f g} below equal => ?_
    have self : g.1.cmp g.1 = .eq := Std.ReflCmp.compare_self
    rw [equal, self] at below
    cases below
  have perm : m.Perm n := (List.perm_ext_iff_of_nodup (nodup left) (nodup right)).mpr fun f => by
    rw [left.mem_iff, right.mem_iff, same]
  refine perm.eq_of_pairwise (fun f g _ _ below above => ?_) left.sorted right.sorted
  rw [OrientedCmp.gt_of_lt below] at above
  cases above

end Powers
end Monomial

namespace Polynomial

variable {p q r : Polynomial} {terms : List (Monomial × Rat)}

/-- Different reduced monomials with coefficients other than zero. -/
structure Reduced (p : Polynomial) : Prop where
  monomials : ∀ t ∈ p, t.1.Reduced
  distinct : (p.map Prod.fst).Nodup
  nonzero : ∀ t ∈ p, t.2 ≠ 0

section Collecting

/-- Adding up neighbours of a sorted list leaves no monomial twice. -/
private theorem mergeRun_distinct (rest : List Placed) : ∀ s : Placed,
    (s :: rest).Pairwise (fun s t => s.monomial.cmp t.monomial ≠ .gt) →
    ((mergeRun s rest).map Placed.monomial).Nodup := by
  induction rest with
  | nil =>
    intro s _
    simp [mergeRun]
  | cons t rest ih =>
    intro s sorted
    obtain ⟨first, tail⟩ := List.pairwise_cons.mp sorted
    unfold mergeRun
    split
    · refine ih _ (List.pairwise_cons.mpr ⟨fun u later => ?_, (List.pairwise_cons.mp tail).2⟩)
      exact first u (by simp [later])
    · next apart =>
      rw [List.map_cons, List.nodup_cons]
      refine ⟨fun again => ?_, ih t tail⟩
      obtain ⟨u, merged, same⟩ := List.mem_map.mp again
      obtain ⟨source, inside, origin⟩ := mergeRun_monomial rest t u merged
      have equal : source.monomial = s.monomial := origin.trans same
      have below : s.monomial.cmp t.monomial = .lt := by
        have le := first t (by simp)
        cases order : s.monomial.cmp t.monomial with
        | lt => rfl
        | eq => exact absurd order apart
        | gt => exact absurd order le
      rcases List.mem_cons.mp inside with rfl | later
      · have self : s.monomial.cmp s.monomial = .eq := Std.ReflCmp.compare_self
        rw [equal, self] at below
        cases below
      · have le := (List.pairwise_cons.mp tail).1 source later
        rw [equal] at le
        exact le (OrientedCmp.gt_of_lt below)

theorem collect_distinct (terms : List (Monomial × Rat)) : ((collect terms).map Prod.fst).Nodup := by
  let placed := terms.mapIdx fun i t => (⟨t.1, t.2, i⟩ : Placed)
  let sorted := placed.mergeSort fun s t => s.monomial.cmp t.monomial != .gt
  have merged : ((mergeRuns sorted).map Placed.monomial).Nodup := by
    have byMonomial : TransCmp fun s t : Placed => s.monomial.cmp t.monomial := transCmp_comap Placed.monomial
    have ordered : sorted.Pairwise fun s t => s.monomial.cmp t.monomial ≠ .gt :=
      pairwise_mergeSort_cmp (fun s t : Placed => s.monomial.cmp t.monomial) placed
    generalize sorted = items at ordered
    cases items with
    | nil => exact List.nodup_nil
    | cons s rest => exact mergeRun_distinct rest s ordered
  have reordered : (((mergeRuns sorted).mergeSort fun s t => s.position ≤ t.position).map
      Placed.monomial).Nodup := ((List.mergeSort_perm _ _).map _).nodup_iff.mpr merged
  have kept : ((collect terms).map Prod.fst).Sublist
      (((mergeRuns sorted).mergeSort fun s t => s.position ≤ t.position).map Placed.monomial) := by
    have terms_of : ((mergeRuns sorted).mergeSort fun s t => s.position ≤ t.position).map
        Placed.monomial = (((mergeRuns sorted).mergeSort fun s t => s.position ≤ t.position).map
          fun t => (t.monomial, t.coefficient)).map Prod.fst := by
      rw [List.map_map]
      rfl
    rw [terms_of]
    exact List.filter_sublist.map _
  exact kept.nodup reordered

/-- Collecting like terms over reduced monomials gives a reduced polynomial. -/
theorem collect_reduced (known : ∀ t ∈ terms, t.1.Reduced) : Reduced (collect terms) := by
  refine ⟨fun t member => ?_, collect_distinct terms, fun t member => ?_⟩
  · obtain ⟨s, inside, same⟩ := collect_monomial t member
    rw [← same]
    exact known s inside
  · simpa using (List.mem_filter.mp member).2

theorem constant_reduced (k : Rat) : Reduced (constant k) := by
  unfold constant
  split
  · exact ⟨by simp, by simp, by simp⟩
  · next nonzero => exact ⟨by simpa using Monomial.reduced_nil, by simp, by simpa using nonzero⟩

theorem atom_reduced (a : Expr) : Reduced (atom a) :=
  ⟨by simpa [atom] using Monomial.reduced_atom a, by simp [atom], by simp [atom]⟩

theorem Reduced.scale (reduced : Reduced p) {k : Rat} (nonzero : k ≠ 0) : Reduced (scale k p) := by
  have same : (Polynomial.scale k p).map Prod.fst = p.map Prod.fst := by
    rw [Polynomial.scale, List.map_map]
    rfl
  refine ⟨fun t member => ?_, by rw [same]; exact reduced.distinct, fun t member => ?_⟩
  · obtain ⟨s, inside, rfl⟩ := List.mem_map.mp member
    exact reduced.monomials s inside
  · obtain ⟨s, inside, rfl⟩ := List.mem_map.mp member
    exact mul_ne_zero nonzero (reduced.nonzero s inside)

theorem Reduced.add (left : Reduced p) (right : Reduced q) : Reduced (add p q) := by
  apply collect_reduced
  intro t member
  rcases List.mem_append.mp member with inside | inside
  · exact left.monomials t inside
  · exact right.monomials t inside

theorem Reduced.mul? {limit : Limit} (left : Reduced p) (right : Reduced q)
    (found : mul? limit p q = some r) : Reduced r := by
  unfold Polynomial.mul? at found
  split at found
  · cases found
  · simp only [Option.ite_none_left_eq_some, Option.some.injEq] at found
    rw [← found.2]
    apply collect_reduced
    intro t member
    obtain ⟨s, inside, others⟩ := List.mem_flatMap.mp member
    obtain ⟨s', inside', rfl⟩ := List.mem_map.mp others
    exact (left.monomials s inside).mul (right.monomials s' inside')

theorem Reduced.pow? {limit : Limit} {n : Nat} (base : Reduced p) (found : pow? limit p n = some r) : Reduced r :=
  pow?_keeps (constant_reduced 1) Reduced.mul? base found

theorem reduced_structural : Structural fun _ p => p.Reduced where
  sum := .add
  minus left right := left.add (right.scale (by norm_num))
  mul _ := .mul?
  quotient regular left := left.scale (inv_ne_zero regular)
  one _ := constant_reduced 1
  power _ _ base found := base.pow? found
  constant := constant_reduced

theorem multiplyOut_reduced (c : Config) (e : Expr) : Answers (multiplyOut c e) Reduced := by
  refine multiplyOut_structural (J := .returns) (Q := fun _ => True) reduced_structural Returns.trivial
    (fun _ => ⟨trivial, trivial⟩) (fun e _ _ => ?_) e trivial
  refine (ofAtom_atom c e).mono ?_
  rintro _ rfl
  exact atom_reduced e

end Collecting

section Uniqueness

/-- The terms of a polynomial are those of the polynomial in its atoms. -/
theorem eval_X (p : Polynomial) : p.eval (MvPolynomial.X : Expr → MvPolynomial Expr Rat) =
    (p.map fun t => MvPolynomial.monomial t.1.powers t.2).sum := by
  induction p with
  | nil => rfl
  | cons t p ih =>
    rw [eval_cons, ih, List.map_cons, List.sum_cons, Monomial.eval_X, MvPolynomial.algebraMap_eq,
      MvPolynomial.C_mul_monomial, mul_one]

private theorem coeff_absent {d : Expr →₀ Nat} (absent : ∀ t ∈ p, t.1.powers ≠ d) :
    MvPolynomial.coeff d (p.map fun t => MvPolynomial.monomial t.1.powers t.2).sum = 0 := by
  induction p with
  | nil => rfl
  | cons t p ih =>
    rw [List.forall_mem_cons] at absent
    rw [List.map_cons, List.sum_cons, MvPolynomial.coeff_add, ih absent.2,
      MvPolynomial.coeff_monomial, if_neg absent.1, add_zero]

theorem Reduced.tail {t : Monomial × Rat} (reduced : Reduced (t :: p)) : Reduced p where
  monomials s member := reduced.monomials s (by simp [member])
  distinct := (List.nodup_cons.mp reduced.distinct).2
  nonzero s member := reduced.nonzero s (by simp [member])

private theorem Reduced.coeff_mem (reduced : Reduced p) {m : Monomial} {k : Rat} (member : (m, k) ∈ p) :
    MvPolynomial.coeff m.powers (p.map fun t => MvPolynomial.monomial t.1.powers t.2).sum = k := by
  induction p with
  | nil => cases member
  | cons t p ih =>
    have head := reduced.monomials t (by simp)
    have fresh := (List.nodup_cons.mp reduced.distinct).1
    rw [List.map_cons, List.sum_cons, MvPolynomial.coeff_add, MvPolynomial.coeff_monomial]
    rcases List.mem_cons.mp member with rfl | later
    · have absent : ∀ s ∈ p, s.1.powers ≠ m.powers := by
        intro s inside same
        have equal := (reduced.tail.monomials s inside).eq_of_powers head same
        exact fresh (equal ▸ List.mem_map_of_mem inside)
      rw [if_pos rfl, coeff_absent absent, add_zero]
    · have apart : t.1.powers ≠ m.powers := by
        intro same
        have equal := head.eq_of_powers (reduced.tail.monomials _ later) same
        exact fresh (equal ▸ List.mem_map_of_mem later)
      rw [if_neg apart, ih reduced.tail later, zero_add]

/-- Reduced polynomials that are the same polynomial in their atoms have the same terms. -/
theorem Reduced.perm_of_eval (left : Reduced p) (right : Reduced q)
    (same : p.eval (MvPolynomial.X : Expr → MvPolynomial Expr Rat) = q.eval MvPolynomial.X) : p.Perm q := by
  have subset {p q : Polynomial} (left : Reduced p) (right : Reduced q)
      (same : p.eval (MvPolynomial.X : Expr → MvPolynomial Expr Rat) = q.eval MvPolynomial.X) :
      ∀ t ∈ p, t ∈ q := by
    rintro ⟨m, k⟩ member
    have coefficient := left.coeff_mem member
    rw [← eval_X, same, eval_X] at coefficient
    obtain ⟨⟨n, l⟩, inside, powers⟩ : ∃ t ∈ q, t.1.powers = m.powers := by
      by_contra none
      push Not at none
      rw [coeff_absent none] at coefficient
      exact left.nonzero (m, k) member coefficient.symm
    obtain rfl := (right.monomials _ inside).eq_of_powers (left.monomials _ member) powers
    rw [right.coeff_mem inside] at coefficient
    rwa [← coefficient]
  refine (List.perm_ext_iff_of_nodup left.distinct.of_map right.distinct.of_map).mpr fun t => ?_
  exact ⟨subset left right same t, subset right left same.symm t⟩

end Uniqueness
end Polynomial
end ComputerAlgebra

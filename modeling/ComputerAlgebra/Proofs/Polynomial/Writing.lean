import ComputerAlgebra.Proofs.Polynomial.Formal
import ComputerAlgebra.Proofs.Polynomial.Reduced
import Mathlib.Algebra.MvPolynomial.Rename

/-!
Canonical polynomials over the variables. A canonical monomial lists different variables in their
order with positive powers, and a canonical polynomial lists different canonical monomials with
coefficients other than zero: these are the reduced polynomials with variables for atoms. Multiplying
out a polynomial expression gives one, and two canonical polynomials that stand for the same formal
polynomial have the same terms.
-/

namespace ComputerAlgebra

namespace Expr

def IsVariable (e : Expr) : Prop := ∃ x, e = .var x ∧ isConstantName x = false

def variableName : Expr → String
  | .var x => x
  | _ => ""

variable {a b e : Expr}

theorem IsVariable.name_injective (first : IsVariable a) (second : IsVariable b)
    (same : a.variableName = b.variableName) : a = b := by
  obtain ⟨x, rfl, -⟩ := first
  obtain ⟨y, rfl, -⟩ := second
  rw [show x = y from same]

/-- The atoms among the polynomial expressions are the variables. -/
theorem IsPolynomial.isVariable (polynomial : IsPolynomial e) (atom : e.IsAtom) : IsVariable e := by
  cases polynomial with
  | num q => simp [IsAtom, rational?, Number.rational?_eq_some.mpr rfl] at atom
  | @var x plain => exact ⟨x, rfl, plain⟩
  | sum | minus | mul => exact atom.elim
  | div _ nonzero => exact absurd (atom _ rfl) nonzero
  | pow _ n => exact absurd (atom n (integer?_eq_some.mpr rfl)) (by omega)

theorem IsPolynomial.operands {op : BinaryOp} (polynomial : IsPolynomial (.binary op a b)) :
    IsPolynomial a ∧ IsPolynomial b := by
  cases polynomial with
  | sum left right | minus left right | mul left right => exact ⟨left, right⟩
  | div dividend => exact ⟨dividend, .num _⟩
  | pow base n => exact ⟨base, .num n⟩

end Expr

namespace Monomial

variable {m : Monomial}

structure Canonical (m : Monomial) : Prop where
  atoms : m.Over Expr.IsVariable
  positive : ∀ f ∈ m, 0 < f.2
  sorted : m.Pairwise fun f g => f.1.cmp g.1 = .lt

theorem Canonical.reduced (canonical : m.Canonical) : m.Reduced := ⟨canonical.positive, canonical.sorted⟩

end Monomial

namespace Polynomial

variable {p q : Polynomial}

structure Canonical (p : Polynomial) : Prop where
  monomials : ∀ t ∈ p, t.1.Canonical
  distinct : (p.map Prod.fst).Nodup
  nonzero : ∀ t ∈ p, t.2 ≠ 0

/-- Canonical polynomials are the reduced ones over the variables. -/
theorem canonical_iff : p.Canonical ↔ p.Reduced ∧ p.Over Expr.IsVariable := by
  constructor
  · intro canonical
    exact ⟨⟨fun t member => (canonical.monomials t member).reduced, canonical.distinct, canonical.nonzero⟩,
      fun t member => (canonical.monomials t member).atoms⟩
  · rintro ⟨reduced, atoms⟩
    refine ⟨fun t member => ?_, reduced.distinct, reduced.nonzero⟩
    exact ⟨atoms t member, (reduced.monomials t member).positive, (reduced.monomials t member).sorted⟩

theorem multiplyOut_over (c : Config) {e : Expr} (polynomial : e.IsPolynomial) :
    Answers (multiplyOut c e) (Over Expr.IsVariable) := by
  refine multiplyOut_structural (J := .returns) over_structural Returns.trivial Expr.IsPolynomial.operands
    (fun e atom polynomial => ?_) e polynomial
  refine (ofAtom_atom c e).mono ?_
  rintro _ rfl
  exact over_atom (polynomial.isVariable atom)

theorem multiplyOut_canonical (c : Config) {e : Expr} (polynomial : e.IsPolynomial) :
    Answers (multiplyOut c e) Canonical := by
  refine (Returns.and (multiplyOut_reduced c e) (multiplyOut_over c polynomial)).mono fun r known p found => ?_
  exact canonical_iff.mpr ⟨known.1 p found, known.2 p found⟩

/-- Over the variables, the polynomial in the atoms is the formal polynomial. -/
theorem rename_eval (atoms : p.Over Expr.IsVariable) :
    MvPolynomial.rename Expr.var (p.eval Expr.formal) = p.eval MvPolynomial.X := by
  rw [map_eval]
  refine eval_congr fun t member f inside => ?_
  obtain ⟨x, atom, -⟩ := atoms t member f inside
  rw [atom, Expr.formal, MvPolynomial.rename_X]

/-- Canonical polynomials that stand for the same formal polynomial have the same terms. -/
theorem Canonical.perm_of_eval (left : Canonical p) (right : Canonical q)
    (same : p.eval Expr.formal = q.eval Expr.formal) : p.Perm q := by
  obtain ⟨reduced, atoms⟩ := canonical_iff.mp left
  obtain ⟨reduced', atoms'⟩ := canonical_iff.mp right
  refine reduced.perm_of_eval reduced' ?_
  rw [← rename_eval atoms, ← rename_eval atoms', same]

end Polynomial
end ComputerAlgebra

/-!
The expression of a canonical polynomial. Keys are put in order by a total preorder, and on powers of
variables and on terms with different monomials it tells any two apart; so the expression depends on
the terms of the polynomial alone, not on their order and not on the digits of the float unit.
-/

namespace ComputerAlgebra

open Std (TransCmp)

namespace Expr

theorem keyOrder_eq : keyOrder = List.compareLex (compareLex (compareOn Prod.fst) (compareOn Prod.snd)) := by
  funext k l
  induction k, l using keyOrder.induct with
  | case1 => rfl
  | case2 l nonempty =>
    cases l with
    | nil => exact absurd rfl nonempty
    | cons => rfl
  | case3 k nonempty =>
    cases k with
    | nil => exact absurd rfl nonempty
    | cons => rfl
  | case4 k t rest k' t' rest' ih =>
    rw [keyOrder, ih, List.compareLex_cons_cons]
    rfl

instance keyOrder_trans : TransCmp keyOrder := by
  rw [keyOrder_eq]
  infer_instance

theorem eq_of_keyOrder {k l : List (String × String)} : keyOrder k l = .eq → k = l := by
  induction k, l using keyOrder.induct with
  | case1 => intro; rfl
  | case2 l nonempty =>
    intro same
    cases l with
    | nil => rfl
    | cons => cases same
  | case3 k nonempty =>
    intro same
    cases k with
    | nil => rfl
    | cons => cases same
  | case4 k t rest k' t' rest' ih =>
    intro same
    simp only [keyOrder, Ordering.then_eq_eq] at same
    rw [Std.LawfulEqOrd.eq_of_compare same.1.1, Std.LawfulEqOrd.eq_of_compare same.1.2, ih same.2]

/-- The key of a variable is its name, whatever digits the float unit has. -/
theorem IsVariable.canonicalKey {a : Expr} (plain : a.IsVariable) (u : FloatUnit) :
    a.canonicalKey u = [("Variable", a.variableName)] := by
  obtain ⟨x, rfl, -⟩ := plain
  rfl

end Expr

namespace Polynomial

instance KeyedFactor.order_trans : TransCmp KeyedFactor.order := by
  have byKey : TransCmp fun s t : KeyedFactor => Expr.keyOrder s.key t.key := transCmp_comap _
  have byPower : TransCmp fun s t : KeyedFactor => compare t.power s.power := transCmp_reverse _
  exact inferInstanceAs (TransCmp (compareLex _ _))

namespace KeyedTerm

theorem factorsOrder_eq : factorsOrder = List.compareLex KeyedFactor.order := by
  funext s t
  induction s, t using factorsOrder.induct with
  | case1 => rfl
  | case2 => rfl
  | case3 => rfl
  | case4 f rest g rest' ih => rw [factorsOrder, ih, List.compareLex_cons_cons]

instance order_trans : TransCmp KeyedTerm.order := by
  have factors : TransCmp factorsOrder := by
    rw [factorsOrder_eq]
    infer_instance
  have byFactors : TransCmp fun s t : KeyedTerm => factorsOrder s.factors t.factors :=
    transCmp_comap _
  have byDegree : TransCmp fun s t : KeyedTerm => compare t.degree s.degree := transCmp_reverse _
  exact inferInstanceAs (TransCmp (compareLex _ _))

/-- The factors of a term over the variables are powers of variables under their keys. -/
theorem ofTerm_factors {u : FloatUnit} {m : Monomial} {k : Rat} (atoms : m.Over Expr.IsVariable) :
    ∀ f ∈ (ofTerm u m k).factors, f.atom.IsVariable ∧ f.key = f.atom.canonicalKey u := by
  intro f member
  simp only [ofTerm, List.mem_mergeSort, List.mem_map] at member
  obtain ⟨g, inside, rfl⟩ := member
  exact ⟨atoms g inside, rfl⟩

theorem eq_of_factorsOrder {u : FloatUnit} {fs gs : List KeyedFactor} :
    (∀ f ∈ fs, f.atom.IsVariable ∧ f.key = f.atom.canonicalKey u) →
    (∀ g ∈ gs, g.atom.IsVariable ∧ g.key = g.atom.canonicalKey u) →
    factorsOrder fs gs = .eq → fs = gs := by
  induction fs, gs using factorsOrder.induct with
  | case1 => intros; rfl
  | case2 => intro _ _ same; cases same
  | case3 => intro _ _ same; cases same
  | case4 f rest g rest' ih =>
    intro left right same
    rw [List.forall_mem_cons] at left right
    obtain ⟨⟨first, key⟩, left⟩ := left
    obtain ⟨⟨second, key'⟩, right⟩ := right
    simp only [factorsOrder, KeyedFactor.order, Ordering.then_eq_eq] at same
    have keys := Expr.eq_of_keyOrder same.1.1
    have powers := Std.LawfulEqOrd.eq_of_compare same.1.2
    obtain ⟨k, a, n⟩ := f
    obtain ⟨l, b, n'⟩ := g
    have names : a.variableName = b.variableName := by
      have shown : a.canonicalKey u = b.canonicalKey u := key.symm.trans (keys.trans key')
      simpa [first.canonicalKey, second.canonicalKey] using shown
    have atoms : a = b := first.name_injective second names
    rw [ih left right same.2, show k = l from keys, atoms, show n' = n from powers]

/-- Canonical monomials with the same factors are the same. -/
theorem ofTerm_injective {u : FloatUnit} {m n : Monomial} {k l : Rat} (left : m.Canonical)
    (right : n.Canonical) (same : (ofTerm u m k).order (ofTerm u n l) = .eq) : m = n := by
  have factors : (ofTerm u m k).factors = (ofTerm u n l).factors := by
    rw [order, Ordering.then_eq_eq] at same
    exact eq_of_factorsOrder (ofTerm_factors left.atoms) (ofTerm_factors right.atoms) same.2
  have powers (m : Monomial) (k : Rat) :
      ((ofTerm u m k).factors.map fun f => (f.atom, f.power)).Perm m := by
    refine ((List.mergeSort_perm _ _).map _).trans ?_
    rw [List.map_map]
    exact List.Perm.of_eq (List.map_id m)
  have perm : m.Perm n := (powers m k).symm.trans (factors ▸ powers n l)
  exact left.reduced.eq_of_powers right.reduced (perm.map _).sum_eq

end KeyedTerm

variable {p q : Polynomial}

/-- Canonical polynomials with the same terms are written as the same expression, whatever digits the
float unit has. -/
theorem Canonical.toExpr_eq (canonical : Canonical p) (perm : p.Perm q) (u u' : FloatUnit) :
    p.toExpr u = q.toExpr u' := by
  have other : keyedTerms u' q = keyedTerms u q := by
    refine keyedTerms_congr fun t member f inside => ?_
    have plain : f.1.IsVariable :=
      (canonical.monomials t (perm.mem_iff.mpr member)).atoms f inside
    rw [plain.canonicalKey, plain.canonicalKey]
  have terms : keyedTerms u p = keyedTerms u' q := by
    rw [other, keyedTerms, keyedTerms]
    refine mergeSort_eq_of_perm KeyedTerm.order (perm.map _) fun s inside t inside' same => ?_
    obtain ⟨⟨m, k⟩, member, rfl⟩ := List.mem_map.mp inside
    obtain ⟨⟨n, l⟩, member', rfl⟩ := List.mem_map.mp inside'
    have monomials : m = n := KeyedTerm.ofTerm_injective (canonical.monomials _ member)
      (canonical.monomials _ member') same
    have equal : (m, k) = (n, l) :=
      List.inj_on_of_nodup_map canonical.distinct member member' monomials
    cases equal
    rfl
  rw [toExpr, toExpr, terms]

end Polynomial
end ComputerAlgebra

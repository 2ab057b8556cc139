import ComputerAlgebra.Proofs.Evaluation.Basic
import ComputerAlgebra.Proofs.Expr.Measure
import ComputerAlgebra.Proofs.Polynomial.Writing
import ComputerAlgebra.Proofs.Rational.Codomain
import ComputerAlgebra.Proofs.Rational.Undefined
import Mathlib.Algebra.CharZero.Infinite
import Mathlib.Algebra.MvPolynomial.Funext

/-!
Expansion is a normal form of polynomial expressions. The polynomial that an expression is multiplied
out to is the canonical one of its formal polynomial, and formal polynomials over the fractions are
told apart by their values; so expressions with the same values have the same expansion, and
expressions with the same expansion have the same values wherever the codomain lets both have one.
-/

namespace ComputerAlgebra

namespace Polynomial

variable {a b e : Expr} {p q : Polynomial}

structure FormOf (e : Expr) (p : Polynomial) : Prop where
  canonical : p.Canonical
  represents : Represents (fun a v => a.IsPolynomial ∧ a.formal = v) Expr.formal p e.formal

theorem Canonical.formOf (canonical : p.Canonical) (same : p.eval Expr.formal = e.formal) :
    FormOf e p := by
  refine ⟨canonical, fun t member f inside => ?_, same⟩
  obtain ⟨x, atom, plain⟩ := (canonical.monomials t member).atoms f inside
  rw [atom]
  exact ⟨.var plain, rfl⟩

theorem multiplyOut_formOf (c : Config) (polynomial : e.IsPolynomial) :
    Answers (multiplyOut c e) (FormOf e) := by
  have represents := multiplyOut_represents Expr.formal_reading c e ⟨polynomial, rfl⟩
  refine (Returns.and (multiplyOut_canonical c polynomial) represents).mono fun r known p found => ?_
  exact ⟨known.1 p found, known.2 p found⟩

theorem FormOf.toExpr (form : FormOf e p) (u : FloatUnit) :
    (p.toExpr u).IsPolynomial ∧ (p.toExpr u).formal = e.formal :=
  toExpr_value Expr.formal_reading u form.represents

/-- The same formal polynomial is written as the same expression. -/
theorem FormOf.toExpr_eq (left : FormOf a p) (right : FormOf b q) (same : a.formal = b.formal)
    (u u' : FloatUnit) : p.toExpr u = q.toExpr u' := by
  have values : p.eval Expr.formal = q.eval Expr.formal := by
    rw [left.represents.2, right.represents.2, same]
  exact left.canonical.toExpr_eq (left.canonical.perm_of_eval right.canonical values) u u'

/-- An expansion is at least as deep as it has terms. -/
theorem length_le_depth (u : FloatUnit) (p : Polynomial) : p.length ≤ (p.toExpr u).depth := by
  have appended (rest : List KeyedTerm) : ∀ sum : Expr,
      sum.depth + rest.length ≤ (rest.foldl appendTerm sum).depth := by
    induction rest with
    | nil => exact fun sum => le_refl _
    | cons t rest ih =>
      intro sum
      have deeper : sum.depth < (appendTerm sum t).depth :=
        Expr.depth_child (by simp [appendTerm, Expr.children])
      have further := ih (appendTerm sum t)
      rw [List.foldl_cons, List.length_cons]
      omega
  have terms : (keyedTerms u p).length = p.length := by simp [keyedTerms]
  rw [toExpr, ← terms]
  cases keyedTerms u p with
  | nil => exact Nat.zero_le _
  | cons t rest =>
    have first := Expr.depth_pos (termExpr t.coefficient t.product?)
    have whole := appended rest (termExpr t.coefficient t.product?)
    exact (by omega : rest.length + 1 ≤ (termExpr t.coefficient t.product?).depth + rest.length).trans whole

end Polynomial

namespace Expr

open ComputerAlgebra.Polynomial (FormOf)

variable {c : Config} {a b e : Expr} {s : List (String × Rat)}

/-- The expression is not too deep and multiplies out within the bound on terms. -/
def Expands (c : Config) (e : Expr) : Prop :=
  ∃ u p w, Polynomial.ofExpr? c e u = .ok (some p) w

/-- With fractions for its variables the expression evaluates to the number, whatever digits the float
unit has. -/
def EvaluatesAt (c : Config) (s : List (String × Rat)) (e : Expr) (v : Number) : Prop :=
  ∃ t, e.assign s = .ok t ∧ ∀ u, t.evaled c u = .ok (.num v) u

section Expanding

theorem Expands.shallow (expands : Expands c e) : e.checkDepth c = .ok () := by
  obtain ⟨u, p, w, returned⟩ := expands
  cases depth : e.checkDepth c with
  | ok => rfl
  | error f =>
    rw [Polynomial.ofExpr?, depth] at returned
    cases returned

/-- An expression within the limit on depth is expanded to what its multiplied form is written as. -/
private theorem expand_eq (shallow : e.checkDepth c = .ok ()) {u : FloatUnit}
    {answer : Option Polynomial} (multiplied : (Polynomial.multiplyOut c e).run u = .ok answer u) :
    e.expand c u = .ok ((answer.map (·.toExpr u)).getD e) u := by
  have formed : Polynomial.ofExpr? c e u = .ok answer u := by
    rw [Polynomial.ofExpr?, shallow]
    exact multiplied
  have collapsed : e.collapse? c u = .ok (answer.map (·.toExpr u)) u := by
    rw [collapse?, Computation.bind_ok formed]
    cases answer <;> rfl
  rw [expand, Computation.bind_ok collapsed]
  rfl

/-- The expansion of a polynomial expression is its canonical polynomial, written as an expression. -/
theorem expand_formOf (polynomial : IsPolynomial e) (expands : Expands c e) :
    ∃ p, FormOf e p ∧ ∀ u, e.expand c u = .ok (p.toExpr u) u := by
  have shallow := expands.shallow
  obtain ⟨u, p, w, returned⟩ := expands
  rw [Polynomial.ofExpr?, shallow] at returned
  have multiplied : (Polynomial.multiplyOut c e).run u = .ok (some p) w := returned
  refine ⟨p, Polynomial.multiplyOut_formOf c polynomial u _ w multiplied p rfl, fun u' => ?_⟩
  exact expand_eq shallow ((Polynomial.multiplyOut_floatless c polynomial).steady multiplied u')

/-- Whatever canonical polynomial of the expression is given, the expansion is what it is written as. -/
theorem expand_toExpr {p : Polynomial} (polynomial : IsPolynomial e) (expands : Expands c e)
    (form : FormOf e p) (u₀ u : FloatUnit) : e.expand c u = .ok (p.toExpr u₀) u := by
  obtain ⟨q, found, expanded⟩ := expand_formOf polynomial expands
  rw [expanded u, found.toExpr_eq form rfl u u₀]

/-- A polynomial expression within the limit on depth is expanded to its canonical polynomial, or left
as it is where that has too many terms. -/
theorem expand_total (polynomial : IsPolynomial e) (shallow : e.checkDepth c = .ok ())
    {limit : Polynomial.Limit} (bound : c.expansionBound = .ok limit) (u : FloatUnit) :
    e.expand c u = .ok e u ∨ ∃ p, FormOf e p ∧ e.expand c u = .ok (p.toExpr u) u := by
  obtain ⟨outcome, run, refused⟩ := Polynomial.multiplyOut_floatless c polynomial
  cases outcome with
  | error f => cases bound.symm.trans (refused f rfl)
  | ok answer =>
    have multiplied : (Polynomial.multiplyOut c e).run u = .ok answer u := by
      rw [run]
      rfl
    cases answer with
    | none => exact .inl (expand_eq shallow multiplied)
    | some p =>
      have form := Polynomial.multiplyOut_formOf c polynomial u _ u multiplied p rfl
      exact .inr ⟨p, form, expand_eq shallow multiplied⟩

end Expanding

section Values

theorem isFinite_ofValue {x : Option Rat} (finite : (Number.ofValue x).isFinite = true) :
    ∃ q, x = some q := by
  cases x with
  | none => cases finite
  | some q => exact ⟨q, rfl⟩

/-- A finite number that a polynomial expression evaluates to is the value of its formal polynomial. -/
theorem EvaluatesAt.eq_eval (polynomial : IsPolynomial e)
    (covered : ∀ x ∈ e.names, x ∈ s.map Prod.fst) {v : Number} (evaluates : EvaluatesAt c s e v)
    (finite : v.isFinite = true) :
    v = .ofRat (MvPolynomial.eval (fun x => (Assignment.ofList s x).getD 0) e.formal) := by
  have given : ∀ x ∈ e.names, (Assignment.ofList s x).isSome = true := by
    simpa [Assignment.ofList, List.lookup_isSome_iff] using covered
  obtain ⟨t, x, assigned, evaluated, known, -⟩ :=
    evaluate_assigned (c := c) polynomial.rational covered
  obtain ⟨t', assigned', evaluates⟩ := evaluates
  obtain rfl : t' = t := Except.ok.inj (assigned'.symm.trans assigned)
  have found := (evaled_ok (evaluates ⟨0⟩)).2
  rw [evaluated] at found
  cases found
  obtain ⟨q, rfl⟩ := isFinite_ofValue finite
  have value := known q rfl
  rw [valueAt?_formal polynomial given] at value
  cases value
  rfl

/-- Under a codomain with all fractions a polynomial expression evaluates to the value of its formal
polynomial. -/
theorem evaluatesAt_eval (polynomial : IsPolynomial e) (shallow : e.checkDepth c = .ok ())
    (all : c.codomain.HoldsFractions) (covered : ∀ x ∈ e.names, x ∈ s.map Prod.fst) :
    EvaluatesAt c s e
      (.ofRat (MvPolynomial.eval (fun x => (Assignment.ofList s x).getD 0) e.formal)) := by
  have given : ∀ x ∈ e.names, (Assignment.ofList s x).isSome = true := by
    simpa [Assignment.ofList, List.lookup_isSome_iff] using covered
  obtain ⟨t, x, assigned, evaluated, -, found⟩ :=
    evaluate_assigned (c := c) polynomial.rational covered
  refine ⟨t, assigned, fun u => ?_⟩
  rw [evaled_eq ((checkDepth_congr (assign_depth assigned)).trans shallow), evaluated, found all,
    valueAt?_formal polynomial given]
  rfl

/-- A formal polynomial's value depends on the variables of the expression alone. -/
theorem eval_formal_congr (polynomial : IsPolynomial e) {f g : String → Rat}
    (same : ∀ x ∈ e.names, f x = g x) :
    MvPolynomial.eval f e.formal = MvPolynomial.eval g e.formal := by
  have value (f : String → Rat) := valueAt?_formal polynomial (ρ := fun x => some (f x)) (by simp)
  have equal : valueAt? (fun x => some (f x)) e = valueAt? (fun x => some (g x)) e :=
    valueAt?_congr fun x named => by rw [same x named]
  rw [value f, value g] at equal
  exact Option.some.inj equal

def listed (f : String → Rat) (names : List String) : List (String × Rat) :=
  names.map fun x => (x, f x)

theorem lookup_listed {f : String → Rat} {names : List String} {x : String} (named : x ∈ names) :
    Assignment.ofList (listed f names) x = some (f x) := by
  induction names with
  | nil => cases named
  | cons y names ih =>
    by_cases same : x = y
    · simp [Assignment.ofList, listed, same]
    · have later : x ∈ names := (List.mem_cons.mp named).resolve_left same
      have different : (x == y) = false := by simpa using same
      rw [Assignment.ofList, listed, List.map_cons, List.lookup_cons, different]
      exact ih later

/-- Polynomial expressions that evaluate to the same finite number under every assignment of fractions
have the same formal polynomial. -/
theorem formal_eq_of_values (first : IsPolynomial a) (second : IsPolynomial b)
    (same : ∀ s : List (String × Rat), (∀ x ∈ a.names ++ b.names, x ∈ s.map Prod.fst) →
      ∃ v : Number, v.isFinite = true ∧ EvaluatesAt c s a v ∧ EvaluatesAt c s b v) :
    a.formal = b.formal := by
  refine MvPolynomial.funext fun f => ?_
  let s := listed f (a.names ++ b.names)
  have covered : ∀ x ∈ a.names ++ b.names, x ∈ s.map Prod.fst := by
    intro x named
    simpa [s, listed] using List.mem_append.mp named
  have values : ∀ x ∈ a.names ++ b.names, (Assignment.ofList s x).getD 0 = f x := by
    intro x named
    rw [lookup_listed named, Option.getD_some]
  obtain ⟨v, finite, left, right⟩ := same s covered
  have found := left.eq_eval first (fun x named => covered x (by simp [named])) finite
  rw [right.eq_eval second (fun x named => covered x (by simp [named])) finite] at found
  rw [← eval_formal_congr first fun x named => values x (by simp [named]),
    ← eval_formal_congr second fun x named => values x (by simp [named])]
  exact (Number.ofRat_injective found).symm

end Values

/-- Expansion is a normal form of polynomial expressions that stay within the limits on depth and on
terms. If two of them evaluate to the same finite number under every assignment of fractions to their
variables, their expansions are the same. If their expansions are the same, the numbers they evaluate
to are the same wherever both are finite, and under a codomain with all fractions they evaluate to the
same finite number everywhere. An expansion that is not too deep itself is expanded to itself. -/
theorem expansion_normal_form (first : IsPolynomial a) (second : IsPolynomial b)
    (expandsLeft : Expands c a) (expandsRight : Expands c b) :
    ∃ r r', (∀ u, a.expand c u = .ok r u) ∧ (∀ u, b.expand c u = .ok r' u) ∧
      ((∀ s : List (String × Rat), (∀ x ∈ a.names ++ b.names, x ∈ s.map Prod.fst) →
          ∃ v : Number, v.isFinite = true ∧ EvaluatesAt c s a v ∧ EvaluatesAt c s b v) → r = r') ∧
      (r = r' → ∀ s : List (String × Rat), (∀ x ∈ a.names ++ b.names, x ∈ s.map Prod.fst) →
        (∀ v v' : Number, v.isFinite = true → v'.isFinite = true →
          EvaluatesAt c s a v → EvaluatesAt c s b v' → v = v') ∧
        (c.codomain.HoldsFractions →
          ∃ v : Number, v.isFinite = true ∧ EvaluatesAt c s a v ∧ EvaluatesAt c s b v)) ∧
      ∀ limit, c.expansionBound = .ok limit → r.checkDepth c = .ok () →
        ∀ u, r.expand c u = .ok r u := by
  obtain ⟨p, left, -⟩ := expand_formOf first expandsLeft
  obtain ⟨q, right, -⟩ := expand_formOf second expandsRight
  let u₀ : FloatUnit := ⟨0⟩
  refine ⟨p.toExpr u₀, q.toExpr u₀, expand_toExpr first expandsLeft left u₀,
    expand_toExpr second expandsRight right u₀, fun same => ?_, fun same s covered => ?_,
    fun limit bound shallow u => ?_⟩
  · exact left.toExpr_eq right (formal_eq_of_values first second same) u₀ u₀
  · have formal : a.formal = b.formal := by
      rw [← (left.toExpr u₀).2, ← (right.toExpr u₀).2, same]
    have coveredLeft : ∀ x ∈ a.names, x ∈ s.map Prod.fst :=
      fun x named => covered x (by simp [named])
    have coveredRight : ∀ x ∈ b.names, x ∈ s.map Prod.fst :=
      fun x named => covered x (by simp [named])
    constructor
    · intro v v' finite finite' evaluates evaluates'
      rw [evaluates.eq_eval first coveredLeft finite, evaluates'.eq_eval second coveredRight finite',
        formal]
    · intro all
      refine ⟨_, rfl, evaluatesAt_eval first expandsLeft.shallow all coveredLeft, ?_⟩
      rw [formal]
      exact evaluatesAt_eval second expandsRight.shallow all coveredRight
  · rcases expand_total (left.toExpr u₀).1 shallow bound u with unchanged | ⟨p', form, again⟩
    · exact unchanged
    · rw [again, form.toExpr_eq left (left.toExpr u₀).2 u u₀]

private theorem expands_of_run {u : FloatUnit}
    (run : (Polynomial.ofExpr? c e u matches .ok (some _) _) = true) : Expands c e := by
  split at run
  · next p w returned => exact ⟨u, p, w, returned⟩
  · cases run

private theorem power_canonical {x : String} (plain : isConstantName x = false) (n : Nat) :
    Monomial.Canonical [(.var x, n + 1)] :=
  ⟨by simpa [Monomial.Over] using ⟨x, rfl, plain⟩, by simp, by simp⟩

/-- A number that a run finds is found from every unit. -/
private theorem evaluatesAt_of_run {t : Expr} {v : Number} {u : FloatUnit} (polynomial : IsPolynomial e)
    (covered : ∀ x ∈ e.names, x ∈ s.map Prod.fst) (assigned : e.assign s = .ok t)
    (run : t.evaled c u = .ok (.num v) u) : EvaluatesAt c s e v := by
  obtain ⟨t', x, assigned', evaluated, -⟩ := evaluate_assigned (c := c) polynomial.rational covered
  obtain rfl : t' = t := Except.ok.inj (assigned'.symm.trans assigned)
  obtain ⟨shallow, found⟩ := evaled_ok run
  refine ⟨t', assigned, fun w => ?_⟩
  rw [evaluated] at found
  cases found
  rw [evaled_eq shallow, evaluated]
  rfl

/-- The expansion of `x x + x x` is `2 x^2`, which has the same values, and which is its own expansion. -/
theorem expansion_normal_form_square :
    ∃ a b : Expr, a = .binary .sum (.binary .mul (.var "x") (.var "x")) (.binary .mul (.var "x") (.var "x")) ∧
      b = .binary .mul 2 (.binary .pow (.var "x") (.num (.ofInt 2))) ∧
      IsPolynomial a ∧ IsPolynomial b ∧ Expands .default a ∧ Expands .default b ∧
      (∀ s : List (String × Rat), (∀ x ∈ a.names ++ b.names, x ∈ s.map Prod.fst) →
        ∃ v : Number, v.isFinite = true ∧ EvaluatesAt .default s a v ∧ EvaluatesAt .default s b v) ∧
      (∀ u, a.expand .default u = .ok b u) ∧ ∀ u, b.expand .default u = .ok b u := by
  let x : Expr := .var "x"
  let a : Expr := .binary .sum (.binary .mul x x) (.binary .mul x x)
  let b : Expr := .binary .mul 2 (.binary .pow x (.num (.ofInt 2)))
  have plain : IsPolynomial x := .var (by decide)
  have first : IsPolynomial a := .sum (.mul plain plain) (.mul plain plain)
  have second : IsPolynomial b := .mul (.num 2) (.pow plain 2)
  have expandsLeft : Expands .default a := expands_of_run (u := ⟨0⟩) (by decide +kernel)
  have expandsRight : Expands .default b := expands_of_run (u := ⟨0⟩) (by decide +kernel)
  have double : (MvPolynomial.C 2 : MvPolynomial String Rat) = 2 := map_ofNat MvPolynomial.C 2
  have formalLeft : a.formal = MvPolynomial.C 2 * MvPolynomial.X "x" ^ 2 := by
    change MvPolynomial.X "x" * MvPolynomial.X "x" + MvPolynomial.X "x" * MvPolynomial.X "x" = _
    rw [double]
    ring
  have formalRight : b.formal = MvPolynomial.C 2 * MvPolynomial.X "x" ^ 2 :=
    congrArg (MvPolynomial.C 2 * ·) (formal_pow 2)
  have values : ∀ s : List (String × Rat), (∀ x ∈ a.names ++ b.names, x ∈ s.map Prod.fst) →
      ∃ v : Number, v.isFinite = true ∧ EvaluatesAt .default s a v ∧ EvaluatesAt .default s b v := by
    intro s covered
    refine ⟨_, rfl, evaluatesAt_eval first expandsLeft.shallow Domain.holdsFractions_complex
      fun x named => covered x (by simp [named]), ?_⟩
    rw [formalLeft, ← formalRight]
    exact evaluatesAt_eval second expandsRight.shallow Domain.holdsFractions_complex
      fun x named => covered x (by simp [named])
  obtain ⟨r, r', expanded, expanded', same, -, again⟩ :=
    expansion_normal_form first second expandsLeft expandsRight
  have written : r' = b := by
    have form : FormOf b [([(x, 2)], 2)] := by
      have power := power_canonical (x := "x") (by decide) 1
      refine Polynomial.Canonical.formOf ⟨by simpa using power, by simp, by simp⟩ ?_
      rw [formalRight]
      simp [x, formal]
    have returned := expand_toExpr second expandsRight form ⟨0⟩ ⟨0⟩
    rw [expanded' ⟨0⟩] at returned
    cases returned
    decide +kernel
  have result : r = b := (same values).trans written
  refine ⟨a, b, rfl, rfl, first, second, expandsLeft, expandsRight, values, result ▸ expanded, ?_⟩
  exact result ▸ again _ rfl (result ▸ by decide +kernel)


section Limits

def integers : Config := { Config.default with codomain := .integer, sound := by decide +kernel }

def shallowTrees : Config := { Config.default with maxTreeDepth := .int 3, sound := by decide +kernel }

private theorem canonical_unit {k : Rat} (nonzero : k ≠ 0) : Polynomial.Canonical [([], k)] := by
  have one : Monomial.Canonical [] := ⟨by simp [Monomial.Over], by simp, .nil⟩
  exact ⟨by simpa using one, by simp, by simpa using nonzero⟩

private theorem expand_reciprocal {q : Rat} (nonzero : q ≠ 0)
    (expands : Expands c (.binary .div 1 (.num (.ofRat q)))) (u : FloatUnit) :
    expand c (.binary .div 1 (.num (.ofRat q))) u = .ok (Polynomial.toExpr ⟨0⟩ [([], q⁻¹)]) u := by
  have polynomial : IsPolynomial (.binary .div 1 (.num (.ofRat q))) := .div (.num 1) nonzero
  refine expand_toExpr polynomial expands ((canonical_unit (inv_ne_zero nonzero)).formOf ?_) ⟨0⟩ u
  simp [formal_div, show formal 1 = 1 from formal_num (q := 1)]

/-- Over the integers a half and a third both evaluate to NaN, and their expansions are different. -/
private theorem different_fractions_undefined :
    ∃ a b : Expr, a = .binary .div 1 2 ∧ b = .binary .div 1 3 ∧ IsPolynomial a ∧ IsPolynomial b ∧
      Expands integers a ∧ Expands integers b ∧
      (∀ s, EvaluatesAt integers s a .nan ∧ EvaluatesAt integers s b .nan) ∧
      ∃ r r', r ≠ r' ∧ (∀ u, a.expand integers u = .ok r u) ∧ ∀ u, b.expand integers u = .ok r' u := by
  have polynomial {q : Rat} (nonzero : q ≠ 0) : IsPolynomial (.binary .div 1 (.num (.ofRat q))) :=
    .div (.num 1) nonzero
  have assigned (q : Rat) (s : List (String × Rat)) :
      assign s (.binary .div 1 (.num (.ofRat q))) = .ok (.binary .div 1 (.num (.ofRat q))) := by
    induction s with
    | nil => rfl
    | cons pair s ih => exact ih
  have closed (q : Rat) : names (.binary .div 1 (.num (.ofRat q))) = [] := rfl
  have undefined {q : Rat} (nonzero : q ≠ 0) (s : List (String × Rat))
      (run : evaled integers (.binary .div 1 (.num (.ofRat q))) ⟨0⟩ = .ok (.num .nan) ⟨0⟩) :
      EvaluatesAt integers s (.binary .div 1 (.num (.ofRat q))) .nan :=
    evaluatesAt_of_run (polynomial nonzero) (by simp [closed]) (assigned q s) run
  have expandsLeft : Expands integers (.binary .div 1 2) :=
    expands_of_run (u := ⟨0⟩) (by decide +kernel)
  have expandsRight : Expands integers (.binary .div 1 3) :=
    expands_of_run (u := ⟨0⟩) (by decide +kernel)
  refine ⟨_, _, rfl, rfl, polynomial (by norm_num : (2 : Rat) ≠ 0),
    polynomial (by norm_num : (3 : Rat) ≠ 0), expandsLeft, expandsRight, fun s => ⟨?_, ?_⟩, _, _, ?_,
    expand_reciprocal (by norm_num : (2 : Rat) ≠ 0) expandsLeft,
    expand_reciprocal (by norm_num : (3 : Rat) ≠ 0) expandsRight⟩
  · exact undefined (by norm_num) s (by decide +kernel)
  · exact undefined (by norm_num) s (by decide +kernel)
  · decide +kernel

/-- Over the integers twice the half of `x` evaluates to NaN at one, and its expansion is `x`. -/
private theorem halved_undefined :
    ∃ a b : Expr, a = .binary .mul (.binary .div (.var "x") 2) 2 ∧ b = .var "x" ∧
      IsPolynomial a ∧ IsPolynomial b ∧ Expands integers a ∧ Expands integers b ∧
      (∃ r, (∀ u, a.expand integers u = .ok r u) ∧ ∀ u, b.expand integers u = .ok r u) ∧
      EvaluatesAt integers [("x", 1)] a .nan ∧ EvaluatesAt integers [("x", 1)] b 1 := by
  let a : Expr := .binary .mul (.binary .div (.var "x") 2) 2
  let b : Expr := .var "x"
  have second : IsPolynomial b := .var (by decide)
  have first : IsPolynomial a := .mul (.div second (by norm_num : (2 : Rat) ≠ 0)) (.num 2)
  have expandsLeft : Expands integers a := expands_of_run (u := ⟨0⟩) (by decide +kernel)
  have expandsRight : Expands integers b := expands_of_run (u := ⟨0⟩) (by decide +kernel)
  have power := power_canonical (x := "x") (by decide) 0
  have canonical : Polynomial.Canonical [([(b, 1)], 1)] := ⟨by simpa using power, by simp, by simp⟩
  have formRight : FormOf b [([(b, 1)], 1)] := canonical.formOf (by simp)
  have formLeft : FormOf a [([(b, 1)], 1)] := by
    refine canonical.formOf ?_
    change _ = MvPolynomial.C (2 : Rat)⁻¹ * MvPolynomial.X "x" * MvPolynomial.C 2
    rw [mul_right_comm, ← map_mul]
    simp [b, formal]
  have namesLeft : a.names = ["x"] := by decide +kernel
  have namesRight : b.names = ["x"] := by decide +kernel
  exact ⟨a, b, rfl, rfl, first, second, expandsLeft, expandsRight,
    ⟨_, expand_toExpr first expandsLeft formLeft ⟨0⟩, expand_toExpr second expandsRight formRight ⟨0⟩⟩,
    evaluatesAt_of_run (u := ⟨0⟩) first (by simp [namesLeft]) rfl (by decide +kernel),
    evaluatesAt_of_run (u := ⟨0⟩) second (by simp [namesRight]) rfl (by decide +kernel)⟩

/-- The expansion of a sum of four terms, of depth three, is deeper than three. -/
private theorem expansion_too_deep :
    ∃ a : Expr, a = .binary .sum (.binary .sum (.var "x") 1) (.binary .sum (.var "y") (.var "z")) ∧
      IsPolynomial a ∧ Expands shallowTrees a ∧
      ∃ r, (∀ u, a.expand shallowTrees u = .ok r u) ∧
        ∀ u, ∃ f, r.expand shallowTrees u = .error f u := by
  let a : Expr := .binary .sum (.binary .sum (.var "x") 1) (.binary .sum (.var "y") (.var "z"))
  let p : Polynomial := [([(.var "x", 1)], 1), ([], 1), ([(.var "y", 1)], 1), ([(.var "z", 1)], 1)]
  have plain (x : String) (known : isConstantName x = false) : IsPolynomial (.var x) := .var known
  have polynomial : IsPolynomial a :=
    .sum (.sum (plain "x" (by decide)) (.num 1)) (.sum (plain "y" (by decide)) (plain "z" (by decide)))
  have expands : Expands shallowTrees a := expands_of_run (u := ⟨0⟩) (by decide +kernel)
  have canonical : Polynomial.Canonical p := by
    refine ⟨?_, by simp [p], by simp [p]⟩
    have one : Monomial.Canonical [] := ⟨by simp [Monomial.Over], by simp, .nil⟩
    simpa [p] using ⟨power_canonical (x := "x") (by decide) 0, one,
      power_canonical (x := "y") (by decide) 0, power_canonical (x := "z") (by decide) 0⟩
  have form : FormOf a p := by
    refine canonical.formOf ?_
    change _ = MvPolynomial.X "x" + MvPolynomial.C 1 + (MvPolynomial.X "y" + MvPolynomial.X "z")
    simp [p, formal]
    ring
  refine ⟨a, rfl, polynomial, expands, _, expand_toExpr polynomial expands form ⟨0⟩, fun u => ?_⟩
  have deep : 4 ≤ (p.toExpr ⟨0⟩).depth := Polynomial.length_le_depth ⟨0⟩ p
  have above : (3 : Int) < (p.toExpr ⟨0⟩).depth := by omega
  have refused : (p.toExpr ⟨0⟩).checkDepth shallowTrees =
      .error (.treeTooDeep (p.toExpr ⟨0⟩).depth "3") :=
    if_pos (decide_eq_true (congrArg some (decide_eq_true above)))
  refine ⟨.treeTooDeep (p.toExpr ⟨0⟩).depth "3", ?_⟩
  rw [expand, collapse?, Polynomial.ofExpr?, refused]
  rfl

/-- The values of the parts of an expression and the depth of its expansion are limits as well.
Expressions that evaluate to NaN under every assignment may have different expansions, of two
expressions with the same expansion one may evaluate to NaN where the other has a value, and an
expansion that is too deep is not expanded again. -/
theorem expansion_confined :
    (∃ a b : Expr, a = .binary .div 1 2 ∧ b = .binary .div 1 3 ∧ IsPolynomial a ∧ IsPolynomial b ∧
      Expands integers a ∧ Expands integers b ∧
      (∀ s, EvaluatesAt integers s a .nan ∧ EvaluatesAt integers s b .nan) ∧
      ∃ r r', r ≠ r' ∧ (∀ u, a.expand integers u = .ok r u) ∧ ∀ u, b.expand integers u = .ok r' u) ∧
    (∃ a b : Expr, a = .binary .mul (.binary .div (.var "x") 2) 2 ∧ b = .var "x" ∧
      IsPolynomial a ∧ IsPolynomial b ∧ Expands integers a ∧ Expands integers b ∧
      (∃ r, (∀ u, a.expand integers u = .ok r u) ∧ ∀ u, b.expand integers u = .ok r u) ∧
      EvaluatesAt integers [("x", 1)] a .nan ∧ EvaluatesAt integers [("x", 1)] b 1) ∧
    ∃ a : Expr, a = .binary .sum (.binary .sum (.var "x") 1) (.binary .sum (.var "y") (.var "z")) ∧
      IsPolynomial a ∧ Expands shallowTrees a ∧
      ∃ r, (∀ u, a.expand shallowTrees u = .ok r u) ∧
        ∀ u, ∃ f, r.expand shallowTrees u = .error f u :=
  ⟨different_fractions_undefined, halved_undefined, expansion_too_deep⟩

end Limits

end Expr
end ComputerAlgebra

import ComputerAlgebra.Proofs.BigFloat.Rounding
import ComputerAlgebra.Proofs.Polynomial.Atoms
import ComputerAlgebra.Proofs.Polynomial.Capacity
import ComputerAlgebra.Proofs.Polynomial.Reading
import ComputerAlgebra.Proofs.Polynomial.Reduced
import ComputerAlgebra.Proofs.Simplification.Exhaustive
import Mathlib.Tactic.NormNum

/-!
Polynomials of one term or none. A bound that leaves room for one term refuses none of their products and
powers.
-/

namespace ComputerAlgebra

def TermBound.Roomy (l : TermBound) : Prop := 1 ≤ l.count ∧ 1 ≤ l.square

namespace TermBound

theorem roomy_exact {q : Rat} (room : 1 ≤ q) : (exact q).Roomy :=
  ⟨room, one_le_mul_of_one_le_of_one_le room room⟩

/-- Rounding does not bring a value below one. -/
private theorem one_le_round {x : Dyadic} (room : 1 ≤ x.toRat) :
    1 ≤ (BigFloat.roundDyadic 53 x).toRat := by
  have nonzero : x ≠ 0 := by
    rintro rfl
    norm_num [Dyadic.toRat_zero] at room
  obtain ⟨least, -, sign⟩ := BigFloat.round_bounds 53 (by decide) nonzero
  have positive := sign.mp (zero_lt_one.trans_le room)
  rw [abs_of_pos positive] at least
  have above : 0 < BigFloat.magnitude x := by
    have high := (BigFloat.magnitude_bounds nonzero).2
    rw [abs_of_pos (zero_lt_one.trans_le room)] at high
    have powers : (2 : ℚ) ^ (0 : Int) < 2 ^ BigFloat.magnitude x := by
      rw [zpow_zero]
      exact room.trans_lt high
    exact (zpow_lt_zpow_iff_right₀ one_lt_two).mp powers
  exact (one_le_zpow₀ one_le_two (by omega)).trans least

theorem roomy_ofFloat {x : Dyadic} (room : 1 ≤ x.toRat) : (ofFloat x).Roomy := by
  refine ⟨room, one_le_round ?_⟩
  rw [Dyadic.toRat_mul]
  exact one_le_mul_of_one_le_of_one_le room room

end TermBound

/-- A setting of at least one, or of no order with one, leaves room for one term. -/
theorem Config.roomy {c : Config} (room : c.maxExpansionTerms.below? 1 = some false) :
    ∃ limit, c.expansionBound = .ok limit ∧ ∀ l ∈ limit, l.Roomy := by
  have integer {n : Int} (room : ¬ n < 1) : (TermBound.exact n).Roomy :=
    TermBound.roomy_exact (by exact_mod_cast not_lt.mp room)
  have float {x : BigFloat} (room : x.order (.finite (1 : Int)) ≠ .lt) :
      (∃ y, x = .finite y ∧ (TermBound.ofFloat y).Roomy) ∨ x = .infinity false ∨ x = .nan := by
    rcases x with y | s | _
    · refine .inl ⟨y, rfl, TermBound.roomy_ofFloat ?_⟩
      by_contra below
      rw [not_le, ← Int.cast_one, ← Dyadic.toRat_intCast, Dyadic.toRat_lt_toRat_iff] at below
      exact room (if_pos below)
    · cases s with
      | true => exact absurd rfl room
      | false => exact .inr (.inl rfl)
    · exact .inr (.inr rfl)
  unfold expansionBound
  generalize c.maxExpansionTerms = l at room
  cases l with
  | none | text | list | complexDouble | complexFloat =>
    simp [Literal.below?, Literal.int?, Literal.float?] at room
  | bool b =>
    have room : ¬ (if b then 1 else 0 : Int) < 1 := by
      simpa [Literal.below?, Literal.int?] using room
    exact ⟨_, rfl, by simpa using integer room⟩
  | int n =>
    have room : ¬ n < 1 := by simpa [Literal.below?, Literal.int?] using room
    exact ⟨_, rfl, by simpa using integer room⟩
  | fraction q =>
    have room : ¬ q < 1 := by simpa [Literal.below?, Literal.int?] using room
    exact ⟨_, rfl, by simpa using TermBound.roomy_exact (not_lt.mp room)⟩
  | double x =>
    have room : x.toBigFloat.order (.finite (1 : Int)) ≠ .lt := by
      simpa [Literal.below?, Literal.int?, Literal.float?] using room
    simp only [Literal.float?, Literal.int?]
    rcases float room with ⟨y, same, roomy⟩ | same | same <;> rw [same]
    · exact ⟨_, rfl, by simpa using roomy⟩
    · exact ⟨_, rfl, by simp⟩
    · exact ⟨_, rfl, by simp⟩
  | float x =>
    have room : x.order (.finite (1 : Int)) ≠ .lt := by
      simpa [Literal.below?, Literal.int?, Literal.float?] using room
    simp only [Literal.float?, Literal.int?]
    rcases float room with ⟨y, rfl, roomy⟩ | rfl | rfl
    · exact ⟨_, rfl, by simpa using roomy⟩
    · exact ⟨_, rfl, by simp⟩
    · exact ⟨_, rfl, by simp⟩

namespace Polynomial

variable {p q : Polynomial} {limit : Limit}

theorem mul?_single (room : ∀ l ∈ limit, l.Roomy) (left : p.length ≤ 1) (right : q.length ≤ 1) :
    ∃ r, mul? limit p q = some r ∧ r.length ≤ 1 := by
  have pairs : p.length * q.length ≤ 1 := Nat.mul_le_mul left right
  have short : (collect (products p q)).length ≤ 1 := by
    refine (collect_length _).trans ?_
    rwa [products_length]
  refine ⟨_, ?_, short⟩
  unfold mul?
  cases limit with
  | none => rfl
  | some l =>
    obtain ⟨count, square⟩ := room l rfl
    have size : ((p.length * q.length : Nat) : ℚ) ≤ l.square := (Nat.cast_le_one.mpr pairs).trans square
    have terms : ((collect (products p q)).length : ℚ) ≤ l.count := (Nat.cast_le_one.mpr short).trans count
    rw [if_neg (by simpa using size)]
    exact if_neg (by simpa using terms)

theorem pow?_single (room : ∀ l ∈ limit, l.Roomy) (base : p.length ≤ 1) (n : Nat) :
    ∃ r, pow? limit p n = some r ∧ r.length ≤ 1 := by
  refine pow?_exists ?_ (mul?_single room) base n
  unfold constant
  split <;> simp

end Polynomial
end ComputerAlgebra

/-!
Expressions to polynomials and back. The polynomial of an expression and the expression written for it have
the value of the expression over all values of the atoms. Multiplying out what has been written goes by
products of single terms, which no bound of one term or more refuses, and gives the terms back, provided
that the atoms are found to be atoms again. An atom is taken after it has been evaluated, and that may read
the digits of the float unit, so the unit must have the digits of the settings or there must be no floats.
-/

namespace ComputerAlgebra

namespace Expr
section Values
variable {A : Type*} [CommRing A] [Algebra ℚ A] (α : Expr → A)

/-- The value of the sums, differences, products, quotients and powers that are multiplied out, over values
of the atoms. -/
def ringValue : Expr → A
  | .binary .sum a b => ringValue a + ringValue b
  | .binary .minus a b => ringValue a - ringValue b
  | .binary .mul a b => ringValue a * ringValue b
  | .binary .div a b =>
    match b.rational? with
    | some q => if q = 0 then α (.binary .div a b) else algebraMap ℚ A q⁻¹ * ringValue a
    | none => α (.binary .div a b)
  | .binary .pow a n =>
    match n.integer? with
    | some k => if k < 0 then α (.binary .pow a n) else ringValue a ^ k.toNat
    | none => α (.binary .pow a n)
  | e =>
    match e.rational? with
    | some q => algebraMap ℚ A q
    | none => α e

/-- The half of the square of `x + 1` where `x` is three. -/
example : ringValue (fun _ => (3 : ℚ)) (.binary .div (.binary .pow (.binary .sum (.var "x") 1) 2) 2) = 8 := by
  decide +kernel

variable {α}

theorem IsAtom.ringValue {e : Expr} (atom : e.IsAtom) : e.ringValue α = α e := by
  unfold IsAtom at atom
  split at atom
  · cases atom
  · cases atom
  · cases atom
  · next b =>
    rw [Expr.ringValue]
    split
    · next q divisor => rw [if_pos (atom q divisor)]
    · rfl
  · next n =>
    rw [Expr.ringValue]
    split
    · next k exponent => rw [if_pos (atom k exponent)]
    · rfl
  · next sum minus mul div pow =>
    rw [Expr.ringValue]
    · simp only [atom]
    · exact sum
    · exact minus
    · exact mul
    · exact div
    · exact pow

theorem ringValue_ofRat (q : Rat) : ringValue α (.num (.ofRat q)) = algebraMap ℚ A q := rfl

theorem ringValue_div {a : Expr} {q : Rat} (nonzero : q ≠ 0) :
    ringValue α (.binary .div a (.num (.ofRat q))) = algebraMap ℚ A q⁻¹ * ringValue α a := if_neg nonzero

theorem ringValue_pow {a : Expr} (n : Nat) :
    ringValue α (.binary .pow a (.num (.ofInt n))) = ringValue α a ^ n := by
  have exponent : (Expr.num (.ofInt n)).integer? = some (n : Int) := integer?_eq_some.mpr rfl
  rw [ringValue, exponent]
  exact if_neg (by omega)

theorem ringValue_reading : Reading (fun e x => ringValue α e = x) (ringValue α) where
  unique same := same
  ofRat {q x} := by rw [ringValue_ofRat, eq_comm]
  sum {a b v} := by
    change ringValue α a + ringValue α b = v ↔ _
    simp
  minus {a b v} := by
    change ringValue α a - ringValue α b = v ↔ _
    simp
  mul {a b v} := by
    change ringValue α a * ringValue α b = v ↔ _
    simp
  quotient regular value := ⟨_, rfl, by rw [← value, ringValue_div regular]⟩
  power := by simp [ringValue_pow]

end Values
end Expr

namespace Polynomial

section Values
variable {A : Type*} [CommRing A] [Algebra ℚ A] {p : Polynomial}

theorem multiplyOut_value (α : Expr → A) (c : Config) (e : Expr) :
    Answers (multiplyOut c e) fun p => p.eval α = e.ringValue α := by
  have value := multiplyOut_represents (Expr.ringValue_reading (α := α)) c e rfl
  refine (Returns.and value (multiplyOut_atoms c e)).mono fun r both p same => ?_
  rw [← (both.1 p same).2]
  exact eval_congr fun t inside f member => (both.2 p same t inside f member).ringValue.symm

theorem toExpr_ringValue (α : Expr → A) (u : FloatUnit) (atoms : p.Over Expr.IsAtom) :
    (p.toExpr u).ringValue α = p.eval α := by
  refine toExpr_value Expr.ringValue_reading u ⟨fun _ _ _ _ => rfl, ?_⟩
  exact eval_congr fun t inside f member => (atoms t inside f member).ringValue

end Values

section Again
variable {α β : Type} {I : FloatUnit → Prop} {c : Config}

/-- From every unit of `I` the computation answers with the property and leaves a unit of `I`. -/
def Reaches (I : FloatUnit → Prop) (m : OptionT Computation α) (P : α → Prop) : Prop :=
  ∀ u, I u → ∃ a w, m.run u = .ok (some a) w ∧ I w ∧ P a

namespace Reaches
variable {P : α → Prop} {Q : β → Prop} {m : OptionT Computation α}

theorem pure {a : α} (holds : P a) : Reaches I (pure a) P := fun u known => ⟨a, u, rfl, known, holds⟩

theorem bind {f : α → OptionT Computation β} (first : Reaches I m P) (next : ∀ a, P a → Reaches I (f a) Q) :
    Reaches I (m >>= f) Q := by
  intro u known
  obtain ⟨a, v, run, later, holds⟩ := first u known
  obtain ⟨b, w, run', last, holds'⟩ := next a holds v later
  refine ⟨b, w, ?_, last, holds'⟩
  exact (Computation.bind_ok run).trans run'

theorem mono {P' : α → Prop} (given : Reaches I m P) (weaker : ∀ a, P a → P' a) : Reaches I m P' := by
  intro u known
  obtain ⟨a, w, run, later, holds⟩ := given u known
  exact ⟨a, w, run, later, weaker a holds⟩

end Reaches

def Firm (c : Config) (I : FloatUnit → Prop) (a : Expr) : Prop := a.IsAtom ∧ Reaches I (ofAtom c a) (· = atom a)

def Single (p : Polynomial) : Prop := p.length ≤ 1

variable {limit : Limit} (bound : c.expansionBound = .ok limit) (room : ∀ l ∈ limit, l.Roomy)
include bound

theorem limited_single {f : Limit → Option Polynomial} (found : ∃ r, f limit = some r ∧ Single r) :
    Reaches I (OptionT.mk do return f (← c.expansionBound)) Single := by
  obtain ⟨r, same, single⟩ := found
  intro u known
  refine ⟨r, u, ?_, known, single⟩
  rw [bound, ← same]
  rfl

include room

theorem multiplyOut_mul_single {a b : Expr} (left : Reaches I (multiplyOut c a) Single)
    (right : Reaches I (multiplyOut c b) Single) :
    Reaches I (multiplyOut c (.binary .mul a b)) Single := by
  rw [multiplyOut]
  refine left.bind fun p first => right.bind fun q second => ?_
  exact limited_single bound (mul?_single room first second)

theorem factorExpr_single {a : Expr} (firm : Firm c I a) {n : Nat} (positive : 0 < n) :
    Reaches I (multiplyOut c (factorExpr a n)) Single := by
  have base : Reaches I (multiplyOut c a) Single := by
    rw [multiplyOut_atom firm.1]
    refine firm.2.mono ?_
    rintro _ rfl
    exact le_refl 1
  unfold factorExpr
  split
  · exact base
  · rw [multiplyOut_pow]
    refine base.bind fun p single => ?_
    rw [if_neg positive.ne']
    exact limited_single bound (pow?_single room single n)

omit bound room in
theorem ratExpr_single (k : Rat) : Reaches I (multiplyOut c (ratExpr k)) Single := by
  refine Reaches.pure (a := constant k) ?_
  unfold Single Polynomial.constant
  split <;> simp

private theorem foldl_factors_single (factors : List KeyedFactor) : ∀ {e : Expr},
    Reaches I (multiplyOut c e) Single → (∀ f ∈ factors, Firm c I f.atom ∧ 0 < f.power) →
    Reaches I (multiplyOut c (factors.foldl (fun e g => .binary .mul e (factorExpr g.atom g.power)) e))
      Single := by
  induction factors with
  | nil => exact fun first _ => first
  | cons f factors ih =>
    intro e first all
    rw [List.forall_mem_cons] at all
    exact ih (multiplyOut_mul_single bound room first (factorExpr_single bound room all.1.1 all.1.2)) all.2

/-- What is written for a term is multiplied out to a term. -/
theorem termExpr_single {t : KeyedTerm} (all : ∀ f ∈ t.factors, Firm c I f.atom ∧ 0 < f.power) (k : Rat) :
    Reaches I (multiplyOut c (termExpr k t.product?)) Single := by
  obtain ⟨factors, q⟩ := t
  cases factors with
  | nil => exact ratExpr_single k
  | cons f factors =>
    rw [List.forall_mem_cons] at all
    have product := foldl_factors_single bound room factors
      (factorExpr_single bound room all.1.1 all.1.2) all.2
    simp only [KeyedTerm.product?, termExpr]
    split
    · exact product
    · exact multiplyOut_mul_single bound room (ratExpr_single k) product

private theorem foldl_terms_reach (terms : List KeyedTerm) : ∀ {sum : Expr},
    Reaches I (multiplyOut c sum) (fun _ => True) →
    (∀ t ∈ terms, ∀ f ∈ t.factors, Firm c I f.atom ∧ 0 < f.power) →
    Reaches I (multiplyOut c (terms.foldl appendTerm sum)) fun _ => True := by
  induction terms with
  | nil => exact fun first _ => first
  | cons t terms ih =>
    intro sum first all
    rw [List.forall_mem_cons] at all
    refine ih ?_ all.2
    have piece := termExpr_single bound room all.1 t.coefficient.abs
    unfold appendTerm
    split
    · rw [multiplyOut]
      exact first.bind fun _ _ => piece.bind fun _ _ => .pure trivial
    · rw [multiplyOut]
      exact piece.bind fun _ _ => first.bind fun _ _ => .pure trivial

/-- The expression written for a polynomial over firm atoms has a polynomial. -/
theorem toExpr_reaches {p : Polynomial} (reduced : p.Reduced) (firm : p.Over (Firm c I)) (v : FloatUnit) :
    Reaches I (multiplyOut c (p.toExpr v)) fun _ => True := by
  have all : ∀ t ∈ keyedTerms v p, ∀ f ∈ t.factors, Firm c I f.atom ∧ 0 < f.power := by
    intro t member f inside
    obtain ⟨s, source, rfl⟩ := List.mem_map.mp (List.mem_mergeSort.mp member)
    simp only [KeyedTerm.ofTerm, List.mem_mergeSort, List.mem_map] at inside
    obtain ⟨g, within, rfl⟩ := inside
    exact ⟨firm s source g within, (reduced.monomials s source).positive g within⟩
  unfold toExpr
  generalize keyedTerms v p = terms at all
  cases terms with
  | nil => exact (ratExpr_single 0).mono fun _ _ => trivial
  | cons t terms =>
    rw [List.forall_mem_cons] at all
    have first := termExpr_single bound room all.1 t.coefficient
    exact foldl_terms_reach bound room terms (first.mono fun _ _ => trivial) all.2

end Again

section Firmness
variable {c : Config} {e : Expr}

/-- From the digits of the settings an atom is found to be one whenever it is found once. -/
theorem settled_firm (atom : e.IsAtom) :
    (Judgment.settled c).Answers (ofAtom c e) (Over (Firm c (· = .ofConfig c))) := by
  have steady : (Judgment.settled c).Answers (ofAtom c e) (Over fun _ => True) :=
    Expr.Compositional.ofAtom (Q := fun _ => True) ((Expr.settled_scoping c).asks (i := ())) trivial trivial
  change Works c (.ofConfig c) (ofAtom c e).run _ at steady ⊢
  unfold Works at steady ⊢
  cases run : (ofAtom c e).run (.ofConfig c) with
  | error f w =>
    rw [run] at steady
    exact steady
  | ok r w =>
    rw [run] at steady
    refine ⟨steady.1, fun p same => ?_⟩
    have settled := steady.1.settled rfl
    obtain rfl := ofAtom_atom c e _ r w run p same
    refine over_atom ⟨atom, ?_⟩
    rintro _ rfl
    exact ⟨_, w, by rw [run, same], settled, rfl⟩

/-- Without floats an atom is found to be one from any digits, when it is from some. -/
theorem floatFree_firm (atom : e.IsAtom) (free : e.FloatFree) :
    Answers (ofAtom c e) (Over (Firm c fun _ => True)) := by
  have uniform : Judgment.uniform.Answers (ofAtom c e) (Over Expr.FloatFree) :=
    Expr.Compositional.ofAtom ((Expr.floatFree_scoping c).asks (i := ())) free free
  intro u r w run p same
  obtain rfl := ofAtom_atom c e u r w run p same
  refine over_atom ⟨atom, fun v _ => ?_⟩
  rw [same] at run
  obtain ⟨a, w', run', rfl⟩ := Uniform.succeeds uniform run v
  exact ⟨_, w', run', trivial, rfl⟩

/-- The atoms of a polynomial are firm, if the unit keeps the digits of the settings or if there are no
floats. -/
theorem firm_atoms {p : Polynomial} {u v w : FloatUnit} (found : (multiplyOut c e).run u = .ok (some p) w)
    (unit : u = .ofConfig c ∧ v = .ofConfig c ∨ e.hasInexact = false) : ∃ I, I v ∧ p.Over (Firm c I) := by
  rcases unit with ⟨rfl, rfl⟩ | free
  · refine ⟨(· = .ofConfig c), rfl, ?_⟩
    have firm : (Judgment.settled c).Answers (multiplyOut c e) (Over (Firm c (· = .ofConfig c))) :=
      multiplyOut_structural (Q := fun _ => True) over_structural (Judgment.settled_lenient c).checked
        (fun _ => ⟨trivial, trivial⟩) (fun _ atom _ => settled_firm atom) e trivial
    exact (Works.result firm found).2 p rfl
  · refine ⟨fun _ => True, trivial, ?_⟩
    have firm : Answers (multiplyOut c e) (Over (Firm c fun _ => True)) :=
      multiplyOut_structural (J := .returns) over_structural Returns.trivial
        (Expr.floatFree_compositional c).binary.mp (fun _ atom free => floatFree_firm atom free) e free
    exact firm u _ w found p rfl

end Firmness

theorem ofExpr?_ok {c : Config} {e : Expr} {u w : FloatUnit} {r : Option Polynomial} :
    ofExpr? c e u = .ok r w ↔ e.checkDepth c = .ok () ∧ (multiplyOut c e).run u = .ok r w := by
  unfold ofExpr?
  cases e.checkDepth c with
  | ok => exact ⟨fun found => ⟨rfl, found⟩, fun found => found.2⟩
  | error f => exact ⟨nofun, nofun⟩

/-- What is known once an expression has been converted to a polynomial. The polynomial and the expression
written for it have the value of the expression, whatever its atoms stand for. No coefficient is zero, and
all exponents are positive. If there is room for one term and the written expression is not too deep, it is
converted to the same terms, provided that the unit keeps the digits of the settings or that there are no
floats. -/
theorem conversion_exact {A : Type*} [CommRing A] [Algebra ℚ A] (α : Expr → A) {c : Config} {e : Expr}
    {p : Polynomial} {u w : FloatUnit} (found : ofExpr? c e u = .ok (some p) w) :
    p.eval α = e.ringValue α ∧ (∀ v, (p.toExpr v).ringValue α = e.ringValue α) ∧
      (p.map Prod.fst).Nodup ∧ (∀ t ∈ p, t.2 ≠ 0 ∧ ∀ f ∈ t.1, 0 < f.2) ∧
      ∀ v, (u = .ofConfig c ∧ v = .ofConfig c ∨ e.hasInexact = false) →
        c.maxExpansionTerms.below? 1 = some false → (p.toExpr v).checkDepth c = .ok () →
        ∃ q w', ofExpr? c (p.toExpr v) v = .ok (some q) w' ∧ q.Perm p := by
  obtain ⟨-, multiplied⟩ := ofExpr?_ok.mp found
  have atoms : p.Over Expr.IsAtom := multiplyOut_atoms c e _ _ _ multiplied p rfl
  have reduced : p.Reduced := multiplyOut_reduced c e _ _ _ multiplied p rfl
  have value {B : Type _} [CommRing B] [Algebra ℚ B] (β : Expr → B) : p.eval β = e.ringValue β :=
    multiplyOut_value β c e _ _ _ multiplied p rfl
  refine ⟨value α, fun v => (toExpr_ringValue α v atoms).trans (value α), reduced.distinct, fun t member =>
    ⟨reduced.nonzero t member, (reduced.monomials t member).positive⟩, fun v unit room shallow => ?_⟩
  obtain ⟨limit, bound, room⟩ := Config.roomy room
  obtain ⟨I, inside, firm⟩ := firm_atoms multiplied unit
  obtain ⟨q, w', again, -, -⟩ := toExpr_reaches bound room reduced firm v v inside
  refine ⟨q, w', ofExpr?_ok.mpr ⟨shallow, again⟩, ?_⟩
  refine (multiplyOut_reduced c _ _ _ _ again q rfl).perm_of_eval reduced ?_
  rw [multiplyOut_value _ c _ _ _ _ again q rfl, toExpr_ringValue _ v atoms]

/-- A half of a variable is written as a product. -/
theorem conversion_exact_half :
    ∃ (e r : Expr) (p : Polynomial), e = .binary .div (.var "x") 2 ∧
      r = .binary .mul (.num (.ofRat (1 / 2))) (.var "x") ∧ p = [([(.var "x", 1)], 1 / 2)] ∧
      ofExpr? .default e ⟨30⟩ = .ok (some p) ⟨30⟩ ∧ p.toExpr ⟨30⟩ = r ∧
      p.eval (fun _ => (5 : ℚ)) = e.ringValue (fun _ => 5) ∧
      ∃ q w, ofExpr? .default r ⟨30⟩ = .ok (some q) w ∧ q.Perm p := by
  have found : ofExpr? .default (.binary .div (.var "x") 2) ⟨30⟩
      = .ok (some [([(.var "x", 1)], 1 / 2)]) ⟨30⟩ := by decide +kernel
  have written : toExpr ⟨30⟩ [([(.var "x", 1)], 1 / 2)]
      = .binary .mul (.num (.ofRat (1 / 2))) (.var "x") := by
    have terms : keyedTerms ⟨30⟩ [([(.var "x", 1)], 1 / 2)]
        = [KeyedTerm.ofTerm ⟨30⟩ [(.var "x", 1)] (1 / 2)] := by simp [keyedTerms]
    rw [toExpr, terms]
    simp [KeyedTerm.product?, termExpr, factorExpr, KeyedTerm.ofTerm, ratExpr]
  obtain ⟨value, -, -, -, again⟩ := conversion_exact (fun _ => (5 : ℚ)) found
  refine ⟨_, _, _, rfl, rfl, rfl, found, written, value, ?_⟩
  rw [← written]
  refine again ⟨30⟩ (.inr (by decide +kernel)) (by decide +kernel) ?_
  rw [written]
  decide +kernel

/-- The reciprocal of the difference of a float and itself. With fewer digits than the float has, the
opposite of the float is rounded and the difference is not zero; then the reciprocal is taken for an atom.
With the digits of the settings it is infinite, and what has been written has no polynomial. -/
theorem stale_digits_lose_atom :
    ∃ (r e : Expr) (p : Polynomial),
      r = .num (.real (.float (.ofIntWithPrec 114734634956362014553563009489835 40))) ∧
        e = .binary .div 1 (.binary .minus r r) ∧
        ofExpr? .default e ⟨15⟩ = .ok (some p) (.ofConfig .default) ∧
        Config.default.maxExpansionTerms.below? 1 = some false ∧
        (p.toExpr (.ofConfig .default)).checkDepth .default = .ok () ∧
        ofExpr? .default (p.toExpr (.ofConfig .default)) (.ofConfig .default)
          = .ok none (.ofConfig .default) := by
  let r : Expr := .num (.real (.float (.ofIntWithPrec 114734634956362014553563009489835 40)))
  let e : Expr := .binary .div 1 (.binary .minus r r)
  refine ⟨r, e, atom e, rfl, rfl, by decide +kernel, by decide +kernel, ?_, ?_⟩
  · rw [toExpr_atom]
    decide +kernel
  · rw [toExpr_atom]
    decide +kernel

end Polynomial
end ComputerAlgebra

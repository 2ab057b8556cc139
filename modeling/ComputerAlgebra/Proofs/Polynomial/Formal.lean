import ComputerAlgebra.Proofs.Polynomial.Reading
import Mathlib.Algebra.MvPolynomial.Eval

/-!
Polynomial expressions: sums, differences, products, quotients by a fraction and whole powers over
fractions and variables. Each stands for a formal polynomial, which gives its values. Multiplying one
out takes no floats and asks for nothing but the bound on terms.
-/

namespace ComputerAlgebra

open MvPolynomial (C X)

namespace Expr

/-- Sums, differences, products, quotients by a fraction other than zero and powers with a natural
exponent, over fractions and variables. -/
inductive IsPolynomial : Expr → Prop
  | num (q : Rat) : IsPolynomial (.num (.ofRat q))
  | var {x : String} (plain : isConstantName x = false) : IsPolynomial (.var x)
  | sum {a b : Expr} (left : IsPolynomial a) (right : IsPolynomial b) :
    IsPolynomial (.binary .sum a b)
  | minus {a b : Expr} (left : IsPolynomial a) (right : IsPolynomial b) :
    IsPolynomial (.binary .minus a b)
  | mul {a b : Expr} (left : IsPolynomial a) (right : IsPolynomial b) :
    IsPolynomial (.binary .mul a b)
  | div {a : Expr} (dividend : IsPolynomial a) {q : Rat} (nonzero : q ≠ 0) :
    IsPolynomial (.binary .div a (.num (.ofRat q)))
  | pow {a : Expr} (base : IsPolynomial a) (n : Nat) :
    IsPolynomial (.binary .pow a (.num (.ofInt n)))

noncomputable def formal : Expr → MvPolynomial String Rat
  | .num z => C (z.rational?.getD 0)
  | .var x => X x
  | .binary .sum a b => formal a + formal b
  | .binary .minus a b => formal a - formal b
  | .binary .mul a b => formal a * formal b
  | .binary .div a b => C (b.rational?.getD 1)⁻¹ * formal a
  | .binary .pow a n => formal a ^ (n.integer?.getD 0).toNat
  | _ => 0

variable {a b e : Expr} {q : Rat}

theorem formal_num : formal (.num (.ofRat q)) = C q := rfl

theorem formal_div : formal (.binary .div a (.num (.ofRat q))) = C q⁻¹ * formal a := rfl

theorem formal_pow (n : Nat) : formal (.binary .pow a (.num (.ofInt n))) = formal a ^ n := by
  have whole : (Expr.num (.ofInt n)).integer? = some (n : Int) := integer?_eq_some.mpr rfl
  rw [formal, whole]
  rfl

theorem IsPolynomial.rational (polynomial : IsPolynomial e) : IsRational e := by
  induction polynomial with
  | num q => exact .num q
  | var plain => exact .var plain
  | sum _ _ iha ihb => exact .sum iha ihb
  | minus _ _ iha ihb => exact .minus iha ihb
  | mul _ _ iha ihb => exact .mul iha ihb
  | div _ _ ih => exact .div ih (.num _)
  | pow _ n ih => exact .pow ih n

/-- The formal polynomial is a reading of the polynomial expressions. -/
theorem formal_reading : Reading (fun e v => IsPolynomial e ∧ formal e = v) formal where
  unique known := known.2
  ofRat := by
    intro q v
    exact ⟨fun known => known.2.symm, fun same => ⟨.num q, same.symm⟩⟩
  sum := by
    intro a b v
    constructor
    · rintro ⟨_ | _ | ⟨left, right⟩, rfl⟩
      exact ⟨_, ⟨left, rfl⟩, _, ⟨right, rfl⟩, rfl⟩
    · rintro ⟨_, ⟨left, rfl⟩, _, ⟨right, rfl⟩, rfl⟩
      exact ⟨.sum left right, rfl⟩
  minus := by
    intro a b v
    constructor
    · rintro ⟨_ | _ | _ | ⟨left, right⟩, rfl⟩
      exact ⟨_, ⟨left, rfl⟩, _, ⟨right, rfl⟩, rfl⟩
    · rintro ⟨_, ⟨left, rfl⟩, _, ⟨right, rfl⟩, rfl⟩
      exact ⟨.minus left right, rfl⟩
  mul := by
    intro a b v
    constructor
    · rintro ⟨_ | _ | _ | _ | ⟨left, right⟩, rfl⟩
      exact ⟨_, ⟨left, rfl⟩, _, ⟨right, rfl⟩, rfl⟩
    · rintro ⟨_, ⟨left, rfl⟩, _, ⟨right, rfl⟩, rfl⟩
      exact ⟨.mul left right, rfl⟩
  quotient := by
    rintro a q v - ⟨whole, rfl⟩
    cases whole with
    | div dividend _ => exact ⟨_, ⟨dividend, rfl⟩, rfl⟩
  power := by
    intro a v n
    rw [formal_pow]
    constructor
    · rintro ⟨whole, rfl⟩
      generalize exponent : Expr.num (.ofInt n) = m at whole
      cases whole with
      | pow base _ => exact ⟨_, ⟨base, rfl⟩, rfl⟩
    · rintro ⟨_, ⟨base, rfl⟩, rfl⟩
      exact ⟨.pow base n, rfl⟩

/-- Where all variables have fractions, a polynomial expression has the value of its formal
polynomial. -/
theorem valueAt?_formal (polynomial : IsPolynomial e) {ρ : Assignment}
    (covered : ∀ x ∈ e.names, (ρ x).isSome = true) :
    valueAt? ρ e = some (MvPolynomial.eval (fun x => (ρ x).getD 0) (formal e)) := by
  have parts {op : BinaryOp} {a b part : Expr} (member : part ∈ [a, b])
      (all : ∀ x ∈ (Expr.binary op a b).names, (ρ x).isSome = true) :
      ∀ x ∈ part.names, (ρ x).isSome = true :=
    fun x named => all x (names_child member named)
  induction polynomial with
  | num q => simp [formal_num]
  | @var x plain =>
    obtain ⟨q, given⟩ := Option.isSome_iff_exists.mp (covered x (by simp))
    rw [valueAt?_var]
    simp [plain, given, formal]
  | sum _ _ iha ihb =>
    refine valueAt?_sum.mpr ⟨_, iha (parts (by simp) covered), _, ihb (parts (by simp) covered), ?_⟩
    rw [formal, map_add]
  | minus _ _ iha ihb =>
    refine valueAt?_minus.mpr ⟨_, iha (parts (by simp) covered), _, ihb (parts (by simp) covered), ?_⟩
    rw [formal, map_sub]
  | mul _ _ iha ihb =>
    refine valueAt?_mul.mpr ⟨_, iha (parts (by simp) covered), _, ihb (parts (by simp) covered), ?_⟩
    rw [formal, map_mul]
  | @div a _ q nonzero ih =>
    refine valueAt?_div.mpr ⟨_, ih (parts (by simp) covered), q, by simp, nonzero, ?_⟩
    rw [formal_div, map_mul, MvPolynomial.eval_C, div_eq_inv_mul]
  | @pow a _ n ih =>
    refine valueAt?_pow.mpr ⟨n, rfl, _, ih (parts (by simp) covered), by omega, ?_⟩
    rw [formal_pow, map_pow, zpow_natCast]

end Expr

namespace Polynomial

variable {β γ : Type} {c : Config} {e : Expr}

/-- A computation without floats: its outcome does not depend on the digits of the float unit, which it
leaves as they are. It is refused only for a bound on terms that is no number. -/
def Floatless (c : Config) (m : OptionT Computation β) : Prop :=
  ∃ outcome : Except Fault (Option β), m.run = liftM outcome ∧
    ∀ f, outcome = .error f → c.expansionBound = .error f

namespace Floatless

theorem pure (b : β) : Floatless c (pure b : OptionT Computation β) := ⟨.ok (some b), rfl, nofun⟩

theorem bind {m : OptionT Computation β} {f : β → OptionT Computation γ} (first : Floatless c m)
    (next : ∀ b, Floatless c (f b)) : Floatless c (m >>= f) := by
  obtain ⟨outcome, run, refused⟩ := first
  cases outcome with
  | error fault =>
    exact ⟨.error fault, by rw [OptionT.run_bind, run]; rfl, fun f same => refused f (by cases same; rfl)⟩
  | ok answer =>
    cases answer with
    | none => exact ⟨.ok none, by rw [OptionT.run_bind, run]; rfl, nofun⟩
    | some b =>
      obtain ⟨outcome, run', refused'⟩ := next b
      refine ⟨outcome, ?_, refused'⟩
      rw [OptionT.run_bind, run, ← run']
      exact pure_bind (some b) _

theorem bounded (f : Limit → Option β) :
    Floatless c (OptionT.mk do return f (← c.expansionBound)) := by
  cases bound : c.expansionBound with
  | error fault =>
    refine ⟨.error fault, rfl, fun f same => ?_⟩
    cases same
    exact bound
  | ok limit => exact ⟨.ok (f limit), rfl, nofun⟩

/-- Whatever the digits of the float unit, the outcome is the same. -/
theorem steady {m : OptionT Computation β} (floatless : Floatless c m) {u w : FloatUnit}
    {answer : Option β} (returned : m.run u = .ok answer w) (u' : FloatUnit) :
    m.run u' = .ok answer u' := by
  obtain ⟨outcome, run, -⟩ := floatless
  rw [run] at returned ⊢
  cases outcome with
  | error f => cases returned
  | ok found =>
    cases returned
    rfl

end Floatless

theorem multiplyOut_var (c : Config) {x : String} (plain : Expr.isConstantName x = false) :
    multiplyOut c (.var x) = pure (atom (.var x)) := by
  have evaluated : Expr.evaluate c (.var x) = pure (.var x) := by
    change Expr.evaluateNode c (Expr.evaluateWithin c 999) (.var x) [] = _
    simp [Expr.evaluateNode, plain]
  have atomic : multiplyOut c (.var x) = ofAtom c (.var x) := by
    simp only [multiplyOut, Expr.rational?]
  rw [atomic]
  unfold ofAtom
  dsimp only
  rw [evaluated]
  rfl

/-- Multiplying out a polynomial expression takes no floats. -/
theorem multiplyOut_floatless (c : Config) (polynomial : e.IsPolynomial) :
    Floatless c (multiplyOut c e) := by
  induction polynomial with
  | num q => exact .pure (constant q)
  | @var x plain =>
    rw [multiplyOut_var c plain]
    exact .pure _
  | sum _ _ iha ihb => exact iha.bind fun p => ihb.bind fun q => .pure (add p q)
  | minus _ _ iha ihb => exact ihb.bind fun q => iha.bind fun p => .pure (add p (scale (-1) q))
  | mul _ _ iha ihb =>
    exact iha.bind fun p => ihb.bind fun q => .bounded fun limit => mul? limit p q
  | @div a _ q nonzero ih =>
    rw [multiplyOut_div c a nonzero]
    exact ih.bind fun p => .pure (scale q⁻¹ p)
  | @pow a _ n ih =>
    rw [multiplyOut_pow]
    refine ih.bind fun p => ?_
    split
    · exact .pure (constant 1)
    · exact .bounded fun limit => pow? limit p n

end Polynomial
end ComputerAlgebra

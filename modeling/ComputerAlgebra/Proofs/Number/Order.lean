import ComputerAlgebra.Proofs.BigFloat.Error
import ComputerAlgebra.Proofs.Number.Recognition
import ComputerAlgebra.Proofs.Statement.Decision
import Mathlib.Data.EReal.Basic

/-!
The order of real numbers and their values. Fractions are ordered by their values and so are floats; an
infinity is beyond all of them. A fraction beside a float is rounded first, so the order of the two is
that of their values unless they differ by no more than the rounding may.
-/

namespace ComputerAlgebra

open BigFloat (Short ofRat ofRat_error ofRat_short)
open Fraction (order_lt order_gt)

def Comparison.Relates (test : Comparison) (x y : EReal) : Prop :=
  match test with
  | .less => x < y
  | .lessOrEqual => x ≤ y
  | .greater => y < x
  | .greaterOrEqual => y ≤ x

noncomputable def extended (q : ℚ) : EReal := ((q : ℝ) : EReal)

@[simp] theorem extended_lt {p q : ℚ} : extended p < extended q ↔ p < q := by
  rw [extended, extended, EReal.coe_lt_coe_iff, Rat.cast_lt]

@[simp] theorem extended_lt_top (q : ℚ) : extended q < ⊤ := EReal.coe_lt_top _

@[simp] theorem bot_lt_extended (q : ℚ) : ⊥ < extended q := EReal.bot_lt_coe _

namespace RealNumber
variable {c : Config} {a b d : RealNumber} {test : Comparison}

/-- The value of a real number; that of NaN is of no meaning. -/
noncomputable def value : RealNumber → EReal
  | .rational q => extended q
  | .float x => extended x.toRat
  | .infinity negative => if negative then ⊥ else ⊤
  | .nan => 0

/-- What a number stands for beside another one: a fraction beside a float is rounded to the working
precision, everything else is itself. -/
noncomputable def beside (c : Config) : RealNumber → RealNumber → EReal
  | .rational q, .float _ => extended (ofRat c.bits q).toRat
  | a, _ => a.value

/-- Rounding a fraction cannot change its order beside a float: it is a float of the working precision, or
differs from the float by more than three parts in two to the count of bits. -/
def Distinct (c : Config) (q : ℚ) (x : Dyadic) : Prop :=
  (∃ y, Short c.bits y ∧ y.toRat = q) ∨ 3 * |q| < |q - x.toRat| * 2 ^ c.bits

/-- The order of two numbers does not depend on any rounding. -/
def Resolved (c : Config) : RealNumber → RealNumber → Prop
  | .rational q, .float x | .float x, .rational q => Distinct c q x
  | _, _ => True

theorem accepts_iff {o : Ordering} {x y : EReal} (less : o = .lt ↔ x < y) (greater : o = .gt ↔ y < x) :
    test.accepts o = true ↔ test.Relates x y := by
  cases test with
  | less => simp [Comparison.accepts, Comparison.Relates, less]
  | lessOrEqual => simp [Comparison.accepts, Comparison.Relates, greater]
  | greater => simp [Comparison.accepts, Comparison.Relates, greater]
  | greaterOrEqual => simp [Comparison.accepts, Comparison.Relates, less]

/-- The order of two numbers is that of what they stand for. -/
theorem order_beside (left : a.isNaN = false) (right : b.isNaN = false) :
    (order c a b = .lt ↔ a.beside c b < b.beside c a) ∧ (order c a b = .gt ↔ b.beside c a < a.beside c b) := by
  cases a with
  | rational p =>
    cases b with
    | rational q =>
      simp only [order, beside, value, extended_lt]
      split
      · next below => simp [below, below.le]
      · next apart => split <;> simp_all
    | float y => simp [order, toFloat, beside, value, order_lt, order_gt]
    | infinity s => cases s <;> simp [order, toFloat, BigFloat.order, beside, value]
    | nan => cases right
  | float x =>
    cases b with
    | rational q => simp [order, toFloat, beside, value, order_lt, order_gt]
    | float y => simp [order, toFloat, beside, value, order_lt, order_gt]
    | infinity s => cases s <;> simp [order, toFloat, BigFloat.order, beside, value]
    | nan => cases right
  | infinity s =>
    cases b with
    | rational q => cases s <;> simp [order, toFloat, BigFloat.order, beside, value]
    | float y => cases s <;> simp [order, toFloat, BigFloat.order, beside, value]
    | infinity t => cases s <;> cases t <;> simp [order, toFloat, BigFloat.order, beside, value]
    | nan => cases right
  | nan => cases left

theorem Distinct.order {q : ℚ} {x : Dyadic} (distinct : Distinct c q x) :
    ((ofRat c.bits q).toRat < x.toRat ↔ q < x.toRat) ∧ (x.toRat < (ofRat c.bits q).toRat ↔ x.toRat < q) := by
  rcases distinct with ⟨y, short, rfl⟩ | apart
  · rw [ofRat_short c.bits_pos short]
    exact ⟨Iff.rfl, Iff.rfl⟩
  · have error := @ofRat_error c.bits q
    rw [← div_lt_iff₀ (by positivity)] at apart
    obtain ⟨below, above⟩ := abs_lt.mp (error.trans_lt apart)
    rcases abs_cases (q - x.toRat) with ⟨size, _⟩ | ⟨size, _⟩ <;> rw [size] at below above
    · exact ⟨⟨fun _ => by linarith, fun _ => by linarith⟩, ⟨fun _ => by linarith, fun _ => by linarith⟩⟩
    · exact ⟨⟨fun _ => by linarith, fun _ => by linarith⟩, ⟨fun _ => by linarith, fun _ => by linarith⟩⟩

theorem Resolved.order (resolved : Resolved c a b) :
    (a.beside c b < b.beside c a ↔ a.value < b.value) ∧ (b.beside c a < a.beside c b ↔ b.value < a.value) := by
  cases a with
  | rational p =>
    cases b with
    | float y =>
      have distinct : Distinct c p y := resolved
      simp only [beside, value, extended_lt]
      exact distinct.order
    | rational | infinity | nan => exact ⟨Iff.rfl, Iff.rfl⟩
  | float x =>
    cases b with
    | rational q =>
      have distinct : Distinct c q x := resolved
      simp only [beside, value, extended_lt]
      exact distinct.order.symm
    | float | infinity | nan => exact ⟨Iff.rfl, Iff.rfl⟩
  | infinity | nan => cases b <;> exact ⟨Iff.rfl, Iff.rfl⟩

theorem relates_congr {x y x' y' : EReal} (less : x < y ↔ x' < y') (greater : y < x ↔ y' < x') :
    test.Relates x y ↔ test.Relates x' y' := by
  cases test with
  | less => exact less
  | lessOrEqual => exact not_lt.symm.trans ((not_congr greater).trans not_lt)
  | greater => exact greater
  | greaterOrEqual => exact not_lt.symm.trans ((not_congr less).trans not_lt)

/-- Two numbers that can be compared: neither is NaN, and both are fractions unless the settings are such
that floats can be used. -/
structure Ordered (c : Config) (a b : RealNumber) : Prop where
  left : a.isNaN = false
  right : b.isNaN = false
  readable : c.precisionFault? = none ∨ ∃ p q, a = .rational p ∧ b = .rational q

theorem Ordered.swap (ordered : Ordered c a b) : Ordered c b a :=
  ⟨ordered.right, ordered.left,
    ordered.readable.imp_right fun ⟨p, q, first, second⟩ => ⟨q, p, second, first⟩⟩

theorem Ordered.holds (ordered : Ordered c a b) :
    Succeeds (holds c test a b) (· = test.accepts (order c a b)) := by
  unfold RealNumber.holds
  rw [ordered.left, ordered.right]
  split
  · next undefined => cases undefined
  split
  · next inexact =>
    have precise : c.precisionFault? = none := by
      refine ordered.readable.resolve_right ?_
      rintro ⟨p, q, rfl, rfl⟩
      cases inexact
    exact Succeeds.bind (Succeeds.settle precise) fun _ _ => Succeeds.pure rfl
  · exact Succeeds.pure rfl

end RealNumber

open RealNumber (Ordered Resolved)

/-- The comparison of two real numbers answers `v`, from whatever digits the float unit starts, and so does
the statement that compares them when it is evaluated. -/
def Comparison.Decides (c : Config) (test : Comparison) (a b : RealNumber) (v : Bool) : Prop :=
  Succeeds (Number.compare c test (.real a) (.real b)) (· = v) ∧
    Succeeds (Expr.evaluate c (.binary (.order test) (.num (.real a)) (.num (.real b)))) (· = .bool v)

namespace Comparison
variable {c : Config} {test : Comparison} {a b d : RealNumber} {v w : Bool}

theorem Decides.unique (first : Decides c test a b v) (second : Decides c test a b w) : v = w := by
  obtain ⟨_, _, answer, rfl⟩ := first.1 ⟨15⟩
  obtain ⟨_, _, answer', rfl⟩ := second.1 ⟨15⟩
  rw [answer] at answer'
  cases answer'
  rfl

theorem decides (ordered : Ordered c a b) : Decides c test a b (test.accepts (a.order c b)) :=
  ⟨ordered.holds, (Expr.Stated.order (.num ordered.left) (.num ordered.right) ordered.holds).evaluate⟩

theorem Decides.of_order {o : Ordering} (ordered : Ordered c a b) (same : a.order c b = o) :
    Decides c test a b (test.accepts o) :=
  same ▸ decides ordered

theorem accepts_beside (ordered : Ordered c a b) :
    test.accepts (a.order c b) = true ↔ test.Relates (a.beside c b) (b.beside c a) :=
  have beside := RealNumber.order_beside ordered.left ordered.right
  RealNumber.accepts_iff beside.1 beside.2

theorem decides_true (ordered : Ordered c a b) :
    Decides c test a b true ↔ test.Relates (a.beside c b) (b.beside c a) := by
  rw [← accepts_beside ordered]
  exact ⟨fun decided => (decides ordered).unique decided, fun accepted => accepted ▸ decides ordered⟩

theorem Relates.trans {x y z : EReal} (first : test.Relates x y) (second : test.Relates y z) :
    test.Relates x z := by
  cases test with
  | less => exact lt_trans first second
  | lessOrEqual => exact le_trans first second
  | greater => exact lt_trans second first
  | greaterOrEqual => exact le_trans second first

end Comparison

open Comparison (Decides)

/-- Every comparison of two real numbers holds exactly when it holds between what they stand for beside each
other: the exact values, but for a fraction beside a float, which is rounded to the working precision. It
holds exactly when it holds between the exact values where no rounding can matter, so there the order is
transitive; and it is total everywhere. -/
theorem RealNumber.order_follows_values (c : Config) :
    (∀ test a b, Ordered c a b → ∃ v, Decides c test a b v ∧
      (v = true ↔ test.Relates (a.beside c b) (b.beside c a)) ∧
      (Resolved c a b → (v = true ↔ test.Relates a.value b.value))) ∧
    (∀ a b, Ordered c a b → Decides c .lessOrEqual a b true ∨ Decides c .lessOrEqual b a true) ∧
    ∀ test a b d, Ordered c a b → Ordered c b d → Ordered c a d →
      Resolved c a b → Resolved c b d → Resolved c a d →
      Decides c test a b true → Decides c test b d true → Decides c test a d true := by
  have exact_values {test a b} (ordered : Ordered c a b) (resolved : Resolved c a b) :
      Decides c test a b true ↔ test.Relates a.value b.value :=
    (Comparison.decides_true ordered).trans (RealNumber.relates_congr resolved.order.1 resolved.order.2)
  refine ⟨fun test a b ordered => ?_, fun a b ordered => ?_, ?_⟩
  · have beside := @Comparison.accepts_beside c test a b ordered
    refine ⟨_, Comparison.decides ordered, beside, fun resolved => beside.trans ?_⟩
    exact RealNumber.relates_congr resolved.order.1 resolved.order.2
  · rw [Comparison.decides_true ordered, Comparison.decides_true ordered.swap]
    exact le_total _ _
  · intro test a b d ordered ordered' ordered'' resolved resolved' resolved'' first second
    rw [exact_values ordered resolved] at first
    rw [exact_values ordered' resolved'] at second
    rw [exact_values ordered'' resolved'']
    exact first.trans second

/-- A third is less than a float hardly above one, that is less than two, and a third is less than two. -/
theorem RealNumber.order_follows_values_third :
    let third := RealNumber.rational (1 / 3)
    let float := RealNumber.float (.ofIntWithPrec (2 ^ 30 + 1) 30)
    let two := RealNumber.rational 2
    (Ordered .default third float ∧ Ordered .default float two ∧ Ordered .default third two) ∧
      (Resolved .default third float ∧ Resolved .default float two ∧ Resolved .default third two) ∧
      Decides .default .less third float true ∧ Decides .default .less float two true ∧
      Decides .default .less third two true := by
  intro third float two
  have value : (Dyadic.ofIntWithPrec (2 ^ 30 + 1) 30).toRat = 1 + 1 / 2 ^ 30 := by
    rw [Dyadic.toRat_ofIntWithPrec_eq_mul_two_pow]
    norm_num
  have precise := Config.default_reads.precise
  have ordered : Ordered .default third float := ⟨rfl, rfl, .inl precise⟩
  have ordered' : Ordered .default float two := ⟨rfl, rfl, .inl precise⟩
  have ordered'' : Ordered .default third two := ⟨rfl, rfl, .inl precise⟩
  have resolved : Resolved .default third float := by
    have digits : (2 : ℚ) ^ 2 ≤ 2 ^ Config.default.bits :=
      pow_le_pow_right₀ one_le_two (show 2 ≤ Config.default.bits by decide +kernel)
    refine .inr ?_
    rw [value, abs_of_pos (by norm_num), abs_of_neg (by norm_num)]
    linarith
  have resolved' : Resolved .default float two := .inl ⟨(2 : Int), ⟨2, 0, by decide +kernel, rfl⟩, rfl⟩
  have less : third.value < float.value := by
    change extended _ < extended _
    rw [value, extended_lt]
    norm_num
  have less' : float.value < two.value := by
    change extended _ < extended _
    rw [value, extended_lt]
    norm_num
  obtain ⟨every, -, transitive⟩ := order_follows_values .default
  obtain ⟨v, decided, -, holds⟩ := every .less third float ordered
  obtain ⟨w, decided', -, holds'⟩ := every .less float two ordered'
  obtain rfl := (holds resolved).mpr less
  obtain rfl := (holds' resolved').mpr less'
  exact ⟨⟨ordered, ordered', ordered''⟩, ⟨resolved, resolved', trivial⟩, decided, decided',
    transitive .less third float two ordered ordered' ordered'' resolved resolved' trivial decided decided'⟩

/-- The float 2⁴⁰⁰ is not less than the integer after it, which has too many digits. So that integer is at
most the float, and the float at most the integer before, in no order of the two integers. -/
theorem RealNumber.rounded_integer_order :
    let float := RealNumber.float (.ofIntWithPrec 1 (-400))
    let next := RealNumber.rational (2 ^ 400 + 1)
    let same := RealNumber.rational (2 ^ 400)
    (float.value < next.value ∧ Decides .default .less float next false) ∧
      Decides .default .lessOrEqual next float true ∧ Decides .default .lessOrEqual float same true ∧
      Decides .default .lessOrEqual next same false := by
  intro float next same
  have precise := Config.default_reads.precise
  have equal : float.order .default next = .eq := by decide +kernel
  have equal' : next.order .default float = .eq := by decide +kernel
  have equal'' : float.order .default same = .eq := by decide +kernel
  have greater : next.order .default same = .gt := by decide +kernel
  have below : Decides .default .less float next false := .of_order ⟨rfl, rfl, .inl precise⟩ equal
  have first : Decides .default .lessOrEqual next float true := .of_order ⟨rfl, rfl, .inl precise⟩ equal'
  have second : Decides .default .lessOrEqual float same true := .of_order ⟨rfl, rfl, .inl precise⟩ equal''
  have third : Decides .default .lessOrEqual next same false := .of_order ⟨rfl, rfl, .inl precise⟩ greater
  refine ⟨⟨?_, below⟩, first, second, third⟩
  change extended _ < extended _
  rw [Dyadic.toRat_ofIntWithPrec_eq_mul_two_pow, extended_lt]
  decide +kernel

end ComputerAlgebra

import ComputerAlgebra.Proofs.Number.SimpleFraction
import ComputerAlgebra.Proofs.Number.Total

/-!
Finite quotients. Sums, differences and products of finite numbers are finite, and so is a quotient by
anything but zero. A complex divisor is divided by through the sum of the squares of its parts, each of
which is recognised before they are added; so that sum is zero not only where both parts are, but also
where the square of each inexact part falls below the zero tolerance.
-/

namespace ComputerAlgebra

open BigFloat (Short magnitude roundDyadic le_round round_nonneg)

-- The digits of the settings are compared as they are written, never computed.
attribute [local irreducible] Config.bits

namespace RealNumber
variable {c : Config} {x y : RealNumber} {v : Dyadic}

theorem ofDyadic_finite {r : RealNumber} (found : ofDyadic c v = .ok r) : r.isFinite = true := by
  unfold ofDyadic at found
  split at found
  · cases found
    rfl
  split at found
  · cases found
    rfl
  obtain ⟨t, -, found⟩ := Fraction.of_bind_ok found
  dsimp only at found
  split at found
  · cases found
    rfl
  obtain ⟨answer, -, found⟩ := Fraction.of_bind_ok found
  cases answer <;> cases found <;> rfl

theorem toFloat_finite (bits : Nat) (finite : x.isFinite = true) : ∃ f, x.toFloat bits = .finite f := by
  cases x with
  | rational q => exact ⟨_, rfl⟩
  | float v => exact ⟨v, rfl⟩
  | infinity | nan => cases finite

theorem not_nan (finite : x.isFinite = true) : x.isNaN = false := by
  cases x with
  | rational | float => rfl
  | infinity | nan => cases finite

theorem neg_finite (finite : x.isFinite = true) : Succeeds x.neg fun z => z.isFinite = true := by
  refine Succeeds.bind (P := fun _ => True) (fun u => ⟨u.bits, u, rfl, trivial⟩) fun bits _ => ?_
  cases x with
  | rational | float => exact Succeeds.pure rfl
  | infinity | nan => cases finite

section Usable
variable (usable : c.Usable)
include usable

theorem ofFloat_finite (v : Dyadic) : Succeeds (ofFloat c (.finite v)) fun z => z.isFinite = true := by
  refine Succeeds.bind (Succeeds.settle usable.precise) fun _ _ => ?_
  obtain ⟨r, answer⟩ := usable.answers v
  exact Succeeds.lift answer (ofDyadic_finite answer)

theorem add_finite (left : x.isFinite = true) (right : y.isFinite = true) :
    Succeeds (add c x y) fun z => z.isFinite = true := by
  unfold add
  split
  · exact Succeeds.pure rfl
  · obtain ⟨f, same⟩ := toFloat_finite c.bits left
    obtain ⟨g, same'⟩ := toFloat_finite c.bits right
    rw [not_nan left, not_nan right, same, same']
    exact ofFloat_finite usable _

theorem sub_finite (left : x.isFinite = true) (right : y.isFinite = true) :
    Succeeds (sub c x y) fun z => z.isFinite = true :=
  Succeeds.bind (neg_finite right) fun _ opposite => add_finite usable left opposite

theorem mul_finite (left : x.isFinite = true) (right : y.isFinite = true) :
    Succeeds (mul c x y) fun z => z.isFinite = true := by
  unfold mul
  split
  · exact Succeeds.pure rfl
  · obtain ⟨f, same⟩ := toFloat_finite c.bits left
    obtain ⟨g, same'⟩ := toFloat_finite c.bits right
    rw [not_nan left, not_nan right, same, same']
    exact ofFloat_finite usable _

theorem div_finite (left : x.isFinite = true) (right : y.isFinite = true) (nonzero : y.isZero = false)
    (regular : y.Regular) : Succeeds (div c x y) fun z => z.isFinite = true := by
  unfold div
  rw [not_nan left, not_nan right, nonzero]
  rw [if_neg (by simp), if_neg (by simp)]
  split
  · exact Succeeds.pure rfl
  · refine Succeeds.bind (Succeeds.settle usable.precise) fun _ _ => ?_
    obtain ⟨f, same⟩ := toFloat_finite c.bits left
    obtain ⟨g, same'⟩ := toFloat_finite c.bits right
    obtain ⟨q, quotient⟩ := div?_toFloat (c := c) (.finite f) (not_nan right) nonzero regular
    rw [same, quotient]
    rw [same'] at quotient
    obtain ⟨d, -, rfl⟩ := Option.map_eq_some_iff.mp quotient
    exact ofFloat_finite usable d

omit usable in
theorem div_zero (defined : x.isNaN = false) : Succeeds (div c x (.rational 0)) fun z => z.isFinite = false := by
  unfold div
  rw [defined]
  refine Succeeds.pure ?_
  unfold divZero
  split <;> rfl

end Usable

open Config (defaultTolerance defaultSearch_usual short_defaultTolerance)

/-- A positive number that is at least the zero tolerance where it is inexact. -/
def Significant : RealNumber → Prop
  | .rational q => 0 < q
  | .float v => defaultTolerance.toRat ≤ v.toRat
  | _ => False

/-- A part of a number whose square is zero, or below the zero tolerance where it is inexact. -/
def Faint : RealNumber → Prop
  | .rational q => q = 0
  | .float v => (roundDyadic Config.default.bits (v * v)).toRat < defaultTolerance.toRat
  | _ => False

section Recognition
variable (digits : Short Config.default.bits v)
include digits

theorem ofDyadic_significant (large : defaultTolerance.toRat ≤ v.toRat) :
    ∃ r, ofDyadic .default v = .ok r ∧ r.Significant := by
  have low := defaultSearch_usual.low
  have positive : 0 < v.toRat := by linarith
  rcases lt_or_ge (magnitude v) ((Config.default.bits : Int) - 32) with shown | size
  swap
  · refine ⟨_, ofDyadic_large ?_ size, large⟩
    rintro rfl
    exact positive.ne' Dyadic.toRat_zero
  by_cases whole : ∃ m : Int, |v.toRat - m| < defaultTolerance.toRat
  · obtain ⟨m, near⟩ := whole
    refine ⟨_, ofDyadic_close digits shown near, ?_⟩
    change (0 : ℚ) < m
    linarith [(abs_lt.mp near).2]
  · have far (m : Int) : defaultTolerance.toRat ≤ |v.toRat - m| := not_lt.mp fun near => whole ⟨m, near⟩
    rcases ofDyadic_far digits shown far with kept | ⟨q, found, between, -⟩
    · exact ⟨_, kept, large⟩
    · refine ⟨_, found, ?_⟩
      have least : (0 : ℚ) ≤ ⌊v.toRat⌋ := by exact_mod_cast Int.floor_nonneg.mpr positive.le
      exact least.trans_lt between

theorem ofDyadic_faint (nonneg : 0 ≤ v.toRat) (small : v.toRat < defaultTolerance.toRat) :
    ofDyadic .default v = .ok 0 := by
  have high := defaultSearch_usual.high
  have shown : magnitude v < (Config.default.bits : Int) - 32 := by
    refine magnitude_lt ?_
    rw [abs_of_nonneg nonneg]
    exact small.trans_le (high.trans (by norm_num))
  refine ofDyadic_close digits shown (m := 0) ?_
  rwa [Int.cast_zero, sub_zero, abs_of_nonneg nonneg]

end Recognition

/-- The square of a part is recognised as zero where the part is faint, and only there. -/
theorem square_succeeds (finite : x.isFinite = true) : Succeeds (mul .default x x) fun s =>
    x.Faint ∧ s = 0 ∨ ¬ x.Faint ∧ s.Significant := by
  cases x with
  | rational q =>
    refine Succeeds.pure ?_
    by_cases zero : q = 0
    · exact .inl ⟨zero, by rw [zero, mul_zero]; rfl⟩
    · exact .inr ⟨zero, mul_self_pos.mpr zero⟩
  | float v =>
    refine Succeeds.bind (Succeeds.settle Config.default_usable.precise) fun _ _ => ?_
    have digits := BigFloat.short_round (Config.default.bits : BigFloat.Rounding) (v * v)
    have nonneg : 0 ≤ (roundDyadic Config.default.bits (v * v)).toRat := by
      refine round_nonneg Config.default.bits_pos ?_
      rw [Dyadic.toRat_mul]
      exact mul_self_nonneg _
    rcases lt_or_ge (roundDyadic Config.default.bits (v * v)).toRat defaultTolerance.toRat with small | large
    · exact Succeeds.lift (ofDyadic_faint digits nonneg small) (.inl ⟨small, rfl⟩)
    · obtain ⟨r, found, significant⟩ := ofDyadic_significant digits large
      exact Succeeds.lift found (.inr ⟨not_lt.mpr large, significant⟩)
  | infinity | nan => cases finite

theorem Significant.finite (significant : x.Significant) : x.isFinite = true := by
  cases x with
  | rational | float => rfl
  | infinity | nan => cases significant

theorem Significant.nonzero (significant : x.Significant) : x.isZero = false ∧ x.Regular := by
  cases x with
  | rational q => exact ⟨decide_eq_false significant.ne', trivial⟩
  | float v =>
    refine ⟨rfl, ?_⟩
    rintro rfl
    have least : defaultTolerance.toRat ≤ 0 := significant
    linarith [defaultSearch_usual.low]
  | infinity | nan => cases significant

/-- What is zero or significant is not negative as a float. -/
theorem toFloat_nonneg (weight : x = 0 ∨ x.Significant) :
    ∃ f, x.toFloat Config.default.bits = .finite f ∧ 0 ≤ f.toRat := by
  rcases weight with rfl | significant
  · exact ⟨0, rfl, le_refl _⟩
  · cases x with
    | rational q =>
      refine ⟨_, rfl, ?_⟩
      exact ((BigFloat.ofRat_sign Config.default.bits_pos (ne_of_gt significant)).2.mp significant).le
    | float v =>
      have least : defaultTolerance.toRat ≤ v.toRat := significant
      exact ⟨v, rfl, by linarith [defaultSearch_usual.low]⟩
    | infinity | nan => cases significant

theorem add_significant (left : x = 0 ∨ x.Significant) (right : y = 0 ∨ y.Significant)
    (some : x.Significant ∨ y.Significant) : Succeeds (add .default x y) Significant := by
  obtain ⟨f, same, nonneg⟩ := toFloat_nonneg left
  obtain ⟨g, same', nonneg'⟩ := toFloat_nonneg right
  have inexact {z : RealNumber} {h : Dyadic} (weight : z = 0 ∨ z.Significant)
      (value : z.toFloat Config.default.bits = .finite h) :
      (∃ q, z = .rational q) ∨ defaultTolerance.toRat ≤ h.toRat := by
    cases z with
    | rational q => exact .inl ⟨q, rfl⟩
    | float v =>
      cases value
      exact .inr (weight.resolve_left nofun)
    | infinity | nan => cases value
  have finite {z : RealNumber} (weight : z = 0 ∨ z.Significant) : z.isFinite = true := by
    rcases weight with rfl | significant
    · rfl
    · exact significant.finite
  have large (apart : ∀ p q, x = .rational p → y = .rational q → False) :
      defaultTolerance.toRat ≤ f.toRat + g.toRat := by
    rcases inexact left same with ⟨p, exact_left⟩ | above
    · rcases inexact right same' with ⟨q, exact_right⟩ | above
      · exact (apart p q exact_left exact_right).elim
      · linarith
    · linarith
  unfold add
  split
  · next p q =>
    refine Succeeds.pure ?_
    have low : 0 ≤ p := left.elim (fun zero => (RealNumber.rational.inj zero).ge) le_of_lt
    have low' : 0 ≤ q := right.elim (fun zero => (RealNumber.rational.inj zero).ge) le_of_lt
    exact some.elim (fun positive => add_pos_of_pos_of_nonneg positive low')
      (fun positive => add_pos_of_nonneg_of_pos low positive)
  · next apart =>
    rw [not_nan (finite left), not_nan (finite right), same, same']
    refine Succeeds.bind (Succeeds.settle Config.default_usable.precise) fun _ _ => ?_
    have kept : defaultTolerance.toRat ≤ (BigFloat.addDyadic Config.default.bits f g).toRat := by
      rw [BigFloat.addDyadic_eq]
      refine le_round Config.default.bits_pos short_defaultTolerance ?_ ?_
      · linarith [defaultSearch_usual.low]
      · rw [Dyadic.toRat_add]
        exact large apart
    obtain ⟨r, found, significant⟩ := ofDyadic_significant (BigFloat.short_add Config.default.bits f g) kept
    exact Succeeds.lift found significant

/-- The sum of two squares is zero where both are, and significant elsewhere. -/
theorem add_squares {p q : Prop} (left : p ∧ x = 0 ∨ ¬ p ∧ x.Significant)
    (right : q ∧ y = 0 ∨ ¬ q ∧ y.Significant) : Succeeds (add .default x y) fun z =>
      (p ∧ q) ∧ z = 0 ∨ ¬ (p ∧ q) ∧ z.Significant := by
  have weight := left.imp And.right And.right
  have weight' := right.imp And.right And.right
  rcases left with ⟨faint, rfl⟩ | ⟨seen, significant⟩
  · rcases right with ⟨faint', rfl⟩ | ⟨seen, significant⟩
    · exact Succeeds.pure (.inl ⟨⟨faint, faint'⟩, congrArg RealNumber.rational (add_zero 0)⟩)
    · exact (add_significant weight weight' (.inr significant)).mono fun z holds =>
        .inr ⟨fun both => seen both.2, holds⟩
  · exact (add_significant weight weight' (.inl significant)).mono fun z holds =>
      .inr ⟨fun both => seen both.1, holds⟩

end RealNumber

namespace Number
variable {c : Config} {re im : RealNumber} {a b : Number}

theorem re_finite (finite : a.isFinite = true) : a.re.isFinite = true := by
  cases a with
  | real x => exact finite
  | complex re im => exact ((Bool.and_eq_true _ _).mp finite).1

theorem im_finite (finite : a.isFinite = true) : a.im.isFinite = true := by
  cases a with
  | real x => rfl
  | complex re im => exact ((Bool.and_eq_true _ _).mp finite).2

theorem ofParts_finite (usable : c.Usable) (left : re.isFinite = true) (right : im.isFinite = true) :
    Succeeds (ofParts c re im) fun z => z.isFinite = true := by
  unfold ofParts
  rw [RealNumber.not_nan left, RealNumber.not_nan right]
  rw [if_neg (by simp)]
  split
  · exact Succeeds.pure left
  · refine Succeeds.bind (isNegligible_succeeds usable.toReadable im) fun small _ => ?_
    split
    · exact Succeeds.pure left
    · exact Succeeds.pure ((Bool.and_eq_true _ _).mpr ⟨left, right⟩)

theorem ofParts_infinite (left : re.isFinite = false) (right : im.isFinite = false) :
    Succeeds (ofParts c re im) fun z => z.isFinite = false := by
  unfold ofParts
  split
  · exact Succeeds.pure rfl
  next defined =>
  cases im with
  | rational | float => cases right
  | infinity s =>
    refine Succeeds.pure ?_
    exact Bool.and_eq_false_imp.mpr fun finite => absurd finite (by simp [left])
  | nan => exact absurd (Bool.or_true _) defined

/-- A complex number of which each part, where it is not zero, is inexact and has a square below the zero
tolerance. -/
def Faint : Number → Prop
  | .real _ => False
  | .complex re im => re.Faint ∧ im.Faint

/-- Under the default settings the quotient of finite numbers by anything but zero is finite exactly where
the divisor is not faint. -/
theorem div_finite_iff (left : a.isFinite = true) (right : b.isFinite = true) (nonzero : b.isZero = false)
    (regular : b.Regular) : Succeeds (div .default a b) fun z => z.isFinite = true ↔ ¬ b.Faint := by
  have usable := Config.default_usable
  have left_re := re_finite left
  have left_im := im_finite left
  have right_re := re_finite right
  have right_im := im_finite right
  have undefined {z : Number} (finite : z.isFinite = true) : z.isNaN = false := by
    cases z with
    | real x => exact RealNumber.not_nan finite
    | complex re im => rfl
  unfold div
  rw [undefined left, undefined right, nonzero, if_neg (by simp), if_neg (by simp)]
  split
  · next x y =>
    refine Succeeds.bind (RealNumber.div_finite usable left right nonzero regular.1) fun z finite => ?_
    exact Succeeds.pure (iff_of_true finite id)
  · next re im y =>
    refine Succeeds.bind (RealNumber.div_finite usable left_re right nonzero regular.1) fun re' holds => ?_
    refine Succeeds.bind (RealNumber.div_finite usable left_im right nonzero regular.1) fun im' holds' => ?_
    exact (ofParts_finite usable holds holds').mono fun z finite => iff_of_true finite id
  · next d e _ _ =>
    refine Succeeds.bind (RealNumber.square_succeeds right_re) fun dd first => ?_
    refine Succeeds.bind (RealNumber.square_succeeds right_im) fun ee second => ?_
    refine Succeeds.bind (RealNumber.add_squares first second) fun norm weight => ?_
    refine Succeeds.bind (RealNumber.mul_finite usable left_re right_re) fun rd first => ?_
    refine Succeeds.bind (RealNumber.mul_finite usable left_im right_im) fun ie second => ?_
    refine Succeeds.bind (RealNumber.add_finite usable first second) fun re holds => ?_
    refine Succeeds.bind (RealNumber.mul_finite usable left_im right_re) fun id first => ?_
    refine Succeeds.bind (RealNumber.mul_finite usable left_re right_im) fun rest second => ?_
    refine Succeeds.bind (RealNumber.sub_finite usable first second) fun im holds' => ?_
    rcases weight with ⟨faint, rfl⟩ | ⟨seen, significant⟩
    · refine Succeeds.bind (RealNumber.div_zero (RealNumber.not_nan holds)) fun re' infinite => ?_
      refine Succeeds.bind (RealNumber.div_zero (RealNumber.not_nan holds')) fun im' infinite' => ?_
      refine (ofParts_infinite infinite infinite').mono fun z unbounded => ?_
      exact iff_of_false (by simp [unbounded]) fun seen => seen faint
    · have divide {x : RealNumber} (finite : x.isFinite = true) :=
        RealNumber.div_finite usable finite significant.finite significant.nonzero.1 significant.nonzero.2
      refine Succeeds.bind (divide holds) fun re' holds => ?_
      refine Succeeds.bind (divide holds') fun im' holds' => ?_
      exact (ofParts_finite usable holds holds').mono fun z finite => iff_of_true finite seen

/-- One is divided by one and a tiny inexact imaginary part, whose square counts for nothing. -/
theorem div_finite_iff_exact_part :
    let divisor := complex 1 (.float (.ofIntWithPrec 1 30))
    ((1 : Number).isFinite = true ∧ divisor.isFinite = true ∧ divisor.isZero = false ∧ divisor.Regular) ∧
      ¬ divisor.Faint ∧ Succeeds (div .default 1 divisor) fun z => z.isFinite = true ↔ ¬ divisor.Faint := by
  intro divisor
  have regular : divisor.Regular := ⟨trivial, show (Dyadic.ofIntWithPrec 1 30) ≠ 0 by decide⟩
  exact ⟨⟨rfl, rfl, rfl, regular⟩, fun faint => one_ne_zero faint.1, div_finite_iff rfl rfl rfl regular⟩

/-- The imaginary number 2⁻³⁰ is kept as it is, and one divided by it is NaN. -/
theorem faint_quotient :
    let divisor := complex 0 (.float (.ofIntWithPrec 1 30))
    (ofLiteral .default (.complexFloat (.finite 0) (.finite (.ofIntWithPrec 1 30)))).run' ⟨15⟩ = some divisor ∧
      divisor.isFinite = true ∧ divisor.isZero = false ∧
      (div .default 1 divisor).run' ⟨15⟩ = some nan := by
  intro divisor
  exact ⟨by decide +kernel, rfl, rfl, by decide +kernel⟩

end Number
end ComputerAlgebra

import ComputerAlgebra.Proofs.Complex.Meaning
import ComputerAlgebra.Proofs.Expr.Measure
import ComputerAlgebra.Simplification.Pass

/-!
The rewritings of nodes that collection, the merging of powers and the circular identities are made of. Each
of them keeps the meaning wherever there is one, leads from elementary expressions to elementary ones, and
adds no node. No rewriting asks whether something is zero: where the node is defined, nothing that it could
hide is lost.
-/

namespace ComputerAlgebra.Expr

/-- An expression with an exact coefficient, which is one when there is none. -/
inductive Multiple : Expr → Gaussian → Expr → Prop
  | single (x : Expr) : Multiple x 1 x
  | scaled (m : Gaussian) (x : Expr) : Multiple (.binary .mul (.num (.ofGaussian m)) x) m x

inductive Powered : Expr → Expr → Expr → Prop
  | single (x : Expr) : Powered x x 1
  | pow (x p : Expr) : Powered (.binary .pow x p) x p

/-- An operation on exponents, which is carried out on numbers. -/
inductive Combined (op : BinaryOp) (f : Gaussian → Gaussian → Gaussian) : Expr → Expr → Expr → Prop
  | numbers (p q : Gaussian) :
    Combined op f (.num (.ofGaussian p)) (.num (.ofGaussian q)) (.num (.ofGaussian (f p q)))
  | node {p q : Expr} (symbolic : (p.isNumber && q.isNumber) = false) : Combined op f p q (.binary op p q)

abbrev sine (x : Expr) : Expr := .unary (.circular .sin) x

abbrev cosine (x : Expr) : Expr := .unary (.circular .cos) x

abbrev opposite (x : Expr) : Expr := .binary .mul minusOne x

inductive Rewrite : Expr → Expr → Prop
  | collectSum {a b x : Expr} {m n : Gaussian} (left : Multiple a m x) (right : Multiple b n x) :
    Rewrite (.binary .sum a b) (scaled (.ofGaussian (m + n)) x)
  | collectMinus {a b x : Expr} {m n : Gaussian} (left : Multiple a m x) (right : Multiple b n x) :
    Rewrite (.binary .minus a b) (scaled (.ofGaussian (m - n)) x)
  | sumOpposite (a x : Expr) : Rewrite (.binary .sum a (opposite x)) (.binary .minus a x)
  | sumNumber (a : Expr) (g : Gaussian) :
    Rewrite (.binary .sum a (.num (.ofGaussian g))) (.binary .minus a (.num (.ofGaussian (-g))))
  | oppositeSum (x b : Expr) : Rewrite (.binary .sum (opposite x) b) (.binary .minus b x)
  | minusOpposite (a x : Expr) : Rewrite (.binary .minus a (opposite x)) (.binary .sum a x)
  | minusNumber (a : Expr) (g : Gaussian) :
    Rewrite (.binary .minus a (.num (.ofGaussian g))) (.binary .sum a (.num (.ofGaussian (-g))))
  | oppositeOpposite (x : Expr) : Rewrite (opposite (opposite x)) x
  | oppositeMinus (a b : Expr) : Rewrite (opposite (.binary .minus a b)) (.binary .minus b a)
  | mergePowers {a b x p q r : Expr} (left : Powered a x p) (right : Powered b x q)
    (exponents : Combined .sum (· + ·) p q r) : Rewrite (.binary .mul a b) (.binary .pow x r)
  | powerOfPower (x : Expr) {p r : Expr} {k : Int}
    (exponents : Combined .mul (· * ·) (.num (.ofInt k)) p r) :
    Rewrite (.binary .pow (.binary .pow x p) (.num (.ofInt k))) (.binary .pow x r)
  | quotientOver (x y b : Expr) :
    Rewrite (.binary .div (.binary .div x y) b) (.binary .div x (.binary .mul y b))
  | overQuotient (a x y : Expr) :
    Rewrite (.binary .div a (.binary .div x y)) (.binary .div (.binary .mul a y) x)
  | cancelFirst (x y : Expr) : Rewrite (.binary .div (.binary .mul x y) x) y
  | cancelSecond (x y : Expr) : Rewrite (.binary .div (.binary .mul x y) y) x
  | productOfPowers (a b : Expr) (k : Int) :
    Rewrite (.binary .mul (.binary .pow a (.num (.ofInt k))) (.binary .pow b (.num (.ofInt k))))
      (.binary .pow (.binary .mul a b) (.num (.ofInt k)))
  | quotientOfPowers {a b x p q r : Expr} (left : Powered a x p) (right : Powered b x q)
    (exponents : Combined .minus (· - ·) p q r) : Rewrite (.binary .div a b) (.binary .pow x r)
  | pythagoras (x : Expr) : Rewrite (.binary .sum (.binary .pow (sine x) 2) (.binary .pow (cosine x) 2)) 1
  | pythagorasTurned (x : Expr) : Rewrite (.binary .sum (.binary .pow (cosine x) 2) (.binary .pow (sine x) 2)) 1
  | tangent (x : Expr) : Rewrite (.binary .div (sine x) (cosine x)) (.unary (.circular .tan) x)
  | cotangent (x : Expr) : Rewrite (.binary .div (cosine x) (sine x)) (.unary (.circular .cotan) x)
  | secant (x : Expr) : Rewrite (.binary .div 1 (cosine x)) (.unary (.circular .sec) x)
  | cosecant (x : Expr) : Rewrite (.binary .div 1 (sine x)) (.unary (.circular .cosec) x)
  | sineOdd (x : Expr) : Rewrite (sine (opposite x)) (opposite (sine x))
  | cosineEven (x : Expr) : Rewrite (cosine (opposite x)) (cosine x)

section Meaning
variable {s : String → ℂ} {v : ℂ}

theorem Multiple.meaning {a x : Expr} {m : Gaussian} (multiple : Multiple a m x)
    (value : meaning? s a = some v) : ∃ w, meaning? s x = some w ∧ m.toComplex * w = v := by
  cases multiple with
  | single => exact ⟨v, value, by rw [map_one, one_mul]⟩
  | scaled =>
    obtain ⟨_, coefficient, w, rest, rfl⟩ := meaning?_mul.mp value
    rw [meaning?_ofGaussian] at coefficient
    exact ⟨w, rest, by rw [coefficient]⟩

theorem scaled_meaning {x : Expr} {w : ℂ} (m : Gaussian) (value : meaning? s x = some w) :
    meaning? s (scaled (.ofGaussian m) x) = some (m.toComplex * w) := by
  have numerals := Number.ofGaussian_numerals
  unfold scaled
  split
  · next zero =>
    rw [numerals.isZero.mp zero, map_zero, zero_mul]
    exact (meaning?_ring s).zero_value
  split
  · next one =>
    rw [Number.ofGaussian_injective (one.trans numerals.one.symm), map_one, one_mul]
    exact value
  · simp [value]

theorem Powered.meaning {a x p : Expr} (powered : Powered a x p) (value : meaning? s a = some v) :
    ∃ y w, meaning? s x = some y ∧ meaning? s p = some w ∧ principalPower? y w = some v := by
  cases powered with
  | single => exact ⟨v, 1, value, meaning?_one.mpr rfl, principalPower?_one v⟩
  | pow =>
    obtain ⟨y, base, w, exponent, power⟩ := meaning?_pow.mp value
    exact ⟨y, w, base, exponent, power⟩

theorem Combined.meaning {op : BinaryOp} {f : Gaussian → Gaussian → Gaussian} {p q r : Expr}
    (combined : Combined op f p q r)
    (agrees : ∀ g h : Gaussian, op.meaning? g.toComplex h.toComplex = some (f g h).toComplex) {x y : ℂ}
    (left : meaning? s p = some x) (right : meaning? s q = some y) (value : op.meaning? x y = some v) :
    meaning? s r = some v := by
  cases combined with
  | numbers g h =>
    rw [meaning?_ofGaussian] at left right ⊢
    rw [← left, ← right, agrees] at value
    exact Option.some.inj value
  | node => exact meaning?_binary.mpr ⟨x, left, y, right, value⟩

theorem meaning?_ofInt {k : Int} : meaning? s (.num (.ofInt k)) = some v ↔ (k : ℂ) = v := by
  rw [← Number.ofGaussian_intCast, meaning?_ofGaussian, map_intCast]

theorem opposite_meaning {x : Expr} (value : meaning? s (opposite x) = some v) :
    ∃ w, meaning? s x = some w ∧ -w = v := by
  obtain ⟨_, one, w, rest, rfl⟩ := meaning?_mul.mp value
  exact ⟨w, rest, by rw [← meaning?_minusOne.mp one, neg_one_mul]⟩

theorem sine_meaning {x : Expr} :
    meaning? s (sine x) = some v ↔ ∃ y, meaning? s x = some y ∧ Complex.sin y = v := by
  simp [meaning?_circular, Circular.meaning?]

theorem cosine_meaning {x : Expr} :
    meaning? s (cosine x) = some v ↔ ∃ y, meaning? s x = some y ∧ Complex.cos y = v := by
  simp [meaning?_circular, Circular.meaning?]

theorem square_meaning {a : Expr} (value : meaning? s (.binary .pow a 2) = some v) :
    ∃ y, meaning? s a = some y ∧ y ^ 2 = v := by
  obtain ⟨y, base, w, exponent, power⟩ := meaning?_pow.mp value
  have two : ((2 : ℤ) : ℂ) = w := meaning?_ofInt.mp exponent
  obtain ⟨-, rfl⟩ := principalPower?_eq_some.mp power
  refine ⟨y, base, ?_⟩
  rw [← two, Complex.cpow_intCast]
  rfl

theorem squares_meaning {x : Expr} {u w : ℂ} (first : meaning? s (.binary .pow (sine x) 2) = some u)
    (second : meaning? s (.binary .pow (cosine x) 2) = some w) :
    ∃ y, u + w = Complex.sin y ^ 2 + Complex.cos y ^ 2 := by
  obtain ⟨_, value, rfl⟩ := square_meaning first
  obtain ⟨_, value', rfl⟩ := square_meaning second
  obtain ⟨y, argument, rfl⟩ := sine_meaning.mp value
  obtain ⟨z, argument', rfl⟩ := cosine_meaning.mp value'
  obtain rfl : y = z := Option.some.inj (argument.symm.trans argument')
  exact ⟨y, rfl⟩

/-- Where a node is defined, it may be rewritten. -/
theorem Rewrite.meaning {e r : Expr} (rewrite : Rewrite e r) (value : meaning? s e = some v) :
    meaning? s r = some v := by
  cases rewrite with
  | collectSum left right =>
    obtain ⟨_, first, _, second, rfl⟩ := meaning?_sum.mp value
    obtain ⟨w, rest, rfl⟩ := left.meaning first
    obtain ⟨w', rest', rfl⟩ := right.meaning second
    obtain rfl : w = w' := Option.some.inj (rest.symm.trans rest')
    rw [scaled_meaning _ rest, map_add, add_mul]
  | collectMinus left right =>
    obtain ⟨_, first, _, second, rfl⟩ := meaning?_minus.mp value
    obtain ⟨w, rest, rfl⟩ := left.meaning first
    obtain ⟨w', rest', rfl⟩ := right.meaning second
    obtain rfl : w = w' := Option.some.inj (rest.symm.trans rest')
    rw [scaled_meaning _ rest, map_sub, sub_mul]
  | sumOpposite a x =>
    obtain ⟨y, left, _, right, rfl⟩ := meaning?_sum.mp value
    obtain ⟨z, rest, rfl⟩ := opposite_meaning right
    exact meaning?_minus.mpr ⟨y, left, z, rest, sub_eq_add_neg y z⟩
  | sumNumber a g =>
    obtain ⟨y, left, _, right, rfl⟩ := meaning?_sum.mp value
    rw [meaning?_ofGaussian] at right
    exact meaning?_minus.mpr ⟨y, left, _, meaning?_ofGaussian.mpr rfl, by rw [map_neg, right, sub_neg_eq_add]⟩
  | oppositeSum x b =>
    obtain ⟨_, left, y, right, rfl⟩ := meaning?_sum.mp value
    obtain ⟨z, rest, rfl⟩ := opposite_meaning left
    exact meaning?_minus.mpr ⟨y, right, z, rest, by rw [sub_eq_add_neg, add_comm]⟩
  | minusOpposite a x =>
    obtain ⟨y, left, _, right, rfl⟩ := meaning?_minus.mp value
    obtain ⟨z, rest, rfl⟩ := opposite_meaning right
    exact meaning?_sum.mpr ⟨y, left, z, rest, (sub_neg_eq_add y z).symm⟩
  | minusNumber a g =>
    obtain ⟨y, left, _, right, rfl⟩ := meaning?_minus.mp value
    rw [meaning?_ofGaussian] at right
    exact meaning?_sum.mpr ⟨y, left, _, meaning?_ofGaussian.mpr rfl, by rw [map_neg, right, sub_eq_add_neg]⟩
  | oppositeOpposite x =>
    obtain ⟨_, inner, rfl⟩ := opposite_meaning value
    obtain ⟨z, rest, rfl⟩ := opposite_meaning inner
    rw [neg_neg]
    exact rest
  | oppositeMinus a b =>
    obtain ⟨_, inner, rfl⟩ := opposite_meaning value
    obtain ⟨y, left, z, right, rfl⟩ := meaning?_minus.mp inner
    exact meaning?_minus.mpr ⟨z, right, y, left, (neg_sub y z).symm⟩
  | mergePowers left right exponents =>
    obtain ⟨_, first, _, second, rfl⟩ := meaning?_mul.mp value
    obtain ⟨y, w, base, exponent, power⟩ := left.meaning first
    obtain ⟨z, w', base', exponent', power'⟩ := right.meaning second
    obtain rfl : y = z := Option.some.inj (base.symm.trans base')
    have total := exponents.meaning (fun g h => by simp [BinaryOp.meaning?]) exponent exponent' rfl
    exact meaning?_pow.mpr ⟨y, base, w + w', total, principalPower?_add power power'⟩
  | powerOfPower x exponents =>
    obtain ⟨_, inner, _, outer, power'⟩ := meaning?_pow.mp value
    obtain ⟨y, base, w, exponent, power⟩ := meaning?_pow.mp inner
    rw [← meaning?_ofInt.mp outer] at power'
    have total := exponents.meaning (fun g h => by simp [BinaryOp.meaning?]) outer exponent rfl
    rw [← meaning?_ofInt.mp outer] at total
    exact meaning?_pow.mpr ⟨y, base, _, total, principalPower?_mul_int power power'⟩
  | quotientOver x y b =>
    obtain ⟨_, inner, u, right, apart, rfl⟩ := meaning?_div.mp value
    obtain ⟨z, above, w, below, apart', rfl⟩ := meaning?_div.mp inner
    have product : meaning? s (.binary .mul y b) = some (w * u) := meaning?_mul.mpr ⟨w, below, u, right, rfl⟩
    exact meaning?_div.mpr ⟨z, above, _, product, mul_ne_zero apart' apart, (div_div z w u).symm⟩
  | overQuotient a x y =>
    obtain ⟨u, left, _, inner, apart, rfl⟩ := meaning?_div.mp value
    obtain ⟨z, above, w, below, apart', rfl⟩ := meaning?_div.mp inner
    have product : meaning? s (.binary .mul a y) = some (u * w) := meaning?_mul.mpr ⟨u, left, w, below, rfl⟩
    exact meaning?_div.mpr ⟨_, product, z, above, (div_ne_zero_iff.mp apart).1, (div_div_eq_mul_div u z w).symm⟩
  | cancelFirst x y =>
    obtain ⟨_, product, z, right, apart, rfl⟩ := meaning?_div.mp value
    obtain ⟨w, first, u, second, rfl⟩ := meaning?_mul.mp product
    obtain rfl : w = z := Option.some.inj (first.symm.trans right)
    rw [mul_div_cancel_left₀ u apart]
    exact second
  | cancelSecond x y =>
    obtain ⟨_, product, z, right, apart, rfl⟩ := meaning?_div.mp value
    obtain ⟨w, first, u, second, rfl⟩ := meaning?_mul.mp product
    obtain rfl : u = z := Option.some.inj (second.symm.trans right)
    rw [mul_div_cancel_right₀ w apart]
    exact first
  | productOfPowers a b k =>
    obtain ⟨_, first, _, second, rfl⟩ := meaning?_mul.mp value
    obtain ⟨y, base, _, exponent, power⟩ := meaning?_pow.mp first
    obtain ⟨z, base', _, exponent', power'⟩ := meaning?_pow.mp second
    rw [← meaning?_ofInt.mp exponent] at power
    rw [← meaning?_ofInt.mp exponent'] at power'
    have product : meaning? s (.binary .mul a b) = some (y * z) := meaning?_mul.mpr ⟨y, base, z, base', rfl⟩
    exact meaning?_pow.mpr ⟨_, product, k, meaning?_ofInt.mpr rfl, principalPower?_mul power power'⟩
  | quotientOfPowers left right exponents =>
    obtain ⟨_, first, _, second, apart, rfl⟩ := meaning?_div.mp value
    obtain ⟨y, w, base, exponent, power⟩ := left.meaning first
    obtain ⟨z, w', base', exponent', power'⟩ := right.meaning second
    obtain rfl : y = z := Option.some.inj (base.symm.trans base')
    have total := exponents.meaning (fun g h => by simp [BinaryOp.meaning?]) exponent exponent' rfl
    exact meaning?_pow.mpr ⟨y, base, w - w', total, principalPower?_sub power power' apart⟩
  | pythagoras x =>
    obtain ⟨_, first, _, second, rfl⟩ := meaning?_sum.mp value
    obtain ⟨y, total⟩ := squares_meaning first second
    rw [total]
    exact meaning?_one.mpr (Complex.sin_sq_add_cos_sq y).symm
  | pythagorasTurned x =>
    obtain ⟨_, first, _, second, rfl⟩ := meaning?_sum.mp value
    obtain ⟨y, total⟩ := squares_meaning second first
    rw [add_comm, total]
    exact meaning?_one.mpr (Complex.sin_sq_add_cos_sq y).symm
  | tangent x =>
    obtain ⟨_, above, _, below, apart, rfl⟩ := meaning?_div.mp value
    obtain ⟨y, argument, rfl⟩ := sine_meaning.mp above
    obtain ⟨z, argument', rfl⟩ := cosine_meaning.mp below
    obtain rfl : y = z := Option.some.inj (argument.symm.trans argument')
    exact meaning?_circular.mpr ⟨y, argument, if_neg apart⟩
  | cotangent x =>
    obtain ⟨_, above, _, below, apart, rfl⟩ := meaning?_div.mp value
    obtain ⟨y, argument, rfl⟩ := cosine_meaning.mp above
    obtain ⟨z, argument', rfl⟩ := sine_meaning.mp below
    obtain rfl : y = z := Option.some.inj (argument.symm.trans argument')
    exact meaning?_circular.mpr ⟨y, argument, if_neg apart⟩
  | secant x =>
    obtain ⟨_, one, _, below, apart, rfl⟩ := meaning?_div.mp value
    obtain ⟨y, argument, rfl⟩ := cosine_meaning.mp below
    rw [← meaning?_one.mp one]
    exact meaning?_circular.mpr ⟨y, argument, if_neg apart⟩
  | cosecant x =>
    obtain ⟨_, one, _, below, apart, rfl⟩ := meaning?_div.mp value
    obtain ⟨y, argument, rfl⟩ := sine_meaning.mp below
    rw [← meaning?_one.mp one]
    exact meaning?_circular.mpr ⟨y, argument, if_neg apart⟩
  | sineOdd x =>
    obtain ⟨_, inner, rfl⟩ := sine_meaning.mp value
    obtain ⟨y, argument, rfl⟩ := opposite_meaning inner
    have mirrored := sine_meaning.mpr ⟨y, argument, rfl⟩
    exact meaning?_mul.mpr ⟨-1, meaning?_minusOne.mpr rfl, _, mirrored, by rw [Complex.sin_neg, neg_one_mul]⟩
  | cosineEven x =>
    obtain ⟨_, inner, rfl⟩ := cosine_meaning.mp value
    obtain ⟨y, argument, rfl⟩ := opposite_meaning inner
    exact cosine_meaning.mpr ⟨y, argument, (Complex.cos_neg y).symm⟩

end Meaning

section Shape

theorem isElementary_ofGaussian (g : Gaussian) : IsElementary (.num (.ofGaussian g)) :=
  isElementary_num.mpr ⟨g, rfl⟩

theorem isElementary_minusOne : IsElementary minusOne :=
  isElementary_num.mpr ⟨-1, Number.ofGaussian_numerals.minusOne.symm⟩

theorem Multiple.elementary {a x : Expr} {m : Gaussian} (multiple : Multiple a m x)
    (given : IsElementary a) : IsElementary x := by
  cases multiple with
  | single => exact given
  | scaled => exact (elementary_binary.mp given).2.2

theorem scaled_elementary {x : Expr} (m : Gaussian) (given : IsElementary x) :
    IsElementary (scaled (.ofGaussian m) x) := by
  unfold scaled
  split
  · exact isElementary_ofGaussian 0
  split
  · exact given
  · exact .binary (by simp) (isElementary_ofGaussian m) given

theorem Powered.elementary {a x p : Expr} (powered : Powered a x p) (given : IsElementary a) :
    IsElementary x ∧ IsElementary p := by
  cases powered with
  | single => exact ⟨given, isElementary_ofGaussian 1⟩
  | pow => exact (elementary_binary.mp given).2

theorem Combined.elementary {op : BinaryOp} {f : Gaussian → Gaussian → Gaussian} {p q r : Expr}
    (combined : Combined op f p q r) (arithmetic : op ∈ [BinaryOp.sum, .minus, .mul, .div, .pow])
    (left : IsElementary p) (right : IsElementary q) : IsElementary r := by
  cases combined with
  | numbers g h => exact isElementary_ofGaussian _
  | node => exact .binary arithmetic left right

theorem Rewrite.elementary {e r : Expr} (rewrite : Rewrite e r) (given : IsElementary e) :
    IsElementary r := by
  cases rewrite with
  | collectSum left _ | collectMinus left _ =>
    exact scaled_elementary _ (left.elementary (elementary_binary.mp given).2.1)
  | mergePowers left right exponents | quotientOfPowers left right exponents =>
    obtain ⟨-, first, second⟩ := elementary_binary.mp given
    obtain ⟨base, exponent⟩ := left.elementary first
    exact .binary (by simp) base (exponents.elementary (by simp) exponent (right.elementary second).2)
  | powerOfPower x exponents =>
    obtain ⟨-, inner, outer⟩ := elementary_binary.mp given
    obtain ⟨-, base, exponent⟩ := elementary_binary.mp inner
    exact .binary (by simp) base (exponents.elementary (by simp) outer exponent)
  | sumNumber a g | minusNumber a g =>
    exact .binary (by simp) (elementary_binary.mp given).2.1 (isElementary_ofGaussian (-g))
  | pythagoras | pythagorasTurned => exact isElementary_ofGaussian 1
  | sumOpposite | oppositeSum | minusOpposite | oppositeOpposite | oppositeMinus | quotientOver | overQuotient
  | cancelFirst | cancelSecond | productOfPowers | tangent | cotangent | secant | cosecant | sineOdd
  | cosineEven =>
    simp only [elementary_binary, elementary_circular] at given ⊢
    simp [given]

end Shape

section Size

theorem Multiple.complexity {a x : Expr} {m : Gaussian} (multiple : Multiple a m x) :
    x.complexity ≤ a.complexity := by
  cases multiple with
  | single => exact le_rfl
  | scaled => simp only [complexity_binary]; omega

theorem scaled_complexity (z : Number) (x : Expr) : (scaled z x).complexity ≤ 2 + x.complexity := by
  unfold scaled
  split
  · change 1 ≤ _
    omega
  split
  · omega
  · simp only [complexity_binary, complexity_num]; omega

theorem Combined.complexity {op : BinaryOp} {f : Gaussian → Gaussian → Gaussian} {p q r : Expr}
    (combined : Combined op f p q r) : r.complexity ≤ 1 + (p.complexity + q.complexity) ∧
      ((p.isNumber && q.isNumber) = true → r.complexity = 1) := by
  cases combined with
  | numbers => simp
  | node symbolic => simp [symbolic]

/-- A base that two operands share is there once afterwards. -/
theorem Powered.complexity {op op' : BinaryOp} {f : Gaussian → Gaussian → Gaussian} {a b x p q r : Expr}
    (left : Powered a x p) (right : Powered b x q) (exponents : Combined op f p q r) :
    (Expr.binary .pow x r).complexity ≤ (Expr.binary op' a b).complexity := by
  have base := complexity_pos x
  have one : (1 : Expr).complexity = 1 := rfl
  obtain ⟨total, numbers⟩ := exponents.complexity
  cases left with
  | single =>
    cases right with
    | single =>
      have number := numbers rfl
      simp only [complexity_binary]
      omega
    | pow =>
      simp only [complexity_binary]
      omega
  | pow =>
    cases right with
    | single | pow =>
      simp only [complexity_binary]
      omega

theorem Rewrite.complexity_le {e r : Expr} (rewrite : Rewrite e r) : r.complexity ≤ e.complexity := by
  cases rewrite with
  | @collectSum a b x m n left right | @collectMinus a b x m n left right =>
    have first := left.complexity
    have second := right.complexity
    have base := complexity_pos x
    refine (scaled_complexity _ x).trans ?_
    simp only [complexity_binary]
    omega
  | mergePowers left right exponents | quotientOfPowers left right exponents =>
    exact left.complexity right exponents
  | powerOfPower x exponents =>
    have total := exponents.complexity.1
    simp only [complexity_binary, complexity_num] at total ⊢
    omega
  | pythagoras | pythagorasTurned => exact complexity_pos _
  | sumNumber | minusNumber | sumOpposite | oppositeSum | minusOpposite | oppositeOpposite | oppositeMinus
  | quotientOver | overQuotient | cancelFirst | cancelSecond | productOfPowers | tangent | cotangent | secant
  | cosecant | sineOdd | cosineEven =>
    simp only [complexity_binary, complexity_unary, complexity_num]
    omega

end Size
end ComputerAlgebra.Expr

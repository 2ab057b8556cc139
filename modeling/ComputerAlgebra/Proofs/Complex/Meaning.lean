import ComputerAlgebra.Proofs.Exact.Gaussian
import ComputerAlgebra.Proofs.Semantics.Ring
import Mathlib.Algebra.Ring.PUnit
import Mathlib.Analysis.SpecialFunctions.Pow.Complex
import Mathlib.Analysis.SpecialFunctions.Trigonometric.Basic

/-!
Elementary expressions and their meaning in the complex numbers. An assignment gives a complex number to
every variable. Powers are principal ones; of zero only the power to zero and those to an exponent with a
positive real part are defined. Quotients by zero and the poles of the circular functions are undefined, and
with them whatever they are parts of.
-/

namespace ComputerAlgebra

noncomputable def Gaussian.toComplex : Gaussian →+* ℂ where
  toFun z := z.re + z.im * Complex.I
  map_one' := by simp [QuadraticAlgebra.re_one, QuadraticAlgebra.im_one]
  map_zero' := by simp
  map_add' z w := by
    simp only [QuadraticAlgebra.re_add, QuadraticAlgebra.im_add, Rat.cast_add]
    ring
  map_mul' z w := by
    simp only [QuadraticAlgebra.re_mul, QuadraticAlgebra.im_mul]
    push_cast
    linear_combination (-z.im * w.im : ℂ) * Complex.I_sq

theorem Number.ofGaussian_injective : Function.Injective ofGaussian := by
  intro z w same
  have found : (ofGaussian z).gaussian? = some w := gaussian?_eq_some.mpr same
  exact Option.some.inj ((gaussian?_eq_some.mpr rfl).symm.trans found)

theorem Number.ofGaussian_isExact (z : Gaussian) : (ofGaussian z).isExact = true := by
  unfold ofGaussian
  split <;> rfl

theorem Number.ofGaussian_intCast (k : Int) : ofGaussian k = ofInt k := by
  rw [ofGaussian_real (by simp)]
  simp [ofInt, ofRat]

theorem Number.ofGaussian_numerals : Numerals ofGaussian where
  injective := ofGaussian_injective
  zero := rfl
  one := rfl
  minusOne := rfl
  isZero := by simp [ofGaussian_isZero]
  neg := neg_ofGaussian
  add := add_ofGaussian
  mul := mul_ofGaussian

/-- The principal power, of zero only to zero and to exponents with a positive real part. -/
noncomputable def principalPower? (x w : ℂ) : Option ℂ :=
  if x = 0 ∧ w ≠ 0 ∧ w.re ≤ 0 then none else some (x ^ w)

section Power
variable {x y w w' v v' : ℂ} {k : ℤ}

theorem principalPower?_eq_some :
    principalPower? x w = some v ↔ (x = 0 → w = 0 ∨ 0 < w.re) ∧ x ^ w = v := by
  by_cases undefined : x = 0 ∧ w ≠ 0 ∧ w.re ≤ 0
  · simp [principalPower?, undefined]
  · simp only [principalPower?, undefined, if_false, Option.some.injEq, iff_and_self]
    rintro - zero
    by_contra neither
    rw [not_or, not_lt] at neither
    exact undefined ⟨zero, neither⟩

theorem principalPower?_one (x : ℂ) : principalPower? x 1 = some x :=
  principalPower?_eq_some.mpr ⟨fun _ => .inr (by simp), Complex.cpow_one x⟩

/-- Powers of one base are multiplied by adding their exponents, of zero as well. -/
theorem principalPower?_add (first : principalPower? x w = some v) (second : principalPower? x w' = some v') :
    principalPower? x (w + w') = some (v * v') := by
  rw [principalPower?_eq_some] at first second ⊢
  obtain ⟨defined, rfl⟩ := first
  obtain ⟨defined', rfl⟩ := second
  by_cases zero : x = 0
  · subst zero
    rcases defined rfl with rfl | above
    · simpa using defined'
    rcases defined' rfl with rfl | above'
    · simpa using defined
    have sum : 0 < (w + w').re := by
      rw [Complex.add_re]
      exact add_pos above above'
    have apart {u : ℂ} (positive : 0 < u.re) : u ≠ 0 := by
      rintro rfl
      simp at positive
    refine ⟨fun _ => .inr sum, ?_⟩
    rw [Complex.zero_cpow (apart sum), Complex.zero_cpow (apart above), zero_mul]
  · exact ⟨fun same => absurd same zero, Complex.cpow_add w w' zero⟩

/-- Powers of one base are divided by subtracting their exponents, where the divisor is not zero. -/
theorem principalPower?_sub (first : principalPower? x w = some v) (second : principalPower? x w' = some v')
    (apart : v' ≠ 0) : principalPower? x (w - w') = some (v / v') := by
  rw [principalPower?_eq_some] at first second ⊢
  obtain ⟨defined, rfl⟩ := first
  obtain ⟨-, rfl⟩ := second
  by_cases zero : x = 0
  · obtain rfl : w' = 0 := (Complex.cpow_ne_zero_iff.mp apart).resolve_left (not_not.mpr zero)
    simpa using defined
  · exact ⟨fun same => absurd same zero, Complex.cpow_sub w w' zero⟩

/-- A whole power of a power has the product of the exponents. -/
theorem principalPower?_mul_int (inner : principalPower? x w = some v) (outer : principalPower? v k = some v') :
    principalPower? x (k * w) = some v' := by
  rw [principalPower?_eq_some] at inner outer ⊢
  obtain ⟨defined, rfl⟩ := inner
  obtain ⟨defined', rfl⟩ := outer
  refine ⟨fun zero => ?_, by rw [Complex.cpow_int_mul, Complex.cpow_intCast]⟩
  rcases defined zero with rfl | above
  · simp
  have apart : w ≠ 0 := by
    rintro rfl
    simp at above
  rcases defined' ((Complex.cpow_eq_zero_iff x w).mpr ⟨zero, apart⟩) with none | positive
  · simp [none]
  · right
    rw [Complex.intCast_re] at positive
    simpa using mul_pos positive above

/-- Whole powers to one exponent are multiplied by multiplying their bases. -/
theorem principalPower?_mul (first : principalPower? x k = some v) (second : principalPower? y k = some v') :
    principalPower? (x * y) k = some (v * v') := by
  rw [principalPower?_eq_some] at first second ⊢
  obtain ⟨defined, rfl⟩ := first
  obtain ⟨defined', rfl⟩ := second
  refine ⟨fun zero => (mul_eq_zero.mp zero).elim defined defined', ?_⟩
  simp only [Complex.cpow_intCast, mul_zpow]

end Power

noncomputable def Circular.meaning? : Circular → ℂ → Option ℂ
  | .sin, x => some (Complex.sin x)
  | .cos, x => some (Complex.cos x)
  | .tan, x => if Complex.cos x = 0 then none else some (Complex.sin x / Complex.cos x)
  | .cotan, x => if Complex.sin x = 0 then none else some (Complex.cos x / Complex.sin x)
  | .sec, x => if Complex.cos x = 0 then none else some (1 / Complex.cos x)
  | .cosec, x => if Complex.sin x = 0 then none else some (1 / Complex.sin x)
  | _, _ => none

noncomputable def BinaryOp.meaning? : BinaryOp → ℂ → ℂ → Option ℂ
  | .sum, x, y => some (x + y)
  | .minus, x, y => some (x - y)
  | .mul, x, y => some (x * y)
  | .div, x, y => if y = 0 then none else some (x / y)
  | .pow, x, y => principalPower? x y
  | _, _, _ => none

namespace Expr

/-- Sums, differences, products, quotients, powers and the circular functions over names and numbers of a
kind. -/
inductive Elementary (N : Number → Prop) : Expr → Prop
  | num {z : Number} (kind : N z) : Elementary N (.num z)
  | var (x : String) : Elementary N (.var x)
  | circular {f : Circular} {a : Expr} (direct : f ∈ [Circular.sin, .cos, .tan, .cotan, .sec, .cosec])
    (argument : Elementary N a) : Elementary N (.unary (.circular f) a)
  | binary {op : BinaryOp} {a b : Expr} (arithmetic : op ∈ [BinaryOp.sum, .minus, .mul, .div, .pow])
    (left : Elementary N a) (right : Elementary N b) : Elementary N (.binary op a b)

abbrev IsElementary : Expr → Prop := Elementary fun z => z.gaussian?.isSome = true

/-- The complex number that an expression stands for under an assignment, where it is defined. -/
noncomputable def meaning? (s : String → ℂ) : Expr → Option ℂ
  | .num z => z.gaussian?.map Gaussian.toComplex
  | .var x => some (if x = "pi" then Real.pi else if x = "e" then Complex.exp 1 else s x)
  | .unary (.circular f) a => (meaning? s a).bind f.meaning?
  | .binary op a b => (meaning? s a).bind fun x => (meaning? s b).bind fun y => op.meaning? x y
  | _ => none

section Meaning
variable {s : String → ℂ} {a b : Expr} {v : ℂ}

theorem meaning?_num {z : Number} :
    meaning? s (.num z) = some v ↔ ∃ g, z = .ofGaussian g ∧ g.toComplex = v := by
  change z.gaussian?.map Gaussian.toComplex = some v ↔ _
  simp [Number.gaussian?_eq_some]

theorem meaning?_circular {f : Circular} :
    meaning? s (.unary (.circular f) a) = some v ↔ ∃ x, meaning? s a = some x ∧ f.meaning? x = some v :=
  Option.bind_eq_some_iff

theorem meaning?_binary {op : BinaryOp} : meaning? s (.binary op a b) = some v ↔
    ∃ x, meaning? s a = some x ∧ ∃ y, meaning? s b = some y ∧ op.meaning? x y = some v := by
  change ((meaning? s a).bind fun x => (meaning? s b).bind fun y => op.meaning? x y) = some v ↔ _
  simp [Option.bind_eq_some_iff]

@[simp] theorem meaning?_sum : meaning? s (.binary .sum a b) = some v ↔
    ∃ x, meaning? s a = some x ∧ ∃ y, meaning? s b = some y ∧ x + y = v := by
  simp [meaning?_binary, BinaryOp.meaning?]

@[simp] theorem meaning?_minus : meaning? s (.binary .minus a b) = some v ↔
    ∃ x, meaning? s a = some x ∧ ∃ y, meaning? s b = some y ∧ x - y = v := by
  simp [meaning?_binary, BinaryOp.meaning?]

@[simp] theorem meaning?_mul : meaning? s (.binary .mul a b) = some v ↔
    ∃ x, meaning? s a = some x ∧ ∃ y, meaning? s b = some y ∧ x * y = v := by
  simp [meaning?_binary, BinaryOp.meaning?]

@[simp] theorem meaning?_div : meaning? s (.binary .div a b) = some v ↔
    ∃ x, meaning? s a = some x ∧ ∃ y, meaning? s b = some y ∧ y ≠ 0 ∧ x / y = v := by
  simp [meaning?_binary, BinaryOp.meaning?]

@[simp] theorem meaning?_pow : meaning? s (.binary .pow a b) = some v ↔
    ∃ x, meaning? s a = some x ∧ ∃ w, meaning? s b = some w ∧ principalPower? x w = some v := by
  simp [meaning?_binary, BinaryOp.meaning?]

/-- The meaning is a reading in the ring of complex numbers. -/
theorem meaning?_ring (s : String → ℂ) :
    RingReading Number.ofGaussian Gaussian.toComplex fun e v => meaning? s e = some v where
  numerals := Number.ofGaussian_numerals
  num := meaning?_num
  sum := meaning?_sum
  minus := meaning?_minus
  mul := meaning?_mul

@[simp] theorem meaning?_ofGaussian {g : Gaussian} : meaning? s (.num (.ofGaussian g)) = some v ↔ g.toComplex = v := by
  rw [meaning?_num]
  constructor
  · rintro ⟨h, same, rfl⟩
    rw [Number.ofGaussian_injective same]
  · rintro rfl
    exact ⟨g, rfl, rfl⟩

@[simp] theorem meaning?_one : meaning? s 1 = some v ↔ 1 = v := by
  rw [← map_one Gaussian.toComplex]
  exact meaning?_ofGaussian (g := 1)

@[simp] theorem meaning?_minusOne : meaning? s minusOne = some v ↔ -1 = v := by
  rw [← map_one Gaussian.toComplex, ← map_neg]
  exact meaning?_ofGaussian (g := -1)

end Meaning

section Elementary
variable {N N' : Number → Prop} {a b : Expr}

theorem Elementary.mono (weaker : ∀ z, N z → N' z) {e : Expr} (given : Elementary N e) : Elementary N' e := by
  induction given with
  | num kind => exact .num (weaker _ kind)
  | var x => exact .var x
  | circular direct _ ih => exact .circular direct ih
  | binary arithmetic _ _ left right => exact .binary arithmetic left right

theorem Elementary.part {e part : Expr} (given : Elementary N e) (member : part ∈ e.children) :
    Elementary N part := by
  cases given with
  | num | var => cases member
  | circular _ argument =>
    obtain rfl := List.mem_singleton.mp member
    exact argument
  | binary _ left right =>
    rcases List.mem_pair.mp member with rfl | rfl
    · exact left
    · exact right

theorem elementary_num {z : Number} : Elementary N (.num z) ↔ N z :=
  ⟨fun | .num kind => kind, .num⟩

theorem elementary_circular {f : Circular} : Elementary N (.unary (.circular f) a) ↔
    f ∈ [Circular.sin, .cos, .tan, .cotan, .sec, .cosec] ∧ Elementary N a :=
  ⟨fun | .circular direct argument => ⟨direct, argument⟩, fun ⟨direct, argument⟩ => .circular direct argument⟩

theorem elementary_binary {op : BinaryOp} : Elementary N (.binary op a b) ↔
    op ∈ [BinaryOp.sum, .minus, .mul, .div, .pow] ∧ Elementary N a ∧ Elementary N b :=
  ⟨fun | .binary arithmetic left right => ⟨arithmetic, left, right⟩,
    fun ⟨arithmetic, left, right⟩ => .binary arithmetic left right⟩

theorem isElementary_num {z : Number} : IsElementary (.num z) ↔ ∃ g, z = .ofGaussian g := by
  rw [IsElementary, elementary_num, Option.isSome_iff_exists]
  exact exists_congr fun g => Number.gaussian?_eq_some

/-- The homomorphism to the ring of one element. -/
def collapsed : Gaussian →+* Unit where
  toFun _ := ()
  map_one' := rfl
  map_mul' _ _ := rfl
  map_zero' := rfl
  map_add' _ _ := rfl

theorem isElementary_ring : RingReading Number.ofGaussian collapsed fun e _ => IsElementary e where
  numerals := Number.ofGaussian_numerals
  num := by simp [isElementary_num]
  sum := by simp [elementary_binary]
  minus := by simp [elementary_binary]
  mul := by simp [elementary_binary]

end Elementary
end Expr
end ComputerAlgebra

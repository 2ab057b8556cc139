import ComputerAlgebra.Evaluation.Function
import ComputerAlgebra.Proofs.Number.Canonical
import ComputerAlgebra.Proofs.Number.Total

/-!
Operations on numbers, in every mode of recognition. The opposite and the powers with whole exponents
never fail; sums, products and quotients fail only by a division by zero in the recognition of a
float, which exact operands have no need of, and which does not happen under division-free settings.
-/

namespace ComputerAlgebra.Number

variable {c : Config} {tolerance : Rat} {part : BigFloat} {depth : Int} {a b : Number}

theorem abs_succeeds_real {x : RealNumber} (regular : x.Regular) :
    Succeeds (abs c (.real x)) Regular := by
  have kept {y : RealNumber} (regular : y.Regular) : (Number.real y).Regular := ⟨regular, trivial⟩
  unfold abs
  dsimp only
  split
  · exact Succeeds.bind (RealNumber.neg_succeeds regular) fun _ opposite =>
      Succeeds.pure (kept opposite)
  · exact Succeeds.pure (kept regular)

/-- An absolute value is a root, found in floats under guard, of what arithmetic finds. -/
theorem abs_succeeds {P : RealNumber → Prop} (closed : RealNumber.Closed c P)
    (within : a.Within P) : Succeeds (abs c a) Regular := by
  cases a with
  | real x => exact abs_succeeds_real (closed.regular x within.1)
  | complex re im =>
    unfold abs
    dsimp only
    split
    · exact Succeeds.pure (regular_of_exact rfl)
    · refine Succeeds.bind (closed.mul re re within.1 within.1) fun square holds => ?_
      refine Succeeds.bind (closed.mul im im within.2 within.2) fun square' holds' => ?_
      refine Succeeds.bind (closed.add square square' holds holds') fun sum _ => ?_
      exact pow_succeeds closed.readable _ _

theorem signum_succeeds_real {x : RealNumber} : Succeeds (signum c (.real x)) Regular := by
  refine Succeeds.pure ?_
  split
  · exact regular_of_exact rfl
  split <;> exact regular_of_exact rfl

theorem signum_succeeds (usable : c.Usable) (regular : a.Regular) :
    Succeeds (signum c a) Regular := by
  have closed := RealNumber.regular_closed usable
  cases a with
  | real x => exact signum_succeeds_real
  | complex re im =>
    exact Succeeds.bind (abs_succeeds closed regular) fun size divisor =>
      div_succeeds closed regular divisor

/-- Operations on numbers return numbers. The opposite and whole powers are found under all settings
that can be read, and so are absolute values and signs of real numbers. Sums, differences, products,
quotients, absolute values and signs are found under division-free settings; for exact numbers, all
but the sign of a complex one are found under all settings. -/
theorem operations_answer (reads : c.Reads tolerance part depth) (left : a.Regular)
    (right : b.Regular) :
    Succeeds (neg c a) Regular ∧ (∀ n : Int, Succeeds (pow c a (ofInt n)) Regular) ∧
    (DivisionFree tolerance part depth ∨ a.Exact ∧ b.Exact →
      Succeeds (add c a b) Regular ∧ Succeeds (sub c a b) Regular ∧
      Succeeds (mul c a b) Regular ∧ Succeeds (div c a b) Regular) ∧
    (DivisionFree tolerance part depth ∨ a.Exact ∨ a.isReal = true → Succeeds (abs c a) Regular) ∧
    (DivisionFree tolerance part depth ∨ a.isReal = true → Succeeds (signum c a) Regular) := by
  have readable := reads.readable
  have everywhere {P : RealNumber → Prop} (closed : RealNumber.Closed c P) (left : a.Within P)
      (right : b.Within P) : Succeeds (add c a b) Regular ∧ Succeeds (sub c a b) Regular ∧
        Succeeds (mul c a b) Regular ∧ Succeeds (div c a b) Regular := by
    have regular {m : Computation Number} (given : Succeeds m (Within P)) : Succeeds m Regular :=
      given.mono fun _ within => within.mono closed.regular
    exact ⟨regular (add_succeeds closed left right), regular (sub_succeeds closed left right),
      regular (mul_succeeds closed left right), regular (div_succeeds closed left right)⟩
  refine ⟨neg_succeeds readable left, fun n => pow_succeeds readable a _, ?_, ?_, ?_⟩
  · rintro (free | ⟨exact, exact'⟩)
    · exact everywhere (RealNumber.regular_closed (reads.usable free)) left right
    · exact everywhere (RealNumber.exact_closed readable) (within_exact exact) (within_exact exact')
  · rintro (free | exact | real)
    · exact abs_succeeds (RealNumber.regular_closed (reads.usable free)) left
    · exact abs_succeeds (RealNumber.exact_closed readable) (within_exact exact)
    · cases a with
      | real x => exact abs_succeeds_real left.1
      | complex => cases real
  · rintro (free | real)
    · exact signum_succeeds (reads.usable free) left
    · cases a with
      | real x => exact signum_succeeds_real
      | complex => cases real

/-- A quotient of complex numbers with a float and an infinite part under the default settings. -/
theorem operations_answer_quotient :
    let z : Number := .complex (.float (.ofOdd 6369051672525773 52 rfl)) (.infinity true)
    let w : Number := .complex (.rational 1) (.float (.ofOdd 6369051672525773 52 rfl))
    Config.default.Reads (1 / tenTo 16) (.finite (tenTo 8 : Int)) 15 ∧ z.Regular ∧ w.Regular ∧
      DivisionFree (1 / tenTo 16) (.finite (tenTo 8 : Int)) 15 ∧ Succeeds (div .default z w) Regular := by
  intro z w
  have root : (RealNumber.float (.ofOdd 6369051672525773 52 rfl)).Regular := by
    change Dyadic.ofOdd 6369051672525773 52 rfl ≠ 0
    decide
  have left : z.Regular := ⟨root, trivial⟩
  have right : w.Regular := ⟨trivial, root⟩
  have free := Config.default_divisionFree
  have answers := operations_answer Config.default_reads left right
  exact ⟨Config.default_reads, left, right, free, (answers.2.2.1 (.inl free)).2.2.2⟩

def withoutTolerance : Config where
  zeroTolerance := .int 0
  sound := by decide +kernel

/-- Without a tolerance the recognition of the float one divides by its remainder, which is zero: the
root of two cannot be divided by itself. -/
theorem root_quotient_fails : withoutTolerance.Reads 0 (.finite (tenTo 8 : Int)) 15 ∧
    ∃ (root : Number) (u : FloatUnit), sqrt withoutTolerance 2 ⟨15⟩ = .ok root u ∧ root.Regular ∧
      (div withoutTolerance root root).answer u = .error .divisionByZero := by
  have reads : withoutTolerance.Reads 0 (.finite (tenTo 8 : Int)) 15 :=
    ⟨by decide +kernel, by decide +kernel, by decide +kernel, by decide +kernel⟩
  obtain ⟨root, u, found, regular⟩ := pow_succeeds reads.readable 2 half ⟨15⟩
  have failed : (do
      let root ← sqrt withoutTolerance 2
      div withoutTolerance root root : Computation Number).answer ⟨15⟩ = .error .divisionByZero := by
    decide +kernel
  have first : sqrt withoutTolerance 2 ⟨15⟩ = .ok root u := found
  rw [Computation.answer, Computation.bind_ok first] at failed
  exact ⟨reads, root, u, first, regular, failed⟩

end ComputerAlgebra.Number

/-!
The functions of numbers never fail where the settings can be used. What is computed in floats has a value
or is undefined, and undefined values are numbers; the rest is arithmetic.
-/

namespace ComputerAlgebra

/-- Settings under which nothing is asked for in vain: floats are recognised or kept, and there are a
tolerance of equality and a bound on terms. -/
structure Config.Complete (c : Config) : Prop extends c.Usable where
  equality : ∃ t, c.equalityBound = .ok t
  expansion : ∃ limit, c.expansionBound = .ok limit

theorem Config.default_complete : Config.default.Complete where
  toUsable := default_usable
  equality := ⟨_, rfl⟩
  expansion := ⟨_, rfl⟩

namespace Number

variable {c : Config} {z w : Number}

section Readable
variable (readable : c.Readable)
include readable

theorem ln_succeeds (z : Number) : Succeeds (ln c z) Regular := by
  unfold ln
  split
  · exact Succeeds.pure (regular_of_exact rfl)
  split
  · exact Succeeds.pure (regular_of_exact rfl)
  split
  · exact Succeeds.pure (regular_of_exact rfl)
  · exact ofComputation_succeeds readable _

theorem sin_succeeds (z : Number) : Succeeds (sin c z) Regular := by
  unfold sin
  split
  · exact Succeeds.pure (regular_of_exact rfl)
  split
  · exact Succeeds.pure (regular_of_exact rfl)
  · exact ofComputation_succeeds readable _

theorem cos_succeeds (z : Number) : Succeeds (cos c z) Regular := by
  unfold cos
  split
  · exact Succeeds.pure (regular_of_exact rfl)
  split
  · exact Succeeds.pure (regular_of_exact rfl)
  · exact ofComputation_succeeds readable _

/-- A function that is undefined at NaN and computed in floats everywhere else. -/
private theorem computed_succeeds (z : Number) (x : Option ComplexFloat) :
    Succeeds (if z.isNaN then return nan else ofComputation c x) Regular := by
  split
  · exact Succeeds.pure (regular_of_exact rfl)
  · exact ofComputation_succeeds readable x

theorem arcsin_succeeds (z : Number) : Succeeds (arcsin c z) Regular := computed_succeeds readable z _

theorem arccos_succeeds (z : Number) : Succeeds (arccos c z) Regular := computed_succeeds readable z _

theorem arctan_succeeds (z : Number) : Succeeds (arctan c z) Regular := computed_succeeds readable z _

theorem factorial_succeeds (z : Number) : Succeeds (factorial c z) Regular := by
  unfold factorial
  split
  · exact Succeeds.pure (regular_of_exact rfl)
  dsimp only
  split
  · split
    · exact Succeeds.pure (regular_of_exact rfl)
    split
    · exact Succeeds.pure (regular_of_exact rfl)
    · exact ofComputation_succeeds readable _
  · exact ofComputation_succeeds readable _

end Readable

section Usable
variable (usable : c.Usable)
include usable

private theorem quotient_succeeds {m n : Computation Number} (dividend : Succeeds m Regular)
    (divisor : Succeeds n Regular) : Succeeds (do div c (← m) (← n)) Regular :=
  Succeeds.bind dividend fun _ left => Succeeds.bind divisor fun _ right =>
    div_succeeds (RealNumber.regular_closed usable) left right

theorem log_succeeds (base z : Number) : Succeeds (log c base z) Regular := by
  unfold log
  split
  · exact Succeeds.pure (regular_of_exact rfl)
  split
  · exact Succeeds.pure (regular_of_exact rfl)
  · exact quotient_succeeds usable (ln_succeeds usable.toReadable z) (ln_succeeds usable.toReadable base)

theorem circular_succeeds (f : Circular) (regular : z.Regular) : Succeeds (f.compute c z) Regular := by
  have readable := usable.toReadable
  have one : Regular 1 := regular_of_exact rfl
  have reciprocal {m : Computation Number} (divisor : Succeeds m Regular) :
      Succeeds (do div c 1 (← m)) Regular :=
    Succeeds.bind divisor fun _ right => div_succeeds (RealNumber.regular_closed usable) one right
  have inverted {g : Number → Computation Number} (each : ∀ w, Succeeds (g w) Regular) :
      Succeeds (do g (← div c 1 z)) Regular :=
    Succeeds.bind (div_succeeds (RealNumber.regular_closed usable) one regular) fun w _ => each w
  cases f with
  | sin => exact sin_succeeds readable z
  | cos => exact cos_succeeds readable z
  | tan => exact quotient_succeeds usable (sin_succeeds readable z) (cos_succeeds readable z)
  | cotan => exact quotient_succeeds usable (cos_succeeds readable z) (sin_succeeds readable z)
  | sec => exact reciprocal (cos_succeeds readable z)
  | cosec => exact reciprocal (sin_succeeds readable z)
  | arcsin => exact arcsin_succeeds readable z
  | arccos => exact arccos_succeeds readable z
  | arctan => exact arctan_succeeds readable z
  | arccotan => exact inverted (arctan_succeeds readable)
  | arcsec => exact inverted (arccos_succeeds readable)
  | arccosec => exact inverted (arcsin_succeeds readable)

theorem constant_succeeds {name : String} (known : Expr.isConstantName name = true) :
    Succeeds (constant c name) Regular := by
  have wrapped (x : BigFloat) : Succeeds (do return Number.real (← RealNumber.ofFloat c x)) Regular :=
    Succeeds.bind (RealNumber.ofFloat_succeeds usable x) fun _ regular => Succeeds.pure ⟨regular, trivial⟩
  refine Succeeds.bind (Succeeds.settle usable.precise) fun _ _ => ?_
  split
  · exact wrapped _
  · exact wrapped _
  · next pi e =>
    have named : name = "pi" ∨ name = "e" := by simpa [Expr.isConstantName] using known
    exact (named.elim pi e).elim

theorem closeWithin_succeeds {tolerance : Except Fault Rat} (given : ∃ t, tolerance = .ok t)
    (left : z.Regular) (right : w.Regular) : Succeeds (closeWithin c tolerance z w) fun _ => True := by
  have closed := RealNumber.regular_closed usable
  obtain ⟨t, rfl⟩ := given
  unfold closeWithin
  split
  · exact Succeeds.pure trivial
  split
  · exact Succeeds.pure trivial
  refine Succeeds.bind (sub_succeeds closed left right) fun _ difference => ?_
  refine Succeeds.bind (abs_succeeds closed difference) fun distance _ => ?_
  refine Succeeds.bind (P := fun _ => True) (Succeeds.pure trivial) fun _ _ => ?_
  exact RealNumber.holds_succeeds usable.toReadable _ _

end Usable

end Number
end ComputerAlgebra

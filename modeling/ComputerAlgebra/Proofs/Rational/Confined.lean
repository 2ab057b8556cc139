import ComputerAlgebra.Proofs.Exact.Total
import ComputerAlgebra.Proofs.Expr.Filling
import ComputerAlgebra.Proofs.Rational.Codomain

/-!
Values within a codomain. An expression attains a value at an assignment when it has it there and no operation
on the way leaves the codomain of the settings. With fractions filled in for its variables an expression
evaluates to the value that it attains, and to NaN where it attains none.
-/

namespace ComputerAlgebra.Expr

variable {c : Config} {ρ : Assignment} {S : String → Prop} {op : BinaryOp} {a b e : Expr} {v x y : Rat}

inductive IsArithmeticOver (S : String → Prop) : Expr → Prop
  | number {z : Number} (exact : z.ExactReal) : IsArithmeticOver S (.num z)
  | var {x : String} (plain : isConstantName x = false) (member : S x) : IsArithmeticOver S (.var x)
  | operation {op : BinaryOp} {a b : Expr} (known : op ∈ BinaryOp.arithmetic) (left : IsArithmeticOver S a)
    (right : IsArithmeticOver S b) (exponent : op = .pow → ∃ n : Int, b = .num (.ofInt n)) :
    IsArithmeticOver S (.binary op a b)

theorem IsRational.arithmeticOver (rational : IsRational e) : (∀ x ∈ e.names, S x) → IsArithmeticOver S e := by
  have parts {op : BinaryOp} {a b part : Expr} (member : part ∈ [a, b])
      (all : ∀ y ∈ (Expr.binary op a b).names, S y) : ∀ y ∈ part.names, S y :=
    fun y named => all y (names_child member named)
  induction rational with
  | num q => exact fun _ => .number (.real rfl)
  | @var x plain => exact fun all => .var plain (all x (by simp))
  | sum _ _ iha ihb | minus _ _ iha ihb | mul _ _ iha ihb | div _ _ iha ihb =>
    exact fun all => .operation (by decide) (iha (parts (by simp) all)) (ihb (parts (by simp) all)) nofun
  | pow _ n ih =>
    exact fun all => .operation (by decide) (ih (parts (by simp) all)) (.number (.real rfl)) fun _ => ⟨n, rfl⟩

namespace IsArithmeticOver

theorem known (arithmetic : IsArithmeticOver S (.binary op a b)) : op ∈ BinaryOp.arithmetic := by
  cases arithmetic with
  | operation known => exact known

theorem operands (arithmetic : IsArithmeticOver S (.binary op a b)) : IsArithmeticOver S a ∧ IsArithmeticOver S b := by
  cases arithmetic with
  | operation _ left right => exact ⟨left, right⟩

theorem part (arithmetic : IsArithmeticOver S e) : ∀ part ∈ e.children, IsArithmeticOver S part := by
  intro part member
  cases arithmetic with
  | number | var => cases member
  | operation _ left right => rcases List.mem_pair.mp member with rfl | rfl <;> assumption

theorem condition (arithmetic : IsArithmeticOver S e) : e.condition = none := by
  cases arithmetic <;> rfl

end IsArithmeticOver

/-- The expression has the value at the assignment, and every operation in it a value of the codomain. -/
inductive Attains (c : Config) (ρ : Assignment) : Expr → Rat → Prop
  | number (q : Rat) : Attains c ρ (.num (.ofRat q)) q
  | var {x : String} {q : Rat} (plain : isConstantName x = false) (given : ρ x = some q) : Attains c ρ (.var x) q
  | operation {op : BinaryOp} {a b : Expr} {x y v : Rat} (left : Attains c ρ a x) (right : Attains c ρ b y)
    (value : valueAt? ρ (.binary op a b) = some v) (inside : numberFits (.ofRat v) c.codomain = true) :
    Attains c ρ (.binary op a b) v

theorem Attains.value (attained : Attains c ρ e v) : valueAt? ρ e = some v := by
  cases attained with
  | number => rfl
  | var plain given => exact valueAt?_var.mpr ⟨plain, given⟩
  | operation _ _ value => exact value

theorem attains_number {z : Number} (value : valueAt? ρ (.num z) = some v) : Attains c ρ (.num z) v := by
  rw [valueAt?_num.mp value]
  exact .number v

theorem Attains.inside (attained : Attains c ρ (.binary op a b) v) : numberFits (.ofRat v) c.codomain = true := by
  cases attained with
  | operation _ _ _ inside => exact inside

theorem Attains.operands (attained : Attains c ρ (.binary op a b) v) :
    (∃ x, Attains c ρ a x) ∧ ∃ y, Attains c ρ b y := by
  cases attained with
  | operation left right => exact ⟨⟨_, left⟩, _, right⟩

theorem value_arithmetic (value : valueAt? ρ (.binary op a b) = some v) : op ∈ BinaryOp.arithmetic := by
  cases op with
  | sum | minus | mul | div | pow => decide
  | log | and | or | xor | implies | equals | order | mem => simp [valueAt?] at value

/-- The value of an operation is a matter of the values of its operands, and of the exponent. -/
theorem valueAt?_operands {a' b' : Expr} (known : op ∈ BinaryOp.arithmetic) (left : valueAt? ρ a' = valueAt? ρ a)
    (right : valueAt? ρ b' = valueAt? ρ b) (exponent : op = .pow → b' = b) :
    valueAt? ρ (.binary op a' b') = valueAt? ρ (.binary op a b) := by
  rcases BinaryOp.arithmetic_cases known with rfl | rfl | rfl | rfl | rfl
  · simp only [valueAt?, left, right]
  · simp only [valueAt?, left, right]
  · simp only [valueAt?, left, right]
  · simp only [valueAt?, left, right]
  · rw [exponent rfl]
    simp only [valueAt?, left]

section Closed

/-- An operator gives the value of its operands when that is in the codomain. -/
theorem literalValue_attained (known : op ∈ BinaryOp.arithmetic)
    (value : valueAt? ρ (.binary op (.num (.ofRat x)) (.num (.ofRat y))) = some v)
    (inside : numberFits (.ofRat v) c.codomain = true) :
    literalValue c op (.ofRat x) (.ofRat y) = pure (.ofRat v) := by
  obtain ⟨d, decided⟩ := condition?_literal (c := c) known (.ofRat x) (.ofRat y)
  have defined : d ≠ some false := by
    have returned : Returns (condition? c (.binary op (.num (.ofRat x)) (.num (.ofRat y))) _) fun d => d ≠ some false :=
      condition?_value value
    rw [decided] at returned
    exact returned ⟨0⟩ d ⟨0⟩ rfl
  simp only [literalValue, decided, pure_bind, if_neg defined, compute?_value value, Option.getD_some, inside, if_true]

private theorem confined_spec {q : Option Rat} :
    confined c q = some v ↔ q = some v ∧ numberFits (.ofRat v) c.codomain = true := by
  simp [confined, Option.filter_eq_some_iff]

/-- An operator gives a fraction or NaN; a fraction is the value of its operands and in the codomain. -/
theorem literalValue_ofValue (known : op ∈ BinaryOp.arithmetic) (p q : Option Rat)
    (exponent : op = .pow → ∃ n : Int, q = some (n : Rat)) :
    ∃ w, literalValue c op (.ofValue p) (.ofValue q) = pure (.ofValue w) ∧ ∀ v, w = some v →
      ∃ x y, p = some x ∧ q = some y ∧ numberFits (.ofRat v) c.codomain = true ∧
        valueAt? ρ (.binary op (.num (.ofRat x)) (.num (.ofRat y))) = some v := by
  rcases BinaryOp.arithmetic_cases known with rfl | rfl | rfl | rfl | rfl
  · refine ⟨_, literalValue_sum p q, fun v found => ?_⟩
    obtain ⟨known, inside⟩ := confined_spec.mp found
    obtain ⟨x, rfl, y, rfl, rfl⟩ : ∃ x, p = some x ∧ ∃ y, q = some y ∧ x + y = v := by
      simpa [Option.bind_eq_some_iff] using known
    exact ⟨x, y, rfl, rfl, inside, rfl⟩
  · refine ⟨_, literalValue_minus p q, fun v found => ?_⟩
    obtain ⟨known, inside⟩ := confined_spec.mp found
    obtain ⟨x, rfl, y, rfl, rfl⟩ : ∃ x, p = some x ∧ ∃ y, q = some y ∧ x - y = v := by
      simpa [Option.bind_eq_some_iff] using known
    exact ⟨x, y, rfl, rfl, inside, rfl⟩
  · refine ⟨_, literalValue_mul p q, fun v found => ?_⟩
    obtain ⟨known, inside⟩ := confined_spec.mp found
    obtain ⟨x, rfl, y, rfl, rfl⟩ : ∃ x, p = some x ∧ ∃ y, q = some y ∧ x * y = v := by
      simpa [Option.bind_eq_some_iff] using known
    exact ⟨x, y, rfl, rfl, inside, rfl⟩
  · refine ⟨_, literalValue_div p q, fun v found => ?_⟩
    obtain ⟨known, inside⟩ := confined_spec.mp found
    obtain ⟨x, rfl, y, rfl, rest⟩ : ∃ x, p = some x ∧ ∃ y, q = some y ∧ quotient? x y = some v := by
      simpa [Option.bind_eq_some_iff] using known
    exact ⟨x, y, rfl, rfl, inside, rest⟩
  · obtain ⟨n, rfl⟩ := exponent rfl
    refine ⟨_, literalValue_pow p n, fun v found => ?_⟩
    obtain ⟨known, inside⟩ := confined_spec.mp found
    obtain ⟨x, rfl, rest⟩ : ∃ x, p = some x ∧ power? x n = some v := by
      simpa [Option.bind_eq_some_iff] using known
    refine ⟨x, n, rfl, rfl, inside, valueAt?_pow.mpr ⟨n, rfl, x, valueAt?_ofRat.mpr rfl, ?_⟩⟩
    exact power?_eq_some.mp rest

/-- What attains a value evaluates to it when fractions are filled in for its variables. -/
theorem evaluateWithin_attained {f : String → Option Expr} (given : ∀ x q, ρ x = some q → f x = some (.num (.ofRat q)))
    (fuel : Nat) (attained : Attains c ρ e v) : evaluateWithin c (fuel + 1) (e.fill f) = pure (.num (.ofRat v)) := by
  change foldM (evaluateNode c (evaluateWithin c fuel)) (e.fill f) = _
  induction attained with
  | number q => rfl
  | var plain assigned =>
    rw [fill_var, given _ _ assigned]
    rfl
  | @operation op a b x y v left right value inside iha ihb =>
    have known := value_arithmetic value
    have same : valueAt? ρ (.binary op (.num (.ofRat x)) (.num (.ofRat y))) = some v := by
      rw [← value]
      refine valueAt?_operands known (left.value ▸ rfl) (right.value ▸ rfl) fun power => ?_
      subst power
      obtain ⟨n, rfl, -⟩ := valueAt?_pow.mp value
      rw [(valueAt?_ofRat.mp right.value : y = n)]
      rfl
    rw [fill_binary, foldM, iha, ihb, pure_bind, pure_bind, evaluateNode_literal _ known,
      literalValue_attained known same inside]
    rfl

/-- With fractions for its variables a rational expression evaluates to a fraction or NaN, and to a fraction only
where it attains that. -/
theorem evaluateWithin_rational {f : String → Option Expr} (fuel : Nat) (rational : IsRational e) :
    (∀ x ∈ e.names, ∃ q, f x = some (.num (.ofRat q)) ∧ ρ x = some q) →
    ∃ w, evaluateWithin c (fuel + 1) (e.fill f) = pure (.num (.ofValue w)) ∧ ∀ v, w = some v → Attains c ρ e v := by
  change _ → ∃ w, foldM (evaluateNode c (evaluateWithin c fuel)) (e.fill f) = _ ∧ _
  have operation {op : BinaryOp} {a b : Expr} (known : op ∈ BinaryOp.arithmetic) {p q : Option Rat}
      (exponent : op = .pow → ∃ n : Int, b = .num (.ofInt n) ∧ q = some (n : Rat))
      (first : foldM (evaluateNode c (evaluateWithin c fuel)) (a.fill f) = pure (.num (.ofValue p)))
      (attainsa : ∀ v, p = some v → Attains c ρ a v)
      (second : foldM (evaluateNode c (evaluateWithin c fuel)) (b.fill f) = pure (.num (.ofValue q)))
      (attainsb : ∀ v, q = some v → Attains c ρ b v) :
      ∃ w, foldM (evaluateNode c (evaluateWithin c fuel)) ((Expr.binary op a b).fill f) = pure (.num (.ofValue w)) ∧
        ∀ v, w = some v → Attains c ρ (.binary op a b) v := by
    obtain ⟨w, computed, found⟩ := literalValue_ofValue (c := c) (ρ := ρ) known p q
      fun power => (exponent power).imp fun _ both => both.2
    refine ⟨w, ?_, fun v known' => ?_⟩
    · rw [fill_binary, foldM, first, second, pure_bind, pure_bind, evaluateNode_literal _ known, computed]
      rfl
    · obtain ⟨x, y, rfl, rfl, inside, result⟩ := found v known'
      have left := attainsa x rfl
      have right := attainsb y rfl
      refine .operation left right ?_ inside
      rw [← result]
      refine (valueAt?_operands known (left.value ▸ rfl) (right.value ▸ rfl) fun power => ?_).symm
      obtain ⟨n, rfl, same⟩ := exponent power
      rw [Option.some.inj same]
      rfl
  have parts {op : BinaryOp} {a b part : Expr} (member : part ∈ [a, b])
      (all : ∀ x ∈ (Expr.binary op a b).names, ∃ q, f x = some (.num (.ofRat q)) ∧ ρ x = some q) :
      ∀ x ∈ part.names, ∃ q, f x = some (.num (.ofRat q)) ∧ ρ x = some q :=
    fun y named => all y (names_child member named)
  induction rational with
  | num q =>
    refine fun _ => ⟨some q, rfl, ?_⟩
    rintro v ⟨rfl⟩
    exact .number q
  | @var x plain =>
    intro all
    obtain ⟨q, filled, assigned⟩ := all x (by simp)
    refine ⟨some q, by rw [fill_var, filled]; rfl, ?_⟩
    rintro v ⟨rfl⟩
    exact .var plain assigned
  | sum _ _ iha ihb | minus _ _ iha ihb | mul _ _ iha ihb | div _ _ iha ihb =>
    intro all
    obtain ⟨p, first, attainsa⟩ := iha (parts (by simp) all)
    obtain ⟨q, second, attainsb⟩ := ihb (parts (by simp) all)
    exact operation (by decide) (by simp) first attainsa second attainsb
  | pow _ n ih =>
    intro all
    obtain ⟨p, first, attainsa⟩ := ih (parts (by simp) all)
    refine operation (by decide) (fun _ => ⟨n, rfl, rfl⟩) first attainsa rfl ?_
    rintro v ⟨rfl⟩
    exact .number n

/-- Exact real numbers give exact real numbers, powers with whole exponents among them. -/
theorem compute?_exactReal (precise : c.precisionFault? = none) (known : op ∈ BinaryOp.arithmetic) {x y : Number}
    (left : x.ExactReal) (right : y.ExactReal) (exponent : op = .pow → ∃ n : Int, y = .ofInt n) :
    Succeeds (op.compute? c x y) fun r => ∃ z, r = some z ∧ z.ExactReal := by
  have wrapped {m : Computation Number} (given : Succeeds m Number.ExactReal) :
      Succeeds (do return some (← m)) fun r => ∃ z, r = some z ∧ z.ExactReal :=
    Succeeds.bind given fun z exact => Succeeds.pure ⟨z, rfl, exact⟩
  rcases BinaryOp.arithmetic_cases known with rfl | rfl | rfl | rfl | rfl
  · exact wrapped (left.add precise right)
  · exact wrapped (left.sub precise right)
  · exact wrapped (left.mul precise right)
  · exact wrapped (left.div precise right)
  · obtain ⟨n, rfl⟩ := exponent rfl
    exact wrapped (left.pow_ofInt precise n)

/-- With numbers filled in for all variables arithmetic evaluates to a number. -/
theorem evaluateWithin_number (precise : c.precisionFault? = none) {f : String → Option Expr} (fuel : Nat)
    (arithmetic : IsArithmeticOver S e) (given : ∀ x, S x → ∃ q, f x = some (.num (.ofRat q))) :
    Succeeds (evaluateWithin c (fuel + 1) (e.fill f)) fun r => ∃ z, r = .num z := by
  have walk : Succeeds (foldM (evaluateNode c (evaluateWithin c fuel)) (e.fill f)) fun r =>
      ∃ z : Number, r = .num z ∧ z.ExactReal ∧ ∀ w, e = .num w → z = w := by
    induction arithmetic with
    | number exact => exact Succeeds.pure ⟨_, rfl, exact, fun _ same => Expr.num.inj same⟩
    | @var x plain member =>
      obtain ⟨q, filled⟩ := given x member
      rw [fill_var, filled]
      exact Succeeds.pure ⟨_, rfl, .real rfl, fun _ same => Expr.noConfusion same⟩
    | @operation op a b known _ _ exponent iha ihb =>
      rw [fill_binary, foldM]
      refine Succeeds.bind iha ?_
      rintro _ ⟨z, rfl, left, -⟩
      refine Succeeds.bind ihb ?_
      rintro _ ⟨w, rfl, right, literal⟩
      rw [evaluateNode_literal _ known]
      have whole (power : op = .pow) : ∃ n : Int, w = .ofInt n := (exponent power).imp fun _ same => literal _ same
      have computed := compute?_exactReal precise known left right whole
      exact Succeeds.map ((literalValue_computed known (.real rfl) computed).mono
        fun r exact => ⟨r, rfl, exact, fun _ same => Expr.noConfusion same⟩)
  exact walk.mono fun r found => found.imp fun _ both => both.1

end Closed
end ComputerAlgebra.Expr

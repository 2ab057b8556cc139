import ComputerAlgebra.Proofs.Evaluation.Basic
import ComputerAlgebra.Proofs.Exact.Arithmetic

/-!
Evaluation of arithmetic on exact numbers without variables. It computes a number operator by
operator, and the number is the same whatever digits the float unit starts with.
-/

namespace ComputerAlgebra

def BinaryOp.arithmetic : List BinaryOp := [.sum, .minus, .mul, .div, .pow]

theorem BinaryOp.arithmetic_cases {op : BinaryOp} (known : op ∈ BinaryOp.arithmetic) :
    op = .sum ∨ op = .minus ∨ op = .mul ∨ op = .div ∨ op = .pow := by
  simpa [BinaryOp.arithmetic] using known

namespace Expr

variable (c : Config)

inductive IsClosedArithmetic : Expr → Prop
  | num {z : Number} (exact : z.Exact) : IsClosedArithmetic (.num z)
  | operation {op : BinaryOp} {a b : Expr} (known : op ∈ BinaryOp.arithmetic)
    (left : IsClosedArithmetic a) (right : IsClosedArithmetic b) :
    IsClosedArithmetic (.binary op a b)

/-- The number that an operator gives for two numbers, NaN where it is undefined or leaves the
domain of the settings. -/
def literalValue (op : BinaryOp) (x y : Number) : Computation Number := do
  if (← condition? c (.binary op (.num x) (.num y)) [.num x, .num y]) = some false then return .nan
  let value ← op.compute? c x y
  let z := value.getD .nan
  return if numberFits z c.codomain then z else .nan

def closedValue : Expr → Computation Number
  | .num z => return z
  | .binary op a b => do
    let x ← closedValue a
    let y ← closedValue b
    literalValue c op x y
  | _ => return .nan

variable {c} {op : BinaryOp} {x y : Number}

/-- Whether an operator is defined at two numbers takes no floats. -/
theorem condition?_literal (known : op ∈ BinaryOp.arithmetic) (x y : Number) :
    ∃ d, ∀ a b, condition? c (.binary op a b) [.num x, .num y] = pure d := by
  rcases BinaryOp.arithmetic_cases known with rfl | rfl | rfl | rfl | rfl
  · exact ⟨_, fun _ _ => rfl⟩
  · exact ⟨_, fun _ _ => rfl⟩
  · exact ⟨_, fun _ _ => rfl⟩
  · cases zero : (Expr.num y).isZero with
    | true => exact ⟨some false, fun _ _ => by simp [condition?, zero]⟩
    | false => exact ⟨some true, fun _ _ => by simp [condition?, zero, isSet, isNumber, number?]⟩
  · exact ⟨_, fun _ _ => rfl⟩

theorem compute?_uniform (known : op ∈ BinaryOp.arithmetic) (left : x.Exact) (right : y.Exact) :
    Uniform (fun r => ∀ z, r = some z → z.Exact) (op.compute? c x y) := by
  have wrapped {m : Computation Number} (given : Uniform Number.Exact m) :
      Uniform (fun r => ∀ z, r = some z → z.Exact) (do return some (← m)) := by
    refine Uniform.bind given fun z exact => Uniform.pure ?_
    rintro _ ⟨rfl⟩
    exact exact
  rcases BinaryOp.arithmetic_cases known with rfl | rfl | rfl | rfl | rfl
  · exact wrapped (Number.add_uniform c left right)
  · exact wrapped (Number.sub_uniform c left right)
  · exact wrapped (Number.mul_uniform c x y)
  · exact wrapped (Number.div_uniform c left right)
  · exact wrapped (Number.pow_uniform c x y)

theorem literalValue_uniform (known : op ∈ BinaryOp.arithmetic) (left : x.Exact) (right : y.Exact) :
    Uniform Number.Exact (literalValue c op x y) := by
  obtain ⟨d, decided⟩ := condition?_literal (c := c) known x y
  unfold literalValue
  rw [decided, pure_bind]
  split
  · exact Uniform.pure rfl
  refine Uniform.bind (compute?_uniform known left right) fun r exact => Uniform.pure ?_
  split
  · cases r with
    | none => rfl
    | some z => exact exact z rfl
  · rfl

/-- The number of a closed expression does not depend on the digits that the float unit starts with.
-/
theorem closedValue_uniform {e : Expr} (closed : IsClosedArithmetic e) :
    Uniform Number.Exact (closedValue c e) := by
  induction closed with
  | num exact => exact Uniform.pure exact
  | operation known _ _ iha ihb =>
    refine Uniform.bind iha fun x left => ?_
    exact Uniform.bind ihb fun y right => literalValue_uniform known left right

/-- A finite number that an operator gives is within the domain of the settings. -/
theorem literalValue_fits : Returns (literalValue c op x y) fun z =>
    z.isFinite = true → numberFits z c.codomain = true := by
  refine Returns.bind Returns.trivial fun d _ => ?_
  split
  · exact Returns.pure fun finite => by cases finite
  refine Returns.bind Returns.trivial fun r _ => Returns.pure ?_
  split
  · next inside => exact fun _ => inside
  · exact fun finite => by cases finite

theorem compute?_total (known : op ∈ BinaryOp.arithmetic) (x y : Number) :
    ∃ m : Computation Number, op.compute? c x y = some <$> m := by
  rcases BinaryOp.arithmetic_cases known with rfl | rfl | rfl | rfl | rfl
  · exact ⟨_, rfl⟩
  · exact ⟨_, rfl⟩
  · exact ⟨_, rfl⟩
  · exact ⟨_, rfl⟩
  · exact ⟨_, rfl⟩

theorem binaryRule?_literal (evaluate : Expr → Computation Expr) (known : op ∈ BinaryOp.arithmetic)
    (x y : Number) : binaryRule? c evaluate op (.num x) (.num y) =
      do return (← op.compute? c x y).map Expr.num := by
  rcases BinaryOp.arithmetic_cases known with rfl | rfl | rfl | rfl | rfl <;> rfl

theorem arithmetic_codomain (known : op ∈ BinaryOp.arithmetic) {a b : Expr} :
    (Expr.binary op a b).codomain c = c.codomain := by
  rcases BinaryOp.arithmetic_cases known with rfl | rfl | rfl | rfl | rfl <;> rfl

/-- A number that leaves the domain of the settings is NaN in an operator of arithmetic. -/
theorem confine_literal (known : op ∈ BinaryOp.arithmetic) (a b : Expr) (z : Number) :
    confine c (.binary op a b) (.num z) (.num .nan) =
      .num (if numberFits z c.codomain then z else .nan) := by
  simp only [confine, children, List.any_nil, Bool.false_eq_true, if_false,
    arithmetic_codomain known, fits]
  split <;> rfl

theorem evaluateNode_literal (evaluate : Expr → Computation Expr) (known : op ∈ BinaryOp.arithmetic)
    (a b : Expr) (x y : Number) :
    evaluateNode c evaluate (.binary op a b) [.num x, .num y] = .num <$> literalValue c op x y := by
  obtain ⟨d, decided⟩ := condition?_literal (c := c) known x y
  obtain ⟨m, computed⟩ := compute?_total (c := c) known x y
  simp only [evaluateNode, literalValue, decided, pure_bind]
  split
  · rfl
  have rule : evaluationRule c evaluate (.binary op a b) [.num x, .num y] =
      (some ∘ Expr.num) <$> m := by
    rw [evaluationRule, binaryRule?_literal evaluate known, computed]
    simp [Function.comp_def]
  unfold liftConditions
  simp only [rule, computed, bind_map_left, Function.comp_apply, bind_assoc, pure_bind, map_bind,
    Option.getD_some, confine_literal known, map_pure]

theorem foldM_evaluateNode (evaluate : Expr → Computation Expr) {e : Expr}
    (closed : IsClosedArithmetic e) :
    foldM (evaluateNode c evaluate) e = .num <$> closedValue c e := by
  induction closed with
  | num exact =>
    rw [foldM]
    rfl
  | @operation op a b known _ _ iha ihb =>
    rw [foldM, iha, ihb, closedValue]
    simp only [bind_map_left, map_bind, evaluateNode_literal evaluate known]

theorem evaluate_closed {e : Expr} (closed : IsClosedArithmetic e) :
    evaluate c e = .num <$> closedValue c e :=
  foldM_evaluateNode (evaluateWithin c 999) closed

/-- What a closed expression evaluates to from some digits of the unit is its only value. -/
theorem closedValue_of_evaled {e : Expr} (closed : IsClosedArithmetic e) {z : Number}
    {u w : FloatUnit} (value : e.evaled c u = .ok (.num z) w) :
    Returns (closedValue c e) (· = z) := by
  have evaluated := (evaled_ok value).2
  rw [evaluate_closed closed] at evaluated
  obtain ⟨v, returned, same⟩ := Computation.of_map_ok evaluated
  cases same
  exact (closedValue_uniform closed).returns returned

end Expr
end ComputerAlgebra

import ComputerAlgebra.Proofs.Exact.Evaluation
import ComputerAlgebra.Proofs.Expr.Children
import ComputerAlgebra.Proofs.Expr.Measure
import ComputerAlgebra.Proofs.Number.Total
import ComputerAlgebra.Simplification.Basic

/-!
Evaluation and the rules of simplification come to a result for arithmetic on exact numbers without
variables. What a rule puts in place of a node is again such an expression and not deeper than the
node, so nothing that is evaluated on the way is too deep.
-/

namespace ComputerAlgebra

namespace Expr

variable {c : Config} {op : BinaryOp} {a b e : Expr}

section Evaluation

/-- An operation on literals gives what the functions of numbers give, or NaN. -/
theorem literalValue_computed {P : Number → Prop} {x y : Number} (known : op ∈ BinaryOp.arithmetic) (undefined : P .nan)
    (computed : Succeeds (op.compute? c x y) fun r => ∃ z, r = some z ∧ P z) : Succeeds (literalValue c op x y) P := by
  obtain ⟨d, decided⟩ := condition?_literal (c := c) known x y
  unfold literalValue
  rw [decided, pure_bind]
  split
  · exact Succeeds.pure undefined
  refine Succeeds.bind computed ?_
  rintro _ ⟨z, rfl, holds⟩
  refine Succeeds.pure ?_
  split
  · exact holds
  · exact undefined

variable (usable : c.Usable)
include usable

theorem compute?_succeeds (known : op ∈ BinaryOp.arithmetic) {x y : Number} (left : x.Regular)
    (right : y.Regular) : Succeeds (op.compute? c x y) fun r => ∃ z, r = some z ∧ z.Regular := by
  have closed := RealNumber.regular_closed usable
  have wrapped {m : Computation Number} (given : Succeeds m Number.Regular) :
      Succeeds (do return some (← m)) fun r => ∃ z, r = some z ∧ z.Regular :=
    Succeeds.bind given fun z regular => Succeeds.pure ⟨z, rfl, regular⟩
  rcases BinaryOp.arithmetic_cases known with rfl | rfl | rfl | rfl | rfl
  · exact wrapped (Number.add_succeeds closed left right)
  · exact wrapped (Number.sub_succeeds closed left right)
  · exact wrapped (Number.mul_succeeds closed left right)
  · exact wrapped (Number.div_succeeds closed left right)
  · exact wrapped (Number.pow_succeeds usable.toReadable x y)

theorem literalValue_succeeds (known : op ∈ BinaryOp.arithmetic) {x y : Number} (left : x.Regular)
    (right : y.Regular) : Succeeds (literalValue c op x y) Number.Regular :=
  literalValue_computed known (Number.regular_of_exact rfl) (compute?_succeeds usable known left right)

theorem closedValue_succeeds (closed : IsClosedArithmetic e) :
    Succeeds (closedValue c e) Number.Regular := by
  induction closed with
  | num exact => exact Succeeds.pure (Number.regular_of_exact exact)
  | operation known _ _ iha ihb =>
    refine Succeeds.bind iha fun x left => ?_
    exact Succeeds.bind ihb fun y right => literalValue_succeeds usable known left right

theorem evaluate_succeeds (closed : IsClosedArithmetic e) :
    Succeeds (evaluate c e) fun r => ∃ z, r = .num z := by
  rw [evaluate_closed closed]
  exact Succeeds.map ((closedValue_succeeds usable closed).mono fun z _ => ⟨z, rfl⟩)

theorem nonzero_succeeds (closed : IsClosedArithmetic e) (shallow : e.checkDepth c = .ok ()) :
    Succeeds (nonzero c e) fun _ => True := by
  refine Succeeds.bind (P := fun _ => True) (Succeeds.lift shallow trivial) fun _ _ => ?_
  refine Succeeds.bind (evaluate_succeeds usable closed) ?_
  rintro _ ⟨z, rfl⟩
  exact Succeeds.pure trivial

theorem positive_succeeds (closed : IsClosedArithmetic e) (shallow : e.checkDepth c = .ok ()) :
    Succeeds (positive c e) fun _ => True := by
  refine Succeeds.bind (P := fun _ => True) (Succeeds.lift shallow trivial) fun _ _ => ?_
  refine Succeeds.bind (evaluate_succeeds usable closed) ?_
  rintro _ ⟨z, rfl⟩
  cases z <;> exact Succeeds.pure trivial

end Evaluation

/-- A closed expression that may stand in place of another one, since it is not deeper. -/
structure Shrinks (e r : Expr) : Prop where
  closed : IsClosedArithmetic r
  depth : r.depth ≤ e.depth

namespace Shrinks

theorem refl (closed : IsClosedArithmetic e) : Shrinks e e := ⟨closed, le_refl _⟩

theorem num {z : Number} (exact : z.Exact) : Shrinks e (.num z) := ⟨.num exact, depth_pos e⟩

theorem left (closed : IsClosedArithmetic a) : Shrinks (.binary op a b) a :=
  ⟨closed, (depth_child (by simp [children])).le⟩

theorem right (closed : IsClosedArithmetic b) : Shrinks (.binary op a b) b :=
  ⟨closed, (depth_child (by simp [children])).le⟩

theorem operation (known : op ∈ BinaryOp.arithmetic) (left : IsClosedArithmetic a)
    (right : IsClosedArithmetic b) (first : a.depth < e.depth) (second : b.depth < e.depth) :
    Shrinks e (.binary op a b) := by
  refine ⟨.operation known left right, ?_⟩
  rw [depth_binary]
  omega

end Shrinks

theorem depth_left : a.depth < (Expr.binary op a b).depth := depth_child (by simp [children])

theorem depth_right : b.depth < (Expr.binary op a b).depth := depth_child (by simp [children])

theorem depth_num (z : Number) : (Expr.num z).depth < (Expr.binary op a b).depth := by
  have positive : 0 < a.depth := depth_pos a
  have leaf : (Expr.num z).depth = 1 := rfl
  rw [depth_binary, leaf]
  omega

def Reduces (e : Expr) (m : Computation (Option Expr)) : Prop :=
  Succeeds m fun r => ∀ e', r = some e' → Shrinks e e'

theorem Reduces.none : Reduces e (pure none) := Succeeds.pure fun _ same => by cases same

theorem Reduces.some {r : Expr} (shrinks : Shrinks e r) : Reduces e (pure (some r)) := by
  refine Succeeds.pure ?_
  rintro _ ⟨rfl⟩
  exact shrinks

section Rules
variable (usable : c.Usable)
include usable

theorem negate_succeeds (closed : IsClosedArithmetic a) (within : a.depth < e.depth) :
    Succeeds (negate c a) (Shrinks e) := by
  cases closed with
  | @num z exact =>
    have found := (Number.neg_succeeds usable.toReadable (Number.regular_of_exact exact)).of_returns
      (Number.neg_exact c exact)
    exact Succeeds.bind found fun z' both => Succeeds.pure (.num both.2)
  | @operation op x y known left right =>
    have one : minusOne.depth = 1 := rfl
    have positive := depth_pos (.binary op x y)
    exact Succeeds.pure
      (.operation (by decide) (.num rfl) (.operation known left right) (by omega) within)

omit usable in
theorem sumIdentity_reduces (left : IsClosedArithmetic a) (right : IsClosedArithmetic b) :
    Reduces (.binary .sum a b) (simplifyIdentity? c .sum a b) := by
  simp only [simplifyIdentity?]
  split
  · exact Reduces.some (.right right)
  split
  · exact Reduces.some (.left left)
  · exact Reduces.none

theorem minusIdentity_reduces (left : IsClosedArithmetic a) (right : IsClosedArithmetic b) :
    Reduces (.binary .minus a b) (simplifyIdentity? c .minus a b) := by
  simp only [simplifyIdentity?]
  split
  · exact Reduces.some (.left left)
  split
  · have opposite := negate_succeeds (e := .binary .minus a b) usable right depth_right
    exact Succeeds.bind opposite fun r shrinks => Reduces.some shrinks
  · exact Reduces.none

omit usable in
theorem mulIdentity_reduces (left : IsClosedArithmetic a) (right : IsClosedArithmetic b) :
    Reduces (.binary .mul a b) (simplifyIdentity? c .mul a b) := by
  have square : Reduces (.binary .mul a b)
      (pure (if a = b then some (.binary .pow a 2) else none)) := by
    split
    · exact Reduces.some (.operation (by decide) left (.num rfl) depth_left (depth_num 2))
    · exact Reduces.none
  simp only [simplifyIdentity?]
  split
  · exact Reduces.some (.num rfl)
  split
  · exact Reduces.some (.right right)
  split
  · exact Reduces.some (.left left)
  split
  · next m x =>
    split
    · cases right with
      | operation _ _ inner =>
        refine Reduces.some ⟨inner, ?_⟩
        exact (depth_right.trans depth_right).le
    · exact square
  · exact square

theorem divIdentity_reduces (left : IsClosedArithmetic a) (right : IsClosedArithmetic b)
    (shallow : b.checkDepth c = .ok ()) :
    Reduces (.binary .div a b) (simplifyIdentity? c .div a b) := by
  have defined := nonzero_succeeds usable right shallow
  have unit : Reduces (.binary .div a b)
      (if a = b then do if ← nonzero c b then return some 1 else return none else return none) := by
    split
    · refine Succeeds.bind defined fun found _ => ?_
      split
      · exact Reduces.some (.num rfl)
      · exact Reduces.none
    · exact Reduces.none
  simp only [simplifyIdentity?]
  split
  · exact Reduces.some (.left left)
  split
  · have opposite := negate_succeeds (e := .binary .div a b) usable left depth_left
    exact Succeeds.bind opposite fun r shrinks => Reduces.some shrinks
  split
  · refine Succeeds.bind defined fun found _ => ?_
    split
    · exact Reduces.some (.num rfl)
    · exact unit
  · exact unit

theorem powIdentity_reduces (left : IsClosedArithmetic a) (right : IsClosedArithmetic b)
    (shallow : b.checkDepth c = .ok ()) :
    Reduces (.binary .pow a b) (simplifyIdentity? c .pow a b) := by
  simp only [simplifyIdentity?]
  split
  · exact Reduces.some (.num rfl)
  split
  · exact Reduces.some (.left left)
  split
  · exact Reduces.some (.operation (by decide) (.num rfl) left (depth_num 1) depth_left)
  split
  · refine Succeeds.bind (positive_succeeds usable right shallow) fun found _ => ?_
    split
    · exact Reduces.some (.num rfl)
    · exact Reduces.none
  · exact Reduces.none

theorem simplifyBinary?_reduces (known : op ∈ BinaryOp.arithmetic) (left : IsClosedArithmetic a)
    (right : IsClosedArithmetic b) (shallow : (Expr.binary op a b).checkDepth c = .ok ()) :
    Reduces (.binary op a b) (simplifyBinary? c op a b) := by
  have shallow' : b.checkDepth c = .ok () := checkDepth_mono shallow depth_right.le
  have numbers : ∀ x y, a = .num x → b = .num y →
      Reduces (.binary op a b) (if op = .div && y.isZero then return none
        else return whenExact (← op.compute? c x y)) := by
    rintro x y rfl rfl
    cases left with
    | num left =>
    cases right with
    | num right =>
    split
    · exact Reduces.none
    refine Succeeds.bind (compute?_succeeds usable known (Number.regular_of_exact left)
      (Number.regular_of_exact right)) ?_
    rintro _ ⟨z, rfl, _⟩
    rw [whenExact]
    split
    · next exact => exact Reduces.some (.num exact)
    · exact Reduces.none
  rcases BinaryOp.arithmetic_cases known with rfl | rfl | rfl | rfl | rfl
  all_goals
    simp only [simplifyBinary?]
    split
    · exact numbers _ _ rfl rfl
  · exact sumIdentity_reduces left right
  · exact minusIdentity_reduces usable left right
  · exact mulIdentity_reduces left right
  · exact divIdentity_reduces usable left right shallow'
  · exact powIdentity_reduces usable left right shallow'

end Rules
end Expr
end ComputerAlgebra

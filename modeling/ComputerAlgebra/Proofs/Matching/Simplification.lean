import ComputerAlgebra.Proofs.Matching.Evaluation
import ComputerAlgebra.Proofs.Scope.Passes
import ComputerAlgebra.Proofs.Variant

/-!
The rules of simplification at matching operands, and the rules that compare expressions: they go the same
way when the test by which they compare does not tell matching expressions apart.
-/

namespace ComputerAlgebra.Expr

/-- A test that answers the same for matching expressions, and that takes an expression for equal to
itself. -/
structure Fair (same : Expr → Expr → Prop) (R : Expr → Expr → Prop) : Prop where
  refl : ∀ a, same a a
  alike : ∀ {a a' b b'}, R a a' → R b b' → (same a b ↔ same a' b')

/-- What the test tells apart is not the same tree. -/
theorem Fair.apart {same R : Expr → Expr → Prop} {a b : Expr} (fair : Fair same R)
    (different : ¬same a b) : a ≠ b := by
  rintro rfl
  exact different (fair.refl a)

namespace Matching

variable {R : Expr → Expr → Prop} {a a' b b' : Expr} {c : Config} (m : Matching R)
include m

section Itself

/-- What matches itself goes by the parts of expressions, so every rule makes only such expressions of
numbers alone. -/
theorem itself (c : Config) : Compositional .returns c fun e => R e e where
  numeric := .ofAll m.number
  bool := m.truth
  constant := m.constant
  parts headed matched := List.forall₂_same.mp ((m.head headed).mp matched).2
  operation headed _ all := (m.head headed).mpr ⟨headed, List.forall₂_same.mpr all⟩
  rebuilt _ headed _ all := (m.head headed).mpr ⟨headed, List.forall₂_same.mpr all⟩
  reading _ next := Returns.get next

omit m in
theorem offered {r : Option Expr} (matched : Offers (fun e => R e e) r) : Option.Rel R r r := by
  cases r with
  | none => exact .none
  | some e => exact .some (matched e rfl)

end Itself

section Unary

omit m in
theorem number_of_isNumber (given : a.isNumber = true) : ∃ z, a = .num z := by
  cases a with
  | num z => exact ⟨z, rfl⟩
  | _ => cases given

theorem whenExact (r : Option Number) : Option.Rel R (whenExact r) (whenExact r) :=
  offered ((m.itself .default).whenExact r)

theorem exactValue? {self self' : Expr} (selves : R self self') (values : R a a') :
    Option.Rel R (exactValue? self a) (exactValue? self' a') := by
  cases m.view values with
  | num z =>
    have kept : Expr.exactValue? self (.num z) = Expr.exactValue? self' (.num z) := by
      cases m.view selves with
      | binary op _ _ => cases op <;> rfl
      | _ => rfl
    rw [kept]
    exact offered ((m.itself .default).exactValue? self' (.num z))
  | _ => exact .none

theorem negate (related : R a a') : InStep R (negate c a) (negate c a') := by
  have product : R (.binary .mul minusOne a) (.binary .mul minusOne a') :=
    m.binary (m.number _) related
  cases m.view related with
  | num z => exact InStep.after _ fun w => .pure (m.number w)
  | _ => exact .pure product

theorem exactCircular? {f : Circular} (related : R a a') :
    Option.Rel R (exactCircular? f a) (exactCircular? f a') := by
  have steps (period shift : Int) : twelfths? a period shift = twelfths? a' period shift := by
    rw [twelfths?, twelfths?, m.piMultiple? related]
  have same : Expr.exactCircular? f a = Expr.exactCircular? f a' := by
    cases f <;>
      simp only [Expr.exactCircular?, exactSin?, exactCos?, exactTan?, exactCotan?, shiftedSine?, steps]
  rw [same]
  exact offered ((m.itself .default).exactCircular? f)

theorem simplifyUnary? {op : UnaryOp} (related : R a a') :
    InStep (Option.Rel R) (simplifyUnary? c op a) (simplifyUnary? c op a') := by
  have exact {f : Circular} : InStep (Option.Rel R) (pure (Expr.exactCircular? f a))
      (pure (Expr.exactCircular? f a')) := .pure (m.exactCircular? related)
  cases m.view related with
  | num z =>
    have value : InStep (Option.Rel R) (do return Expr.whenExact (← op.compute? c z))
        (do return Expr.whenExact (← op.compute? c z)) :=
      InStep.after _ fun r => .pure (m.whenExact r)
    cases op <;> first | exact value | exact .pure .none
  | bool t => cases op <;> first | exact exact | exact .pure .none | exact .pure (.some (m.truth _))
  | unary op' part =>
    cases op with
    | signum | abs => cases op' <;> first | exact .pure .none | exact .pure (.some related)
    | circular f =>
      cases op' with
      | circular g => exact .pure (rel_ite (.some part) (m.exactCircular? related))
      | _ => exact exact
    | _ => exact .pure .none
  | binary op' left right =>
    cases op with
    | abs =>
      cases op' with
      | mul =>
        simp only [Expr.simplifyUnary?, m.isMinusOne left]
        exact .pure (rel_ite (.some (m.unary right)) .none)
      | _ => exact .pure .none
    | circular f => exact exact
    | _ => exact .pure .none
  | _ =>
    cases op with
    | circular f => exact exact
    | _ => exact .pure .none

end Unary

section Comparisons
variable {same : Expr → Expr → Prop} [DecidableRel same] (fair : Fair same R)

theorem exactOrder? {test : Comparison} (left : R a a') (right : R b b') :
    exactOrder? c test a b = exactOrder? c test a' b' := by
  unfold Expr.exactOrder?
  rw [m.real? left, m.real? right]

include fair

theorem equalsValue? (left : R a a') (right : R b b') :
    Variant.equalsValue? same c a b = Variant.equalsValue? same c a' b' := by
  unfold Variant.equalsValue?
  by_cases equal : same a b
  · rw [if_pos equal, if_pos ((fair.alike left right).mp equal)]
  · have equal' : ¬same a' b' := mt (fair.alike left right).mpr equal
    rw [if_neg equal, if_neg equal']
    unfold Expr.equalsValue?
    rw [if_neg (fair.apart equal), if_neg (fair.apart equal')]
    cases m.view left with
    | num | bool => cases m.view right <;> rfl
    | _ => rfl

theorem exactEquals? (left : R a a') (right : R b b') :
    Variant.exactEquals? same a b = Variant.exactEquals? same a' b' := by
  unfold Variant.exactEquals?
  by_cases equal : same a b
  · rw [if_pos equal, if_pos ((fair.alike left right).mp equal)]
  · have equal' : ¬same a' b' := mt (fair.alike left right).mpr equal
    rw [if_neg equal, if_neg equal']
    unfold Expr.exactEquals?
    rw [if_neg (fair.apart equal), if_neg (fair.apart equal')]
    cases m.view left with
    | num | bool => cases m.view right <;> rfl
    | _ => rfl

theorem variantBinaryRule? {evaluate : Expr → Computation Expr} {op : BinaryOp}
    (known : InStep R (evaluate b) (evaluate b')) (left : R a a') (right : R b b') :
    InStep (Option.Rel R) (Variant.binaryRule? same c evaluate op a b)
      (Variant.binaryRule? same c evaluate op a' b') := by
  unfold Variant.binaryRule?
  rw [m.equalsValue? fair left right]
  refine .ite .rfl (fun _ => ?_) fun inner => m.binaryRule? inner known left right
  exact InStep.after _ fun _ => .pure (m.truths rfl)

/-- Identities of the operators hold of matching operands alike, when evaluation goes the same way. -/
theorem simplifyIdentity? {op : BinaryOp} {evaluate : Expr → Computation Expr}
    (known : ∀ e e', R e e' → InStep R (evaluate e) (evaluate e')) (left : R a a') (right : R b b') :
    InStep (Option.Rel R) (Variant.simplifyIdentity? same c evaluate op a b)
      (Variant.simplifyIdentity? same c evaluate op a' b') := by
  have nothing : InStep (Option.Rel R) (pure none) (pure none) := .pure .none
  have whole {n : Nat} : InStep (Option.Rel R) (pure (some (OfNat.ofNat n : Expr)))
      (pure (some (OfNat.ofNat n : Expr))) := .pure (.some (m.number _))
  have first : InStep (Option.Rel R) (pure (some a)) (pure (some a')) := .pure (.some left)
  have second : InStep (Option.Rel R) (pure (some b)) (pure (some b')) := .pure (.some right)
  have opposite {e e' : Expr} (related : R e e') : InStep (Option.Rel R)
      (do return some (← Expr.negate c e)) (do return some (← Expr.negate c e')) :=
    InStep.bind (m.negate related) fun _ _ holds => .pure (.some holds)
  have guarded {test test' : Computation Bool} {yes yes' no no' : Computation (Option Expr)}
      (tests : InStep Eq test test') (taken : InStep (Option.Rel R) yes yes')
      (left : InStep (Option.Rel R) no no') :
      InStep (Option.Rel R) (do if ← test then yes else no) (do if ← test' then yes' else no') := by
    refine InStep.bind tests ?_
    rintro t _ rfl
    exact .ite .rfl (fun _ => taken) fun _ => left
  have nonzero := m.provablyNonzero (c := c) right (known b b' right)
  have positive := m.provablyPositive (c := c) right (known b b' right)
  have base : InStep Eq (Variant.validLogBase c evaluate a) (Variant.validLogBase c evaluate a') := by
    unfold Variant.validLogBase
    rw [m.checkDepth left]
    refine InStep.after _ fun _ => InStep.bind (known a a' left) fun v v' values => ?_
    cases m.view values <;> exact .pure rfl
  have equal := fair.alike left right
  unfold Variant.simplifyIdentity?
  cases op <;> dsimp only
  case sum =>
    rw [m.isZero left, m.isZero right]
    exact .pure (rel_ite (.some right) (rel_ite (.some left) .none))
  case minus =>
    rw [m.isZero left, m.isZero right]
    exact .ite .rfl (fun _ => first) fun _ => .ite .rfl (fun _ => opposite right) fun _ => nothing
  case mul =>
    have square : Option.Rel R (if same a b then some (.binary .pow a 2) else none)
        (if same a' b' then some (.binary .pow a' 2) else none) := by
      rw [if_congr equal rfl rfl]
      exact rel_ite (.some (m.binary left (m.number _))) .none
    rw [m.isZero left, m.isZero right, m.isOne left, m.isOne right]
    refine .ite .rfl (fun _ => whole) fun _ => .ite .rfl (fun _ => second) fun _ =>
      .ite .rfl (fun _ => first) fun _ => ?_
    cases m.view right with
    | binary op factor rest =>
      cases op with
      | mul =>
        dsimp only
        rw [m.isMinusOne left, m.isMinusOne factor]
        exact .ite .rfl (fun _ => .pure (.some rest)) fun _ => .pure square
      | _ => exact .pure square
    | _ => exact .pure square
  case div =>
    rw [m.isZero left, m.isOne right, m.isMinusOne right]
    have one : InStep (Option.Rel R)
        (if same a b then do if ← Expr.provablyNonzero c evaluate b then return some 1 else return none
          else return none)
        (if same a' b' then do if ← Expr.provablyNonzero c evaluate b' then return some 1 else return none
          else return none) := .ite equal (fun _ => guarded nonzero whole nothing) fun _ => nothing
    refine .ite .rfl (fun _ => first) fun _ => .ite .rfl (fun _ => opposite left) fun _ => ?_
    exact .ite .rfl (fun _ => guarded nonzero whole one) fun _ => one
  case pow =>
    rw [m.isOne left, m.isZero right, m.isOne right, m.isMinusOne right, m.isZero left]
    have inverse : R (.binary .div 1 a) (.binary .div 1 a') := m.binary (m.number _) left
    refine .ite .rfl (fun _ => whole) fun _ => .ite .rfl (fun _ => first) fun _ => ?_
    refine .ite .rfl (fun _ => .pure (.some inverse)) fun _ => ?_
    exact .ite .rfl (fun _ => guarded positive whole nothing) fun _ => nothing
  case log =>
    rw [m.isOne right]
    exact .ite .rfl (fun _ => whole) fun _ =>
      .ite equal (fun _ => guarded base whole nothing) fun _ => nothing
  all_goals exact nothing

omit fair in
/-- What is no identity is a rule of truth values, an order, or a function of two numbers. -/
theorem simplifyBinary? {op : BinaryOp} (inner : op ≠ .equals)
    (plain : (op.isStatement || a.isNumber && b.isNumber) = true) (left : R a a') (right : R b b') :
    InStep (Option.Rel R) (simplifyBinary? c op a b) (simplifyBinary? c op a' b') := by
  cases op with
  | and | or | xor | implies => exact .pure (m.connectiveRule? left right)
  | equals => exact absurd rfl inner
  | order test =>
    simp only [Expr.simplifyBinary?, m.exactOrder? left right]
    exact InStep.after _ fun _ => .pure (m.truths rfl)
  | mem =>
    simp only [Expr.simplifyBinary?, m.contains? right left]
    exact InStep.after _ fun _ => .pure (m.truths rfl)
  | sum | minus | mul | div | pow | log =>
    obtain ⟨first, second⟩ := (Bool.and_eq_true _ _).mp plain
    obtain ⟨x, rfl⟩ := number_of_isNumber first
    obtain ⟨y, rfl⟩ := number_of_isNumber second
    rw [m.num.mp left, m.num.mp right]
    have asking : Asking .returns c (evaluate c) fun _ => True :=
      ⟨fun _ _ _ _ => trivial, fun _ => Returns.trivial, fun _ => Returns.trivial⟩
    exact .self ((m.itself c).simplifyBinary? asking trivial trivial (m.number x) (m.number y)) fun _ => offered

theorem variantSimplifyBinary? {op : BinaryOp} {evaluate : Expr → Computation Expr}
    (known : ∀ e e', R e e' → InStep R (evaluate e) (evaluate e')) (left : R a a') (right : R b b') :
    InStep (Option.Rel R) (Variant.simplifyBinary? same c evaluate op a b)
      (Variant.simplifyBinary? same c evaluate op a' b') := by
  unfold Variant.simplifyBinary?
  rw [m.exactEquals? fair left right]
  refine .ite .rfl (fun _ => .pure (m.truths rfl)) fun inner => ?_
  refine .ite ?_ (fun plain => m.simplifyBinary? inner plain left right) fun _ =>
    m.simplifyIdentity? fair known left right
  rw [m.isNumber left, m.isNumber right]

end Comparisons

end Matching
end ComputerAlgebra.Expr

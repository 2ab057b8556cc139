import ComputerAlgebra.Proofs.Matching.Basic

/-!
The rules of evaluation at matching operands. Each decides the same way for both, and what it makes of them
matches again.
-/

namespace ComputerAlgebra.Expr

namespace Matching

variable {R : Expr → Expr → Prop} {a a' b b' : Expr} {c : Config} (m : Matching R)

section Options

omit m in
theorem rel_ite {α β : Type} {S : α → β → Prop} {p : Prop} [Decidable p] {r s : Option α}
    {r' s' : Option β} (yes : Option.Rel S r r') (no : Option.Rel S s s') :
    Option.Rel S (if p then r else s) (if p then r' else s') := by
  split
  · exact yes
  · exact no

include m

theorem numbers {r r' : Option Number} (same : r = r') :
    Option.Rel R (r.map .num) (r'.map .num) := by
  subst same
  cases r with
  | none => exact .none
  | some z => exact .some (m.number z)

theorem truths {r r' : Option Bool} (same : r = r') :
    Option.Rel R (r.map .bool) (r'.map .bool) := by
  subst same
  cases r with
  | none => exact .none
  | some t => exact .some (m.truth t)

/-- Matching expressions are one truth value, or neither is any. -/
theorem truth_or (related : R a b) : (∃ t, a = .bool t ∧ b = .bool t) ∨
    (∀ t, a ≠ .bool t) ∧ ∀ t, b ≠ .bool t := by
  cases m.view related <;> simp

/-- Matching expressions are one number, or neither is any. -/
theorem num_or (related : R a b) : (∃ z, a = .num z ∧ b = .num z) ∨
    (∀ z, a ≠ .num z) ∧ ∀ z, b ≠ .num z := by
  cases m.view related <;> simp

end Options

section Conditions
include m

theorem inInterval? {low low' high high' : Expr} (element : R a a') (below : R low low')
    (above : R high high') : inInterval? c a low high = inInterval? c a' low' high' := by
  unfold Expr.inInterval?
  rw [m.real? element, m.real? below, m.real? above]

theorem contains? (collection : R a a') (element : R b b') :
    contains? c a b = contains? c a' b' := by
  cases m.view collection with
  | interval below above => exact m.inInterval? element below above
  | _ => rfl

theorem condition? {self self' : Expr} {parts parts' : List Expr} (selves : R self self')
    (all : List.Forall₂ R parts parts') : condition? c self parts = condition? c self' parts' := by
  have zero : R 0 0 := m.number _
  cases m.view selves with
  | unary op _ =>
    cases all with
    | nil => cases op <;> rfl
    | cons first rest =>
      cases rest with
      | nil => cases op <;> simp only [Expr.condition?, m.integer? first, m.isNumber first]
      | cons => cases op <;> rfl
  | binary op _ _ =>
    cases all with
    | nil => cases op <;> rfl
    | cons first rest =>
      cases rest with
      | nil => cases op <;> rfl
      | cons second rest =>
        cases rest with
        | nil =>
          cases op with
          | mem =>
            cases m.view second <;> rfl
          | _ =>
            simp only [Expr.condition?, m.isZero first, m.isZero second, m.isSet second,
              m.isNumber first, m.isNumber second, m.real? second, m.isNegative second,
              m.hasNoOrder first, m.hasNoOrder second, m.contains? second zero]
        | cons => cases op <;> rfl
  | _ => rfl

end Conditions

section Rules
include m

theorem connectiveRule? {op : BinaryOp} (left : R a a') (right : R b b') :
    Option.Rel R (connectiveRule? op a b) (connectiveRule? op a' b') := by
  rcases m.truth_or left with ⟨t, rfl, rfl⟩ | ⟨open_a, open_a'⟩ <;>
    rcases m.truth_or right with ⟨s, rfl, rfl⟩ | ⟨open_b, open_b'⟩
  · cases op <;> cases t <;> cases s <;> first
      | exact .none
      | exact .some (m.truth _)
  · cases op <;> cases t <;> simp [Expr.connectiveRule?, open_b, open_b', right, m.unary right, m.truth]
  · cases op <;> cases s <;> simp [Expr.connectiveRule?, open_a, open_a', left, m.unary left, m.truth]
  · cases op <;> simp [Expr.connectiveRule?, open_a, open_a', open_b, open_b']

theorem unaryRule? {op : UnaryOp} (related : R a a') :
    InStep (Option.Rel R) (unaryRule? c op a) (unaryRule? c op a') := by
  cases m.view related with
  | num z =>
    have value : InStep (Option.Rel R) (do return (← op.compute? c z).map Expr.num)
        (do return (← op.compute? c z).map Expr.num) :=
      InStep.after _ fun _ => InStep.pure (m.numbers rfl)
    cases op <;> exact value
  | bool t => cases op <;> first | exact .pure .none | exact .pure (.some (m.truth _))
  | _ => cases op <;> exact .pure .none

theorem orderValue? {test : Comparison} (left : R a a') (right : R b b') :
    orderValue? c test a b = orderValue? c test a' b' := by
  unfold Expr.orderValue?
  rw [m.real? left, m.real? right]

theorem checkDepth (related : R a a') : checkDepth c a = checkDepth c a' := by
  rw [Expr.checkDepth, Expr.checkDepth, m.depth related]

theorem provablyNonzero {evaluate : Expr → Computation Expr} (related : R a a')
    (known : InStep R (evaluate a) (evaluate a')) :
    InStep Eq (provablyNonzero c evaluate a) (provablyNonzero c evaluate a') := by
  unfold Expr.provablyNonzero
  rw [m.checkDepth related]
  refine InStep.after _ fun _ => InStep.bind known fun v v' values => ?_
  cases m.view values <;> exact .pure rfl

theorem provablyPositive {evaluate : Expr → Computation Expr} (related : R a a')
    (known : InStep R (evaluate a) (evaluate a')) :
    InStep Eq (provablyPositive c evaluate a) (provablyPositive c evaluate a') := by
  unfold Expr.provablyPositive
  rw [m.checkDepth related]
  refine InStep.after _ fun _ => InStep.bind known fun v v' values => ?_
  cases m.view values with
  | num z => cases z <;> exact .pure rfl
  | _ => exact .pure rfl

theorem identityRule? {evaluate : Expr → Computation Expr} (op : BinaryOp)
    (known : InStep R (evaluate b) (evaluate b')) (left : R a a') (right : R b b') :
    InStep (Option.Rel R) (identityRule? c evaluate op a b)
      (identityRule? c evaluate op a' b') := by
  have whole {n : Nat} : Option.Rel R (some (OfNat.ofNat n : Expr)) (some (OfNat.ofNat n : Expr)) :=
    .some (m.number _)
  cases op with
  | mul =>
    simp only [Expr.identityRule?, m.isZero left, m.isZero right, m.isOne left, m.isOne right]
    refine .pure (rel_ite whole (rel_ite (.some right) (rel_ite (.some left) .none)))
  | div =>
    simp only [Expr.identityRule?, m.isZero left, m.isOne right]
    refine .ite .rfl (fun _ => .pure (.some left)) fun _ => .ite .rfl (fun _ => ?_) fun _ => .pure .none
    refine InStep.bind (m.provablyNonzero right known) fun nonzero _ same => .pure ?_
    subst same
    exact rel_ite whole .none
  | pow =>
    simp only [Expr.identityRule?, m.isOne left, m.isZero right, m.isOne right]
    exact .pure (rel_ite whole (rel_ite (.some left) .none))
  | _ => exact .pure .none

theorem binaryRule? {evaluate : Expr → Computation Expr} {op : BinaryOp} (inner : op ≠ .equals)
    (known : InStep R (evaluate b) (evaluate b')) (left : R a a') (right : R b b') :
    InStep (Option.Rel R) (binaryRule? c evaluate op a b) (binaryRule? c evaluate op a' b') := by
  cases op with
  | and | or | xor | implies => exact .pure (m.connectiveRule? left right)
  | equals => exact absurd rfl inner
  | order test =>
    simp only [Expr.binaryRule?, m.orderValue? left right]
    exact InStep.after _ fun _ => .pure (m.truths rfl)
  | mem =>
    simp only [Expr.binaryRule?, m.contains? right left]
    exact InStep.after _ fun _ => .pure (m.truths rfl)
  | sum | minus | mul | div | pow | log =>
    rcases m.num_or left with ⟨x, rfl, rfl⟩ | ⟨open_a, open_a'⟩
    · rcases m.num_or right with ⟨y, rfl, rfl⟩ | ⟨open_b, open_b'⟩
      · exact InStep.after _ fun _ => .pure (m.numbers rfl)
      · simpa [Expr.binaryRule?, open_b, open_b'] using m.identityRule? (c := c) _ known left right
    · simpa [Expr.binaryRule?, open_a, open_a'] using m.identityRule? (c := c) _ known left right

theorem providedRule? (left : R a a') (right : R b b') :
    Option.Rel R (providedRule? a b) (providedRule? a' b') := by
  rcases m.truth_or right with ⟨t, rfl, rfl⟩ | ⟨open_b, open_b'⟩
  · cases t with
    | true => exact .some left
    | false => exact .some (m.number _)
  · cases m.view left with
    | provided inner first =>
      simp only [Expr.providedRule?]
      exact .some (m.provided inner (m.binary first right))
    | _ =>
      simp only [Expr.providedRule?]
      exact .none

theorem builtin? {name : String} {args args' : List Expr} (all : List.Forall₂ R args args') :
    Option.Rel R (builtin? name args) (builtin? name args') := by
  have euler : R (.var "e") (.var "e") := m.constant (by decide)
  unfold Expr.builtin?
  split
  case h_13 =>
    cases all with
    | cons first rest =>
      cases rest
      exact .some (m.binary first (m.number _))
  case h_14 | h_15 =>
    cases all with
    | cons first rest =>
      cases rest
      exact .some (m.binary euler first)
  case h_16 =>
    cases all with
    | cons first rest =>
      cases rest with
      | cons second rest =>
        cases rest
        exact .some (m.binary first second)
  case h_21 =>
    have size := all.length_eq
    split <;> first
      | exact .none
      | (cases all with
        | cons _ rest => cases rest; simp_all)
  all_goals
    cases all with
    | cons first rest =>
      cases rest
      exact .some (m.unary first)

end Rules

section Lifting
include m

theorem unconditioned (related : R a b) : R a.unconditioned b.unconditioned := by
  cases m.view related with
  | provided inner _ => exact inner
  | _ => exact related

theorem condition (related : R a b) : Option.Rel R a.condition b.condition := by
  cases m.view related with
  | provided _ predicate => exact .some predicate
  | _ => exact .none

theorem conditions {parts parts' : List Expr} (all : List.Forall₂ R parts parts') :
    List.Forall₂ R (parts.filterMap Expr.condition) (parts'.filterMap Expr.condition) := by
  induction all with
  | nil => exact .nil
  | @cons part part' rest rest' first _ ih =>
    have both := m.condition first
    rw [List.filterMap_cons, List.filterMap_cons]
    cases h : part.condition <;> cases h' : part'.condition <;> rw [h, h'] at both <;> cases both
    · exact ih
    · next related => exact .cons related ih

theorem joined {op : BinaryOp} {ps qs : List Expr} (all : List.Forall₂ R ps qs) :
    ∀ {p q : Expr}, R p q → R (ps.foldl (.binary op) p) (qs.foldl (.binary op) q) := by
  induction all with
  | nil => exact fun related => related
  | cons first _ ih => exact fun related => ih (m.binary related first)

theorem liftRounds {parts parts' : List Expr} (all : List.Forall₂ R parts parts') :
    liftRounds parts = liftRounds parts' := by
  have rounds (n : Nat) : parts.foldl (fun n e => max n e.conditionDepth) n
      = parts'.foldl (fun n e => max n e.conditionDepth) n := by
    induction all generalizing n with
    | nil => rfl
    | cons first _ ih => rw [List.foldl_cons, List.foldl_cons, m.conditionDepth first, ih]
  exact rounds 0

/-- Conditions come out of matching nodes in the same way, when their rules go the same way. -/
theorem liftConditions {settle settle' : Expr → Computation (Option Expr)}
    {rule rule' : List Expr → Computation (Option Expr)} {self self' : Expr} {h : Head}
    (headed : self.head? = some h) (selves : R self self')
    (settled : ∀ e e', R e e' → InStep (Option.Rel R) (settle e) (settle' e'))
    (ruled : ∀ parts parts', List.Forall₂ R parts parts' →
      InStep (Option.Rel R) (rule parts) (rule' parts')) (fuel : Nat) :
    ∀ {parts parts' : List Expr}, parts.length = self.children.length → List.Forall₂ R parts parts' →
      InStep R (liftConditions settle rule self fuel parts)
        (liftConditions settle' rule' self' fuel parts') := by
  have headed' : self'.head? = some h := ((m.head headed).mp selves).1
  induction fuel with
  | zero =>
    intro parts parts' size all
    have whole := m.withChildren headed selves size all
    unfold Expr.liftConditions
    refine InStep.bind (ruled parts parts' all) fun r r' offered => ?_
    cases offered with
    | some result => exact .pure result
    | none =>
      dsimp only
      split <;> split <;> first | exact .pure whole | simp_all
  | succ fuel ih =>
    intro parts parts' size all
    have whole := m.withChildren headed selves size all
    have bare : List.Forall₂ R (parts.map Expr.unconditioned) (parts'.map Expr.unconditioned) := by
      rw [List.forall₂_map_left_iff, List.forall₂_map_right_iff]
      exact all.imp fun _ _ => m.unconditioned
    have bare_size : (parts.map Expr.unconditioned).length = self.children.length := by
      simpa using size
    have found := m.conditions all
    unfold Expr.liftConditions
    refine InStep.bind (ruled parts parts' all) fun r r' offered => ?_
    cases offered with
    | some result => exact .pure result
    | none =>
      dsimp only
      generalize parts.filterMap Expr.condition = ps at found ⊢
      generalize parts'.filterMap Expr.condition = qs at found ⊢
      cases found with
      | nil => split <;> split <;> first | exact .pure whole | simp_all
      | @cons p q ps qs first rest =>
        have around {inner inner' : Expr} (related : R inner inner') :
            InStep R (pure (.provided inner (ps.foldl (.binary .and) p)))
              (pure (.provided inner' (qs.foldl (.binary .and) q))) :=
          .pure (m.provided related (m.joined rest first))
        have lifted := settled _ _ (m.withChildren headed selves bare_size bare)
        split
        · cases headed
        · simp_all
        · simp_all
        next _ _ _ same step =>
          cases same
          cases step
          split
          · cases headed'
          · simp_all
          · simp_all
          next _ _ _ same step =>
            cases same
            cases step
            refine InStep.bind lifted fun r r' offered => ?_
            cases offered with
            | some value => exact InStep.bind (.pure value) fun _ _ => around
            | none => exact InStep.bind (ih bare_size bare) fun _ _ => around

theorem openCases {evaluate evaluate' : Expr → Computation Expr}
    (known : ∀ e e', R e e' → InStep R (evaluate e) (evaluate' e')) {cases cases' : List (Expr × Expr)}
    (all : List.Forall₂ (fun s t => R s.1 t.1 ∧ R s.2 t.2) cases cases') :
    InStep (fun r r' => List.Forall₂ (fun s t => R s.1 t.1 ∧ R s.2 t.2) r.1 r'.1 ∧ r.2 = r'.2)
      (openCases evaluate cases) (openCases evaluate' cases') := by
  induction all with
  | nil => exact .pure ⟨.nil, rfl⟩
  | @cons s t cases cases' both rest ih =>
    obtain ⟨e, p⟩ := s
    obtain ⟨e', p'⟩ := t
    unfold Expr.openCases
    refine InStep.bind (known p p' both.2) fun truth truth' related => ?_
    rcases m.truth_or related with ⟨t, rfl, rfl⟩ | ⟨open_t, open_t'⟩
    · cases t with
      | true => exact .pure ⟨.cons both .nil, rfl⟩
      | false => exact ih
    · split
      · exact absurd rfl (open_t true)
      · exact absurd rfl (open_t false)
      split
      · exact absurd rfl (open_t' true)
      · exact absurd rfl (open_t' false)
      exact InStep.bind ih fun r r' kept => .pure ⟨.cons both kept.1, rfl⟩

omit m in
theorem pairUp {parts : List Expr} : ∀ {parts' : List Expr}, List.Forall₂ R parts parts' →
    List.Forall₂ (fun s t => R s.1 t.1 ∧ R s.2 t.2) (pairUp parts) (pairUp parts') := by
  induction parts using pairUp.induct with
  | case1 e p rest ih =>
    intro parts' all
    cases all with
    | cons first all =>
      cases all with
      | cons second all => exact .cons ⟨first, second⟩ (ih all)
  | case2 parts short =>
    intro parts' all
    cases all with
    | nil => exact .nil
    | @cons e _ rest _ _ others =>
      cases others with
      | nil => exact .nil
      | cons => exact absurd rfl (short _ _ _)

theorem decideCases {evaluate evaluate' : Expr → Computation Expr}
    (known : ∀ e e', R e e' → InStep R (evaluate e) (evaluate' e')) {cases cases' : List (Expr × Expr)}
    (all : List.Forall₂ (fun s t => R s.1 t.1 ∧ R s.2 t.2) cases cases') :
    InStep R (decideCases evaluate cases) (decideCases evaluate' cases') := by
  unfold Expr.decideCases
  refine InStep.bind (m.openCases known all) fun r r' kept => ?_
  obtain ⟨kept, decided⟩ := r
  obtain ⟨kept', decided'⟩ := r'
  obtain ⟨related, rfl⟩ := kept
  cases related with
  | nil => exact .pure (m.number _)
  | cons first rest =>
    cases decided with
    | true => exact .pure first.1
    | false => exact .pure (m.piecewise (.cons first rest))

theorem confine {self self' outside outside' : Expr} (selves : R self self') (results : R a a')
    (instead : R outside outside') : R (confine c self a outside) (confine c self' a' outside') := by
  unfold Expr.confine
  rw [m.undefinedPart results, m.codomain selves, m.fits results]
  split
  · exact m.number _
  split
  · exact results
  · exact instead

end Lifting

end Matching
end ComputerAlgebra.Expr

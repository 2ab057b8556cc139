import ComputerAlgebra.Evaluation.Basic
import ComputerAlgebra.Proofs.Computation
import ComputerAlgebra.Proofs.Expr.Children

/-!
Evaluation apart from the sort of the node. An expression that is not too deep is evaluated as it
is; a rule at a node whose parts carry no conditions gives the node, or leaves it over its parts,
and nothing is moved out of it.
-/

namespace ComputerAlgebra.Expr

/-- An evaluation that returns was not refused for its depth. -/
theorem evaled_ok {c : Config} {e r : Expr} {u w : FloatUnit} (returned : e.evaled c u = .ok r w) :
    e.checkDepth c = .ok () ∧ e.evaluate c u = .ok r w := by
  cases shallow : e.checkDepth c with
  | ok =>
    refine ⟨rfl, ?_⟩
    rw [evaled, shallow] at returned
    exact returned
  | error f =>
    rw [evaled, shallow] at returned
    cases returned

theorem evaled_eq {c : Config} {e : Expr} (shallow : e.checkDepth c = .ok ()) :
    e.evaled c = e.evaluate c := by
  rw [evaled, shallow]
  rfl

theorem liftConditions_pure {settle : Expr → Computation (Option Expr)}
    {rule : List Expr → Computation (Option Expr)} {result : Expr} {parts : List Expr}
    (self : Expr) (applied : rule parts = pure (some result)) (fuel : Nat) :
    liftConditions settle rule self fuel parts = pure result := by
  unfold liftConditions
  rw [applied, pure_bind]

/-- Where no part carries a condition, a node becomes what its rule gives, or stands over its parts. -/
theorem liftConditions_bare {settle : Expr → Computation (Option Expr)}
    {rule : List Expr → Computation (Option Expr)} {self : Expr} {parts : List Expr}
    (bare : ∀ part ∈ parts, part.condition = none) (fuel : Nat) :
    liftConditions settle rule self fuel parts = do return (← rule parts).getD (self.withChildren parts) := by
  have none_left : parts.filterMap condition = [] := by
    rw [List.filterMap_eq_nil_iff]
    exact bare
  unfold liftConditions
  congr 1
  funext r
  cases r with
  | some e => rfl
  | none =>
    rw [none_left]
    cases self <;> rfl

/-- Over parts without conditions a node keeps a property that it has and that its rule keeps. -/
theorem liftConditions_plain (J : Judgment) {settle : Expr → Computation (Option Expr)}
    {rule : List Expr → Computation (Option Expr)} {parts : List Expr} {P : Expr → Prop} (self : Expr)
    (bare : ∀ part ∈ parts, part.condition = none) (applied : J.Holds (rule parts) fun r => ∀ e, r = some e → P e)
    (stays : P (self.withChildren parts)) (fuel : Nat) : J.Holds (liftConditions settle rule self fuel parts) P := by
  rw [liftConditions_bare bare]
  refine J.bind applied fun r holds => J.pure ?_
  cases r with
  | some e => exact holds e rfl
  | none => exact stays

/-- What is made of a node while conditions are moved out of it has a property, when the rule keeps it, the node
over its parts has it, and a condition may be put around what has it. The invariant is about the parts. -/
theorem liftConditions_holds (J : Judgment) {settle : Expr → Computation (Option Expr)}
    {rule : List Expr → Computation (Option Expr)} {self : Expr} {Q : List Expr → Prop} {P : Expr → Prop}
    (settled : ∀ parts, Q parts → J.Holds (settle (self.withChildren parts)) fun r => ∀ e, r = some e → P e)
    (ruled : ∀ parts, Q parts → J.Holds (rule parts) fun r => ∀ e, r = some e → P e)
    (stays : ∀ parts, Q parts → P (self.withChildren parts))
    (bare : ∀ parts, Q parts → Q (parts.map unconditioned))
    (around : ∀ parts, Q parts → ∀ p ps, parts.filterMap condition = p :: ps → ∀ inner, P inner →
      P (.provided inner (ps.foldl (.binary .and) p))) (fuel : Nat) :
    ∀ {parts : List Expr}, Q parts → J.Holds (liftConditions settle rule self fuel parts) P := by
  induction fuel with
  | zero =>
    intro parts invariant
    unfold liftConditions
    refine J.bind (ruled parts invariant) fun r holds => ?_
    cases r with
    | some e => exact J.pure (holds e rfl)
    | none =>
      dsimp only
      split <;> first | exact J.pure (stays parts invariant) | simp_all
  | succ fuel ih =>
    intro parts invariant
    unfold liftConditions
    refine J.bind (ruled parts invariant) fun r holds => ?_
    cases r with
    | some e => exact J.pure (holds e rfl)
    | none =>
      dsimp only
      split
      · exact J.pure (stays parts invariant)
      · exact J.pure (stays parts invariant)
      · exact J.pure (stays parts invariant)
      next p ps _ _ found same =>
        cases same
        have wrapped (inner : Expr) (holds : P inner) :
            J.Holds (pure (.provided inner (ps.foldl (.binary .and) p))) P :=
          J.pure (around parts invariant p ps found inner holds)
        refine J.bind (settled _ (bare parts invariant)) fun r holds => ?_
        cases r with
        | some e => exact J.bind (J.pure (holds e rfl)) wrapped
        | none => exact J.bind (ih (bare parts invariant)) wrapped

theorem liftConditions_function {settle : Expr → Computation (Option Expr)}
    {rule : List Expr → Computation (Option Expr)} {p : String} {body : Expr} {parts : List Expr} (fuel : Nat) :
    liftConditions settle rule (.lam p body) fuel parts
      = do return (← rule parts).getD ((Expr.lam p body).withChildren parts) := by
  unfold liftConditions
  congr 1
  funext r
  cases r <;> rfl

/-- A node becomes what its rule gives for its parts, stays over them, or has a condition put around it. -/
theorem liftConditions_outcome {settle : Expr → Computation (Option Expr)}
    {rule : List Expr → Computation (Option Expr)} {self : Expr} {parts : List Expr} {Q : Option Expr → Prop}
    (ruled : Returns (rule parts) Q) (fuel : Nat) :
    Returns (liftConditions settle rule self fuel parts) fun r =>
      Q (some r) ∨ Q none ∧ (r = self.withChildren parts ∨ ∃ inner p, r = .provided inner p) := by
  unfold liftConditions
  refine Returns.bind ruled fun r given => ?_
  cases r with
  | some e => exact Returns.pure (.inl given)
  | none =>
    dsimp only
    split
    · exact Returns.pure (.inr ⟨given, .inl rfl⟩)
    · exact Returns.pure (.inr ⟨given, .inl rfl⟩)
    · exact Returns.pure (.inr ⟨given, .inl rfl⟩)
    · refine Returns.bind .trivial fun value _ => ?_
      cases value with
      | some v => exact Returns.pure (.inr ⟨given, .inr ⟨_, _, rfl⟩⟩)
      | none => exact Returns.bind .trivial fun _ _ => .pure (.inr ⟨given, .inr ⟨_, _, rfl⟩⟩)

theorem conditionDepth_pos {a : Expr} (conditioned : a.condition ≠ none) : 0 < a.conditionDepth := by
  cases a <;> first | exact Nat.succ_pos _ | exact absurd rfl conditioned

theorem conditionDepth_le_rounds {parts : List Expr} {part : Expr} (member : part ∈ parts) :
    part.conditionDepth ≤ liftRounds parts := by
  have deepest := (le_foldl_max (parts.map conditionDepth) 0).2 _ (List.mem_map_of_mem member)
  rwa [List.foldl_map] at deepest

/-- Conditions are put around a node for whose parts the rule finds nothing with them, and something without. -/
theorem liftConditions_lifted {rule : List Expr → Computation (Option Expr)} {self e : Expr} {parts : List Expr}
    (movable : ∀ p body, self ≠ .lam p body) (conditioned : ∃ part ∈ parts, part.condition ≠ none)
    (unruled : Succeeds (rule parts) (· = none))
    (below : Succeeds (rule (parts.map unconditioned)) (· = some e)) :
    Succeeds (liftConditions (fun _ => return none) rule self (liftRounds parts) parts) fun r =>
      ∃ p, r = .provided e p := by
  obtain ⟨part, member, found⟩ := conditioned
  have missing : parts.filterMap condition ≠ [] := fun missing =>
    found (List.filterMap_eq_nil_iff.mp missing part member)
  have rounds : liftRounds parts ≠ 0 :=
    Nat.ne_of_gt (Nat.lt_of_lt_of_le (conditionDepth_pos found) (conditionDepth_le_rounds member))
  have inside (fuel : Nat) :
      Succeeds (liftConditions (fun _ => return none) rule self fuel (parts.map unconditioned)) (· = e) := by
    unfold liftConditions
    refine below.bind ?_
    rintro _ rfl
    exact .pure rfl
  unfold liftConditions
  refine unruled.bind ?_
  rintro _ rfl
  dsimp only
  split
  · exact absurd rfl (movable _ _)
  · next none => exact absurd none missing
  · next zero _ => exact absurd zero rounds
  · rw [pure_bind]
    refine (inside _).bind ?_
    rintro _ rfl
    exact .pure ⟨_, rfl⟩

/-- Whether a node becomes what its rule says, after the conditions of its parts. -/
def isRuled : Expr → Bool
  | .num _ | .bool _ | .var _ | .piecewise _ => false
  | _ => true

theorem evaluateNode_ruled {c : Config} {evaluate : Expr → Computation Expr} {self : Expr}
    (ruled : self.isRuled = true) (parts : List Expr) :
    evaluateNode c evaluate self parts = do
      if (← condition? c self parts) = some false then return .num .nan
      let result ← liftConditions (fun _ => return none) (evaluationRule c evaluate self) self
        (liftRounds parts) parts
      return confine c self result (.num .nan) := by
  cases self <;> first | rfl | cases ruled

theorem evaluateNode_bare {c : Config} {evaluate : Expr → Computation Expr} {self : Expr} {parts : List Expr}
    (ruled : self.isRuled = true) (bare : ∀ part ∈ parts, part.condition = none) :
    evaluateNode c evaluate self parts = do
      if (← condition? c self parts) = some false then return .num .nan
      let result ← evaluationRule c evaluate self parts
      return confine c self (result.getD (self.withChildren parts)) (.num .nan) := by
  rw [evaluateNode_ruled ruled, liftConditions_bare bare]
  simp only [bind_assoc, pure_bind]

/-- Whether an operation is defined is found out at once, where the second operand is no set. -/
theorem condition?_succeeds {c : Config} {op : BinaryOp} {a b a' b' : Expr} (single : b'.isSet = false) :
    Succeeds (condition? c (.binary op a b) [a', b']) fun _ => True := by
  cases op with
  | div =>
    simp only [condition?, single, Bool.false_eq_true, if_false]
    split <;> exact .pure trivial
  | mem =>
    cases b' with
    | num | bool => exact .pure trivial
    | _ =>
      simp only [condition?, single]
      exact .pure trivial
  | _ => exact .pure trivial

theorem isRuled_rebuilt {self : Expr} (ruled : self.isRuled = true) (parts : List Expr) :
    (self.withChildren parts).isRuled = true := by
  unfold withChildren
  split <;> first | rfl | exact ruled

theorem isRuled_fits {self : Expr} (ruled : self.isRuled = true) (domain : Domain) : fits domain self = true := by
  cases self <;> first | rfl | cases ruled

theorem isRuled_withChildren {self : Expr} (ruled : self.isRuled = true) :
    self.withChildren self.children = self := by
  cases self <;> first | rfl | cases ruled

theorem confine_nan {c : Config} (self : Expr) : confine c self (.num .nan) (.num .nan) = .num .nan := by
  simp [confine, children]

/-- Confinement makes no more of a number than a number. -/
theorem confine_number {c : Config} (self : Expr) (z : Number) :
    ∃ w, confine c self (.num z) (.num .nan) = .num w := by
  unfold confine
  split
  · exact ⟨_, rfl⟩
  split <;> exact ⟨_, rfl⟩

theorem confine_eq {c : Config} {self result outside : Expr}
    (defined : result.children.any isNaN = false) (inside : fits (self.codomain c) result = true) :
    confine c self result outside = result := by
  simp [confine, defined, inside]

/-- A variable stays, and a constant becomes a number. -/
theorem evaluateNode_var {c : Config} {evaluate : Expr → Computation Expr} (x : String) (parts : List Expr) :
    Returns (evaluateNode c evaluate (.var x) parts) fun r =>
      isConstantName x = false ∧ r = .var x ∨ isConstantName x = true ∧ ∃ z, r = .num z := by
  rw [evaluateNode]
  split
  · next constant =>
    exact Returns.bind .trivial fun z _ => .pure (.inr ⟨constant, confine_number _ z⟩)
  · next plain => exact Returns.pure (.inl ⟨by simpa using plain, rfl⟩)

end ComputerAlgebra.Expr

import ComputerAlgebra.Proofs.Nameless.Evaluation

/-!
A pass of simplification over alike expressions, with comparison by the form. From it and from evaluation
follows what the names of parameters mean to a caller: nothing, as long as no two expressions are told apart
that differ in those names alone.
-/

namespace ComputerAlgebra.Expr

variable {c : Config} {σ : Scope}

section Rules
variable {self self' : Expr} {parts parts' : List Expr} {h : Head} {evaluate again : Expr → Computation Expr}
  (known : ∀ {σ e e'}, Alike σ e e' → InStep (Alike σ) (evaluate e) (evaluate e'))

include known in
theorem alike_simplificationRule
    (deeper : ∀ {σ e e'}, Alike σ e e' → InStep (Alike σ) (again e) (again e'))
    (headed : self.head? = some h) (selves : Alike σ self self')
    (all : List.Forall₂ (Alike σ) parts parts') :
    InStep (Option.Rel (Alike σ)) (Variant.simplificationRule SameForm c evaluate again self parts)
      (Variant.simplificationRule SameForm c evaluate again self' parts') := by
  have m := alike_matching σ
  have nothing : InStep (Option.Rel (Alike σ)) (pure none) (pure none) := .pure .none
  cases m.view selves with
  | num | bool | var | lam => cases headed
  | unary op _ =>
    cases all with
    | nil => exact nothing
    | cons first rest =>
      cases rest with
      | nil => exact m.simplifyUnary? first
      | cons => exact nothing
  | binary op _ _ =>
    cases all with
    | nil => exact nothing
    | cons first rest =>
      cases rest with
      | nil => exact nothing
      | cons second rest =>
        cases rest with
        | nil => exact m.variantSimplifyBinary? (sameForm_fair σ) (fun _ _ => known) first second
        | cons => exact nothing
  | app =>
    cases all with
    | nil => exact nothing
    | cons function arguments =>
      refine InStep.bind (.lift (.inl (alike_reduceOnce? selves function arguments))) fun r r' offered => ?_
      cases offered with
      | none => exact nothing
      | some related => exact InStep.bind (deeper related) fun _ _ results => .pure (.some results)
  | provided =>
    cases all with
    | nil => exact nothing
    | cons first rest =>
      cases rest with
      | nil => exact nothing
      | cons second rest =>
        cases rest with
        | nil => exact .pure (m.providedRule? first second)
        | cons => exact nothing
  | piecewise | interval => exact nothing

/-- A node is simplified to its value, where that is exact, and by the rules for it otherwise. -/
theorem alike_valued {value value' rest rest' : Computation Expr} (selves : Alike σ self self')
    (values : InStep (Alike σ) value value') (simplified : InStep (Alike σ) rest rest') :
    InStep (Alike σ)
      (do
        let result ← match exactValue? self (← value) with
          | some value => pure value
          | none => rest
        return confine c self result self)
      (do
        let result ← match exactValue? self' (← value') with
          | some value => pure value
          | none => rest'
        return confine c self' result self') := by
  have m := alike_matching σ
  refine InStep.bind values fun v v' related => ?_
  have exact := m.exactValue? selves related
  generalize exactValue? self v = r at exact ⊢
  generalize exactValue? self' v' = r' at exact ⊢
  cases exact with
  | some result => exact .pure (m.confine selves result selves)
  | none => exact InStep.bind simplified fun _ _ result => .pure (m.confine selves result selves)

include known in
theorem alike_simplifyNode_head
    (deeper : ∀ {σ e e'}, Alike σ e e' → InStep (Alike σ) (again e) (again e'))
    {value value' : Computation Expr} (headed : self.head? = some h) (selves : Alike σ self self')
    (values : InStep (Alike σ) value value') (size : parts.length = self.children.length)
    (all : List.Forall₂ (Alike σ) parts parts') :
    InStep (Alike σ) (Variant.simplifyNode SameForm c evaluate again self value parts)
      (Variant.simplifyNode SameForm c evaluate again self' value' parts') := by
  have m := alike_matching σ
  have settled (e e' : Expr) (related : Alike σ e e') : InStep (Option.Rel (Alike σ))
      (do return exactValue? self (← evaluate e)) (do return exactValue? self' (← evaluate e')) :=
    InStep.bind (known related) fun _ _ result => .pure (m.exactValue? selves result)
  have rest := m.liftConditions headed selves settled
    (fun _ _ all => alike_simplificationRule (c := c) known deeper headed selves all) (liftRounds parts) size all
  rw [m.liftRounds all] at rest
  cases m.view selves with
  | num | bool | var | lam => cases headed
  | piecewise => exact m.decideCases (fun _ _ => known) (Matching.pairUp all)
  | unary | binary | app | provided | interval =>
    unfold Variant.simplifyNode
    rw [m.liftRounds all]
    exact alike_valued selves values rest

end Rules

section Pass
variable {evaluate again : Expr → Computation Expr}

/-- What a pass keeps of a node: how to evaluate it, and its simplified form. -/
def AlikeNode (σ : Scope) (x x' : Computation Expr × Expr) : Prop :=
  InStep (Alike σ) x.1 x'.1 ∧ Alike σ x.2 x'.2

theorem alikeNode_values {parts parts' : List (Computation Expr × Expr)}
    (all : List.Forall₂ (AlikeNode σ) parts parts') :
    InStep (fun vs vs' => vs.length = parts.length ∧ List.Forall₂ (Alike σ) vs vs')
      (parts.mapM (·.1)) (parts'.mapM (·.1)) :=
  .mapM (all.imp fun _ _ both => both.1)

theorem alikeNode_forms {parts parts' : List (Computation Expr × Expr)}
    (all : List.Forall₂ (AlikeNode σ) parts parts') :
    List.Forall₂ (Alike σ) (parts.map (·.2)) (parts'.map (·.2)) := by
  rw [List.forall₂_map_left_iff, List.forall₂_map_right_iff]
  exact all.imp fun _ _ both => both.2

theorem reduceNode_parameter {p : String} (plain : Plain p) :
    Variant.reduceNode SameForm c evaluate again (.var p) [] = pure (pure (.var p), .var p) := by
  simp [Variant.reduceNode, Variant.simplifyNode, evaluateNode_parameter plain]

theorem alike_reduceNode_lam {p q : String} {body body' : Expr} {x x' : Computation Expr × Expr}
    {plain : Plain p} {plain' : Plain q} (functions : Alike σ (.lam p body) (.lam q body'))
    (inner : AlikeNode ((⟨p, plain⟩, ⟨q, plain'⟩) :: σ) x x') :
    InStep (AlikeNode σ)
      (Variant.reduceNode SameForm c evaluate again (.lam p body) [(pure (.var p), .var p), x])
      (Variant.reduceNode SameForm c evaluate again (.lam q body') [(pure (.var q), .var q), x']) := by
  have values : InStep (Alike σ)
      (do Variant.evaluateNode SameForm c evaluate (.lam p body) (← [(pure (.var p), .var p), x].mapM (·.1)))
      (do
        Variant.evaluateNode SameForm c evaluate (.lam q body') (← [(pure (.var q), .var q), x'].mapM (·.1))) := by
    simp only [List.mapM_cons, List.mapM_nil, pure_bind, bind_assoc]
    exact InStep.bind inner.1 fun _ _ => alike_evaluateNode_lam functions
  exact InStep.bind (alike_valued functions values (alike_liftConditions_lam inner.2 rfl rfl _ _))
    fun _ _ simplified => .pure ⟨values, simplified⟩

variable (known : ∀ {σ e e'}, Alike σ e e' → InStep (Alike σ) (evaluate e) (evaluate e'))
  (deeper : ∀ {σ e e'}, Alike σ e e' → InStep (Alike σ) (again e) (again e'))

include known deeper

theorem alike_reduceNode_head {e e' : Expr} {h : Head} {parts parts' : List (Computation Expr × Expr)}
    (headed : e.head? = some h) (selves : Alike σ e e') (size : parts.length = e.children.length)
    (all : List.Forall₂ (AlikeNode σ) parts parts') :
    InStep (AlikeNode σ) (Variant.reduceNode SameForm c evaluate again e parts)
      (Variant.reduceNode SameForm c evaluate again e' parts') := by
  have values : InStep (Alike σ)
      (do Variant.evaluateNode SameForm c evaluate e (← parts.mapM (·.1)))
      (do Variant.evaluateNode SameForm c evaluate e' (← parts'.mapM (·.1))) :=
    InStep.bind (alikeNode_values all) fun _ _ both =>
      alike_evaluateNode_head known headed selves (both.1.trans size) both.2
  have forms : (parts.map (·.2)).length = e.children.length := by simpa using size
  exact InStep.bind (alike_simplifyNode_head known deeper headed selves values forms (alikeNode_forms all))
    fun _ _ simplified => .pure ⟨values, simplified⟩

theorem alike_reduceNode :
    AlikeStep (Variant.reduceNode SameForm c evaluate again) (fun p => (pure (.var p), .var p))
      AlikeNode where
  leaf := by
    intro σ e e' alike leaf
    have m := alike_matching σ
    have values : InStep (Alike σ) (Variant.evaluateNode SameForm c evaluate e [])
        (Variant.evaluateNode SameForm c evaluate e' []) :=
      (alike_evaluateNode known).leaf alike leaf
    have node {result result' : Computation Expr} (simplified : InStep (Alike σ) result result') :
        InStep (AlikeNode σ) (do return (Variant.evaluateNode SameForm c evaluate e [], ← result))
          (do return (Variant.evaluateNode SameForm c evaluate e' [], ← result')) :=
      InStep.bind simplified fun _ _ related => .pure ⟨values, related⟩
    simp only [Variant.reduceNode, List.mapM_nil, List.map_nil, pure_bind]
    cases m.view alike with
    | num | bool | var => exact node (.pure alike)
    | lam | unary | binary | app | provided | interval => cases leaf
    | piecewise all =>
      cases all with
      | nil => exact node (m.decideCases (fun _ _ => known) .nil)
      | cons => cases leaf
  parameter := reduceNode_parameter
  lam := alike_reduceNode_lam
  head := alike_reduceNode_head known deeper

omit deeper in
theorem alike_simplifyWithin (fuel : Nat) {σ : Scope} {e e' : Expr} (alike : Alike σ e e') :
    InStep (Alike σ) (Variant.simplifyWithin SameForm c evaluate Variant.endless fuel e)
      (Variant.simplifyWithin SameForm c evaluate Variant.endless fuel e') := by
  induction fuel generalizing σ e e' with
  | zero => exact .throw _
  | succ fuel ih =>
    exact InStep.bind ((alike_reduceNode known ih).foldM alike) fun _ _ both => .pure both.2

end Pass

section Outcomes

/-- Two runs that come to the same up to the names of parameters: they return expressions of one form, or fail
alike, and leave the same digits of the float unit. -/
def SameOutcome : EStateM.Result Fault FloatUnit Expr → EStateM.Result Fault FloatUnit Expr → Prop
  | .ok r w, .ok r' w' => SameForm r r' ∧ w = w'
  | .error f w, .error f' w' => f = f' ∧ w = w'
  | _, _ => False

instance (run run' : EStateM.Result Fault FloatUnit Expr) : Decidable (SameOutcome run run') :=
  match run, run' with
  | .ok r w, .ok r' w' => inferInstanceAs (Decidable (SameForm r r' ∧ w = w'))
  | .error f w, .error f' w' => inferInstanceAs (Decidable (f = f' ∧ w = w'))
  | .ok _ _, .error _ _ => .isFalse id
  | .error _ _, .ok _ _ => .isFalse id

theorem SameOutcome.symm {run run' : EStateM.Result Fault FloatUnit Expr} (same : SameOutcome run run') :
    SameOutcome run' run := by
  cases run <;> cases run' <;> first | exact same.elim | exact ⟨same.1.symm, same.2.symm⟩

theorem SameOutcome.trans {run run' run'' : EStateM.Result Fault FloatUnit Expr}
    (same : SameOutcome run run') (next : SameOutcome run' run'') : SameOutcome run run'' := by
  cases run <;> cases run' <;>
    first
    | exact same.elim
    | cases run'' <;> first | exact next.elim | exact ⟨same.1.trans next.1, same.2.trans next.2⟩

theorem sameOutcome_of_inStep {m m' : Computation Expr} (steps : InStep (Alike []) m m') (u : FloatUnit) :
    SameOutcome (m u) (m' u) := by
  rcases steps u with ⟨r, r', w, run, run', related⟩ | ⟨f, w, run, run'⟩
  · rw [run, run']
    exact ⟨sameForm_of_alike related, rfl⟩
  · rw [run, run']
    exact ⟨rfl, rfl⟩

variable {e e' : Expr}

theorem alike_evaled (alike : Alike [] e e') :
    InStep (Alike []) (Variant.evaled SameForm c e) (Variant.evaled SameForm c e') := by
  unfold Variant.evaled
  rw [(alike_matching []).checkDepth alike]
  exact InStep.after _ fun _ => alike_evaluateWithin _ alike

theorem alike_innerSimplified (alike : Alike [] e e') :
    InStep (Alike []) (Variant.innerSimplified SameForm c e) (Variant.innerSimplified SameForm c e') := by
  unfold Variant.innerSimplified
  rw [(alike_matching []).checkDepth alike]
  exact InStep.after _ fun _ => alike_simplifyWithin (alike_evaluateWithin allowance) _ alike

theorem evaled_trees (e : Expr) : Variant.evaled (· = ·) c e = e.evaled c := by
  rw [Variant.evaled, evaluate_trees, evaled]

theorem innerSimplified_trees (e : Expr) :
    Variant.innerSimplified (· = ·) c e = e.innerSimplified c := by
  rw [Variant.innerSimplified, evaluate_trees, simplifyWithin_trees, innerSimplified]

private theorem plain_letter {p : String} (letter : p ∈ ["u", "v", "x", "y", "z"]) : Plain p := by
  simp only [List.mem_cons, List.not_mem_nil, or_false] at letter
  obtain rfl | rfl | rfl | rfl | rfl := letter <;> exact ⟨by decide, fun _ => by simp [builtin?]⟩

end Outcomes

end ComputerAlgebra.Expr

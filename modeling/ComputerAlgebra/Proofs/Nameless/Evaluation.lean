import ComputerAlgebra.Proofs.Nameless.Alike

/-!
Evaluation and simplification of alike expressions, with comparison by the form: they go the same way step
by step, and the results are alike. With comparison of trees this can fail where trees are compared that
differ in the names of parameters, and nowhere else.
-/

namespace ComputerAlgebra.Expr

variable {c : Config} {σ : Scope}

section Walk
variable {α : Type} {stepM : Expr → List α → Computation α} {named : String → α}
  {S : Scope → α → α → Prop}

/-- A step of a walk that goes the same way for alike expressions. What it gives for a parameter does not
depend on what is in scope. -/
structure AlikeStep (stepM : Expr → List α → Computation α) (named : String → α)
    (S : Scope → α → α → Prop) : Prop where
  leaf : ∀ {σ e e'}, Alike σ e e' → e.children = [] → InStep (S σ) (stepM e []) (stepM e' [])
  parameter : ∀ {p}, Plain p → stepM (.var p) [] = pure (named p)
  lam : ∀ {σ p q body body' x x'} {plain : Plain p} {plain' : Plain q},
    Alike σ (.lam p body) (.lam q body') → S ((⟨p, plain⟩, ⟨q, plain'⟩) :: σ) x x' →
    InStep (S σ) (stepM (.lam p body) [named p, x]) (stepM (.lam q body') [named q, x'])
  head : ∀ {σ e e' h parts parts'}, e.head? = some h → Alike σ e e' →
    parts.length = e.children.length → List.Forall₂ (S σ) parts parts' →
    InStep (S σ) (stepM e parts) (stepM e' parts')

theorem AlikeStep.foldM (step : AlikeStep stepM named S) {e : Expr} :
    ∀ {σ e'}, Alike σ e e' → InStep (S σ) (foldM stepM e) (foldM stepM e') := by
  induction e using children_induction with
  | node e ih =>
    intro σ e' alike
    rcases shape e with ⟨z, rfl⟩ | ⟨b, rfl⟩ | ⟨x, rfl⟩ | ⟨p, body, rfl⟩ | ⟨h, headed⟩
    · obtain rfl := alike_num.mp alike
      exact step.leaf alike rfl
    · obtain rfl := alike_bool.mp alike
      exact step.leaf alike rfl
    · obtain ⟨y, rfl, _⟩ := alike_var alike
      exact step.leaf alike rfl
    · obtain ⟨q, body', rfl⟩ := form_eq_lam alike.form.symm
      obtain ⟨plain, plain', inner⟩ := alike_lam.mp alike
      rw [Expr.foldM, Expr.foldM, step.parameter plain, step.parameter plain', pure_bind, pure_bind]
      exact InStep.bind (ih body (by simp [children]) inner) fun _ _ => step.lam alike
    · obtain ⟨headed', parts⟩ := (alike_head headed).mp alike
      have each : List.Forall₂ (fun a b => InStep (S σ) (Expr.foldM stepM a) (Expr.foldM stepM b))
          e.children e'.children :=
        ((List.forall₂_and_left _ _).mpr ⟨ih, parts⟩).imp fun _ _ both => both.1 both.2
      rw [foldM_eq e, foldM_eq e']
      exact InStep.bind (.mapM each) fun _ _ related => step.head headed alike related.1 related.2

end Walk

section Application
variable {self self' head head' : Expr} {args args' : List Expr}

theorem alike_beta? (function : Alike σ head head') (all : List.Forall₂ (Alike σ) args args') :
    ∃ r r', beta? head args = .ok r ∧ beta? head' args' = .ok r' ∧ Option.Rel (Alike σ) r r' := by
  have m := alike_matching σ
  cases m.view function with
  | lam =>
    cases all with
    | nil => exact ⟨none, none, rfl, rfl, .none⟩
    | cons first rest =>
      obtain ⟨r, r', answer, answer', reduced⟩ := alike_beta function first
      simp only [beta?, answer, answer']
      cases rest with
      | nil => exact ⟨some r, some r', rfl, rfl, .some reduced⟩
      | cons second others =>
        exact ⟨some (.app r _), some (.app r' _), rfl, rfl, .some (m.app reduced (.cons second others))⟩
  | _ => exact ⟨none, none, rfl, rfl, .none⟩

/-- One step of reduction, with the guard that compares by the form. -/
theorem alike_reduceOnce? (selves : Alike σ self self') (function : Alike σ head head')
    (all : List.Forall₂ (Alike σ) args args') :
    ∃ r r', Variant.reduceOnce? SameForm self head args = .ok r ∧
      Variant.reduceOnce? SameForm self' head' args' = .ok r' ∧ Option.Rel (Alike σ) r r' := by
  have m := alike_matching σ
  unfold Variant.reduceOnce?
  extract_lets builtin builtin'
  have offered : Option.Rel (Alike σ) builtin builtin' := by
    unfold builtin builtin'
    cases m.view function with
    | var names =>
      rcases names with rfl | ⟨plain, plain'⟩
      · exact m.builtin? all
      · simp only [plain.2, plain'.2]
        exact .none
    | _ => exact .none
  clear_value builtin builtin'
  cases offered with
  | some related => exact ⟨some _, some _, rfl, rfl, .some related⟩
  | none =>
    obtain ⟨r, r', answer, answer', reduced⟩ := alike_beta? function all
    rw [answer, answer']
    cases reduced with
    | none => exact ⟨none, none, rfl, rfl, .none⟩
    | some related =>
      refine ⟨_, _, rfl, rfl, ?_⟩
      rw [m.isRedex related, decide_eq_decide.mpr ((sameForm_fair σ).alike related selves)]
      exact Matching.rel_ite .none (.some related)

end Application

section Rules
variable {self self' : Expr} {parts parts' : List Expr} {h : Head}

theorem alike_evaluationRule {evaluate : Expr → Computation Expr}
    (deeper : ∀ {σ e e'}, Alike σ e e' → InStep (Alike σ) (evaluate e) (evaluate e'))
    (headed : self.head? = some h) (selves : Alike σ self self')
    (all : List.Forall₂ (Alike σ) parts parts') :
    InStep (Option.Rel (Alike σ)) (Variant.evaluationRule SameForm c evaluate self parts)
      (Variant.evaluationRule SameForm c evaluate self' parts') := by
  have m := alike_matching σ
  have nothing : InStep (Option.Rel (Alike σ)) (pure none) (pure none) := .pure .none
  cases m.view selves with
  | num | bool | var | lam => cases headed
  | unary op _ =>
    cases all with
    | nil => exact nothing
    | cons first rest =>
      cases rest with
      | nil => exact m.unaryRule? first
      | cons => exact nothing
  | binary op _ _ =>
    cases all with
    | nil => exact nothing
    | cons first rest =>
      cases rest with
      | nil => exact nothing
      | cons second rest =>
        cases rest with
        | nil => exact m.variantBinaryRule? (sameForm_fair σ) (deeper second) first second
        | cons => exact nothing
  | app =>
    cases all with
    | nil => exact nothing
    | cons function arguments =>
      refine InStep.bind (.lift (.inl (alike_reduceOnce? selves function arguments))) fun r r' offered => ?_
      cases offered with
      | none => exact nothing
      | some related => exact InStep.bind (deeper related) fun _ _ results => .pure (.some results)
  | provided =>
    cases all with
    | nil => exact nothing
    | cons first rest =>
      cases rest with
      | nil => exact nothing
      | cons second rest =>
        cases rest with
        | nil => exact .pure (m.providedRule? first second)
        | cons => exact nothing
  | piecewise | interval => exact nothing

/-- Nothing is moved out of a function: it is reduced to what it applies, or stands over its new body. -/
theorem alike_liftConditions_lam {settle settle' : Expr → Computation (Option Expr)}
    {rule rule' : List Expr → Computation (Option Expr)} {p q : String} {body body' x x' : Expr}
    {plain : Plain p} {plain' : Plain q} (inner : Alike ((⟨p, plain⟩, ⟨q, plain'⟩) :: σ) x x')
    (ruled : rule [.var p, x] = pure (etaRule? p x)) (ruled' : rule' [.var q, x'] = pure (etaRule? q x'))
    (fuel fuel' : Nat) :
    InStep (Alike σ) (liftConditions settle rule (.lam p body) fuel [.var p, x])
      (liftConditions settle' rule' (.lam q body') fuel' [.var q, x']) := by
  unfold liftConditions
  rw [ruled, ruled', pure_bind, pure_bind]
  have offered := alike_eta inner
  generalize etaRule? p x = r at offered ⊢
  generalize etaRule? q x' = r' at offered ⊢
  cases offered with
  | some related => exact .pure related
  | none => exact .pure (alike_lam.mpr ⟨plain, plain', inner⟩)

end Rules

section Evaluation
variable {evaluate : Expr → Computation Expr}
  (deeper : ∀ {σ e e'}, Alike σ e e' → InStep (Alike σ) (evaluate e) (evaluate e'))

theorem evaluateNode_parameter {p : String} (plain : Plain p) :
    Variant.evaluateNode SameForm c evaluate (.var p) [] = pure (.var p) := by
  simp [Variant.evaluateNode, plain.1]

theorem alike_evaluateNode_lam {p q : String} {body body' x x' : Expr} {plain : Plain p} {plain' : Plain q}
    (functions : Alike σ (.lam p body) (.lam q body'))
    (inner : Alike ((⟨p, plain⟩, ⟨q, plain'⟩) :: σ) x x') :
    InStep (Alike σ) (Variant.evaluateNode SameForm c evaluate (.lam p body) [.var p, x])
      (Variant.evaluateNode SameForm c evaluate (.lam q body') [.var q, x']) := by
  have m := alike_matching σ
  refine InStep.bind (.refl (pure (some true))) ?_
  rintro _ _ rfl
  refine .ite .rfl (fun _ => .pure (m.number _)) fun _ => ?_
  refine InStep.bind (alike_liftConditions_lam inner rfl rfl _ _) fun r r' related => ?_
  exact .pure (m.confine functions related (m.number _))

include deeper in
theorem alike_evaluateNode_head {e e' : Expr} {h : Head} {parts parts' : List Expr}
    (headed : e.head? = some h) (selves : Alike σ e e') (size : parts.length = e.children.length)
    (all : List.Forall₂ (Alike σ) parts parts') :
    InStep (Alike σ) (Variant.evaluateNode SameForm c evaluate e parts)
      (Variant.evaluateNode SameForm c evaluate e' parts') := by
  have m := alike_matching σ
  have node : InStep (Alike σ) (do
      if (← condition? c e parts) = some false then return .num .nan
      let result ← liftConditions (fun _ => return none) (Variant.evaluationRule SameForm c evaluate e) e
        (liftRounds parts) parts
      return confine c e result (.num .nan)) (do
      if (← condition? c e' parts') = some false then return .num .nan
      let result ← liftConditions (fun _ => return none) (Variant.evaluationRule SameForm c evaluate e') e'
        (liftRounds parts') parts'
      return confine c e' result (.num .nan)) := by
    rw [m.condition? selves all, m.liftRounds all]
    refine InStep.after _ fun _ => .ite .rfl (fun _ => .pure (m.number _)) fun _ => ?_
    refine InStep.bind (m.liftConditions headed selves (fun _ _ _ => .pure .none)
      (fun _ _ all => alike_evaluationRule deeper headed selves all) _ size all) fun r r' related => ?_
    exact .pure (m.confine selves related (m.number _))
  cases m.view selves with
  | num | bool | var | lam => cases headed
  | piecewise => exact m.decideCases (fun _ _ => deeper) (Matching.pairUp all)
  | unary | binary | app | provided | interval => exact node

include deeper in
theorem alike_evaluateNode :
    AlikeStep (Variant.evaluateNode SameForm c evaluate) .var Alike where
  leaf := by
    intro σ e e' alike leaf
    have m := alike_matching σ
    cases m.view alike with
    | num | bool => exact .pure alike
    | @var x y names =>
      simp only [Variant.evaluateNode]
      cases constant : isConstantName x with
      | true =>
        obtain rfl | ⟨plain, _⟩ := names
        · rw [if_pos rfl, if_pos constant]
          exact InStep.after _ fun z => .pure (m.confine alike (m.number z) (m.number _))
        · rw [plain.1] at constant
          cases constant
      | false =>
        have other : isConstantName y = false := by
          rcases names with rfl | ⟨_, plain⟩
          · exact constant
          · exact plain.1
        rw [if_neg (by simp), if_neg (by simp [other])]
        exact .pure alike
    | lam | unary | binary | app | provided | interval => cases leaf
    | piecewise all =>
      cases all with
      | nil => exact m.decideCases (fun _ _ => deeper) .nil
      | cons => cases leaf
  parameter := evaluateNode_parameter
  lam := alike_evaluateNode_lam
  head := alike_evaluateNode_head deeper

theorem alike_evaluateWithin (fuel : Nat) {σ : Scope} {e e' : Expr} (alike : Alike σ e e') :
    InStep (Alike σ) (Variant.evaluateWithin SameForm c Variant.endless fuel e)
      (Variant.evaluateWithin SameForm c Variant.endless fuel e') := by
  induction fuel generalizing σ e e' with
  | zero => exact .throw _
  | succ fuel ih => exact (alike_evaluateNode ih).foldM alike

end Evaluation

end ComputerAlgebra.Expr

import ComputerAlgebra.Proofs.Polynomial.Atoms
import ComputerAlgebra.Proofs.Propositional.Truth
import ComputerAlgebra.Proofs.Simplification.Rounds

/-!
Evaluation and simplification of statements of propositional logic. Every step comes to an end and
gives a statement that may stand for the one it was given: at a node, over a tree, in a pass, and in
the polynomial form, where a statement is an atom. What stands for a statement within the limit on the
depth is within it too, so no later step refuses it.
-/

namespace ComputerAlgebra.Expr

variable {c : Config} {op : BinaryOp} {a b e : Expr}

section Walk
variable {α : Type} {stepM : Expr → List α → Computation α} {R : Expr → α → Prop}

/-- What every step over a statement keeps, the walk keeps. -/
theorem foldM_propositional
    (leaf : ∀ e, IsPropositional e → e.children = [] → Succeeds (stepM e []) (R e))
    (not : ∀ a x, IsPropositional a → R a x → Succeeds (stepM (.unary .not a) [x]) (R (.unary .not a)))
    (connective : ∀ op a b x y, op ∈ BinaryOp.connectives → IsPropositional a → IsPropositional b →
      R a x → R b y → Succeeds (stepM (.binary op a b) [x, y]) (R (.binary op a b)))
    (whole : IsPropositional e) : Succeeds (foldM stepM e) (R e) := by
  induction whole with
  | bool v =>
    rw [foldM]
    exact leaf _ (.bool v) rfl
  | var plain =>
    rw [foldM]
    exact leaf _ (.var plain) rfl
  | @not a inner ih =>
    rw [foldM]
    exact Succeeds.bind ih fun x found => not a x inner found
  | @connective op a b known left right iha ihb =>
    rw [foldM]
    refine Succeeds.bind iha fun x first => ?_
    exact Succeeds.bind ihb fun y second => connective op a b x y known left right first second

end Walk

section Node

/-- A rule that gives a statement for the node over its parts, and the domain of the node. -/
private theorem ruled_stands {settle : Expr → Computation (Option Expr)}
    {rule : List Expr → Computation (Option Expr)} {self rebuilt outside : Expr} {parts : List Expr}
    (statement : self.codomain c = .boolean) (bare : ∀ part ∈ parts, IsPropositional part)
    (same : self.withChildren parts = rebuilt) (stands : StandsFor self rebuilt)
    (applied : ∃ r, rule parts = pure r ∧ ∀ e, r = some e → StandsFor rebuilt e) (fuel : Nat) :
    Succeeds (do return confine c self (← liftConditions settle rule self fuel parts) outside)
      (StandsFor self) := by
  obtain ⟨r, computed, given⟩ := applied
  have rule_stands : Succeeds (rule parts) fun r => ∀ e, r = some e → StandsFor self e := by
    rw [computed]
    exact Succeeds.pure fun e found => stands.trans (given e found)
  have lifted : Succeeds (liftConditions settle rule self fuel parts) (StandsFor self) :=
    liftConditions_plain .succeeds self (fun part member => (bare part member).condition) rule_stands
      (by rw [same]; exact stands) fuel
  refine Succeeds.bind lifted fun result found => Succeeds.pure ?_
  rw [found.propositional.confine statement]
  exact found

variable {a' b' : Expr} (first : StandsFor a a') (second : StandsFor b b')
include first

private theorem bare_one : ∀ part ∈ [a'], IsPropositional part := by
  simpa using first.propositional

private theorem bare_two (second : StandsFor b b') : ∀ part ∈ [a', b'], IsPropositional part := by
  simpa using ⟨first.propositional, second.propositional⟩

theorem evaluateNode_not (evaluate : Expr → Computation Expr) :
    Succeeds (evaluateNode c evaluate (.unary .not a) [a']) (StandsFor (.unary .not a)) := by
  have rule := notRule_stands (unaryRule? c .not) first.propositional (fun _ => rfl)
    fun e inner other => by
      cases inner with
      | bool v => exact absurd rfl (other v)
      | var | not | connective => rfl
  exact ruled_stands rfl (bare_one first) rfl first.not rule _

theorem simplifyNode_not (again : Expr → Computation Expr) {value : Computation Expr}
    (valued : Succeeds value (StandsFor (.unary .not a))) :
    Succeeds (simplifyNode c again (.unary .not a) value [a']) (StandsFor (.unary .not a)) := by
  have rule := notRule_stands (simplifyUnary? c .not) first.propositional (fun _ => rfl)
    fun e inner other => by
      cases inner with
      | bool v => exact absurd rfl (other v)
      | var | not | connective => rfl
  simp only [simplifyNode]
  refine Succeeds.bind valued fun v stands => ?_
  rw [stands.propositional.unvalued]
  exact ruled_stands rfl (bare_one first) rfl first.not rule _

include second

theorem evaluateNode_connective (evaluate : Expr → Computation Expr)
    (known : op ∈ BinaryOp.connectives) :
    Succeeds (evaluateNode c evaluate (.binary op a b) [a', b']) (StandsFor (.binary op a b)) := by
  have defined : condition? c (.binary op a b) [a', b'] = pure (some true) := by
    rcases BinaryOp.connectives_cases known with rfl | rfl | rfl | rfl | rfl <;> rfl
  have rule := binaryRule?_stands (c := c) evaluate known first.propositional second.propositional
  simp only [evaluateNode, defined, pure_bind]
  exact ruled_stands (connective_codomain known) (bare_two first second) rfl
    (.connective known first second) rule _

theorem simplifyNode_connective (again : Expr → Computation Expr) (known : op ∈ BinaryOp.connectives)
    {value : Computation Expr} (valued : Succeeds value (StandsFor (.binary op a b))) :
    Succeeds (simplifyNode c again (.binary op a b) value [a', b']) (StandsFor (.binary op a b)) := by
  have rule := simplifyBinary?_stands (c := c) known first.propositional second.propositional
  simp only [simplifyNode]
  refine Succeeds.bind valued fun v stands => ?_
  rw [stands.propositional.unvalued]
  exact ruled_stands (connective_codomain known) (bare_two first second) rfl
    (.connective known first second) rule _

end Node

theorem evaluateNode_leaf (evaluate : Expr → Computation Expr) (whole : IsPropositional e)
    (leaf : e.children = []) : Succeeds (evaluateNode c evaluate e []) (StandsFor e) := by
  cases whole with
  | bool v => exact Succeeds.pure (.refl (.bool v))
  | var plain =>
    simp only [evaluateNode, plain]
    exact Succeeds.pure (.refl (.var plain))
  | not | connective => cases leaf

/-- Evaluation of a statement gives one that may stand for it. -/
theorem evaluateWithin_stands (fuel : Nat) (whole : IsPropositional e) :
    Succeeds (evaluateWithin c (fuel + 1) e) (StandsFor e) := by
  refine foldM_propositional (fun _ => evaluateNode_leaf _) ?_ ?_ whole
  · exact fun a x _ first => evaluateNode_not first _
  · exact fun op a b x y known _ _ first second => evaluateNode_connective first second _ known

theorem evaluate_stands (whole : IsPropositional e) : Succeeds (evaluate c e) (StandsFor e) :=
  evaluateWithin_stands 999 whole

/-- What a pass of reduction finds for a statement. -/
private structure FoundFor (e : Expr) (r : Reduced) : Prop where
  value : Succeeds r.value.run (StandsFor e)
  simplified : StandsFor e r.simplified

private theorem reduceNode_stands {again : Expr → Computation Expr} {parts : List Reduced}
    (valued : Succeeds (do evaluateNode c (evaluate c) e (← parts.mapM (·.value.run))) (StandsFor e))
    (reduced : ∀ value, Succeeds value (StandsFor e) →
      Succeeds (simplifyNode c again e value (parts.map (·.simplified))) (StandsFor e)) :
    Succeeds (reduceNode c again e parts) (FoundFor e) := by
  unfold reduceNode
  refine Succeeds.get fun u => ?_
  simp only [Tabulated.run_of]
  refine Succeeds.bind (reduced _ valued) fun r stands => Succeeds.pure ⟨?_, stands⟩
  rw [Tabulated.run_of]
  exact valued

theorem simplifyWithin_stands (fuel : Nat) (whole : IsPropositional e) :
    Succeeds (simplifyWithin c (fuel + 1) e) (StandsFor e) := by
  have walk : Succeeds (foldM (reduceNode c (simplifyWithin c fuel)) e) (FoundFor e) := by
    refine foldM_propositional (fun e whole leaf => ?_) (fun a x _ first => ?_)
      (fun op a b x y known _ _ first second => ?_) whole
    · refine reduceNode_stands ?_ fun value valued => ?_
      · exact Succeeds.bind (Succeeds.pure (P := (· = [])) rfl)
          fun parts same => same ▸ evaluateNode_leaf _ whole leaf
      · cases whole with
        | bool v => exact Succeeds.pure (.refl (.bool v))
        | var plain => exact Succeeds.pure (.refl (.var plain))
        | not | connective => cases leaf
    · refine reduceNode_stands ?_ fun value valued => simplifyNode_not first.simplified _ valued
      simp only [List.mapM_cons, List.mapM_nil, bind_assoc, pure_bind]
      exact Succeeds.bind first.value fun v stands => evaluateNode_not stands _
    · refine reduceNode_stands ?_ fun value valued =>
        simplifyNode_connective first.simplified second.simplified _ known valued
      simp only [List.mapM_cons, List.mapM_nil, bind_assoc, pure_bind]
      refine Succeeds.bind first.value fun v left => ?_
      exact Succeeds.bind second.value fun w right => evaluateNode_connective left right _ known
  exact Succeeds.bind walk fun r found => Succeeds.pure found.simplified

theorem innerSimplified_stands (whole : IsPropositional e) (shallow : e.checkDepth c = .ok ()) :
    Succeeds (innerSimplified c e) (StandsFor e) :=
  Succeeds.bind (P := fun _ => True) (Succeeds.lift shallow trivial) fun _ _ => simplifyWithin_stands 999 whole

theorem pass_stands (pass : Pass) (whole : IsPropositional e) :
    Succeeds (pass.run c e) (StandsFor e) := by
  have node {self rebuilt : Expr} (stands : StandsFor self rebuilt) :
      Succeeds (pass.atNode c rebuilt) (StandsFor self) := by
    obtain ⟨r, computed, law⟩ := atNode_stands (c := c) pass stands.propositional
    rw [computed]
    exact Succeeds.pure (stands.trans law)
  unfold Pass.run replaceM
  refine foldM_propositional (fun e whole leaf => ?_) (fun a x _ first => ?_)
    (fun op a b x y known _ _ first second => ?_) whole
  · cases whole with
    | bool v => exact node (.refl (.bool v))
    | var plain => exact node (.refl (.var plain))
    | not | connective => cases leaf
  · exact node first.not
  · exact node (.connective known first second)

/-- A statement is an atom of its polynomial form. -/
theorem multiplyOut_propositional (whole : IsPropositional e) :
    Polynomial.multiplyOut c e = Polynomial.ofAtom c e := by
  cases whole with
  | bool | var | not => simp only [Polynomial.multiplyOut, rational?]
  | connective known =>
    rcases BinaryOp.connectives_cases known with rfl | rfl | rfl | rfl | rfl <;>
      simp only [Polynomial.multiplyOut, rational?]

theorem collapse?_propositional (whole : IsPropositional e) (shallow : e.checkDepth c = .ok ()) :
    Succeeds (collapse? c e) (· = some e) := by
  have valued : Succeeds (Polynomial.ofAtom c e).run (· = some (Polynomial.atom e)) := by
    have evaluated := evaluate_stands (c := c) whole
    unfold Polynomial.ofAtom
    split
    · cases whole
    rw [OptionT.run_bind]
    refine Succeeds.bind (P := fun r => ∃ v, r = some v ∧ StandsFor e v) ?_ ?_
    · rw [OptionT.run_monadLift]
      exact Succeeds.map (evaluated.mono fun v stands => ⟨v, rfl, stands⟩)
    · rintro _ ⟨value, rfl, stands⟩
      cases stands.propositional <;> exact Succeeds.pure rfl
  have polynomial : Succeeds (Polynomial.ofExpr? c e) (· = some (Polynomial.atom e)) := by
    refine Succeeds.bind (P := fun _ => True) (Succeeds.lift shallow trivial) fun _ _ => ?_
    rw [multiplyOut_propositional whole]
    exact valued
  refine Succeeds.bind polynomial ?_
  rintro _ rfl
  refine Succeeds.get fun u => Succeeds.pure ?_
  rw [Polynomial.toExpr_atom]

/-- Statements that may stand for a given one within the limit on the depth go through all parts of a
round. -/
theorem stands_roundRules (shallow : e.checkDepth c = .ok ()) :
    RoundRules .succeeds c (StandsFor e) where
  shallow stands := Succeeds.lift (checkDepth_mono shallow stands.depth) trivial
  pass pass _ stands := (pass_stands pass stands.propositional).mono fun _ next => stands.trans next
  reduce stands := (innerSimplified_stands stands.propositional
    (checkDepth_mono shallow stands.depth)).mono fun _ next => stands.trans next
  collapse stands := (collapse?_propositional stands.propositional
    (checkDepth_mono shallow stands.depth)).mono fun _ same e' found => by
      obtain rfl := Option.some.inj (same.symm.trans found)
      exact stands

/-- Simplification of a statement at any level gives one that may stand for it. -/
theorem simplify_stands (whole : IsPropositional e) (shallow : e.checkDepth c = .ok ())
    (level : Int) : Succeeds (simplify c level e) (StandsFor e) :=
  (stands_roundRules shallow).simplify level (.refl whole)

end ComputerAlgebra.Expr

import ComputerAlgebra.Proofs.Scope.Passes
import ComputerAlgebra.Proofs.Simplification.Reduction
import ComputerAlgebra.Proofs.Simplification.Rounds

/-!
Properties that depend on what is in scope. Under a parameter an expression has to have the property of
the scope with that parameter in it. Where eta and beta reduction keep such a property, evaluation and
simplification do, in every scope at once.
-/

namespace ComputerAlgebra.Expr

/-- One step of reduction is a built-in function or takes an argument in. -/
theorem reduceOnce?_cases {self head r : Expr} {args : List Expr}
    (reduced : reduceOnce? self head args = .ok (some r)) :
    (∃ name, head = .var name ∧ builtin? name args = some r) ∨ beta? head args = .ok (some r) := by
  unfold reduceOnce? at reduced
  extract_lets builtin at reduced
  cases known : builtin with
  | some e =>
    rw [known] at reduced
    cases reduced
    left
    unfold builtin at known
    split at known
    · next name => exact ⟨name, rfl, known⟩
    · cases known
  | none =>
    rw [known] at reduced
    right
    cases taken : beta? head args with
    | error f =>
      rw [taken] at reduced
      cases reduced
    | ok next =>
      rw [taken] at reduced
      cases next with
      | none => cases reduced
      | some r' =>
        change Except.ok (if r'.isRedex && r' = self then none else some r') = _ at reduced
        have same := Except.ok.inj reduced
        split at same
        · cases same
        · rw [same]

namespace Compositional
variable {J : Judgment} {c : Config} {P Q : Expr → Prop} {evaluate : Expr → Computation Expr} {e : Expr} {h : Head}
  {I : List Expr → Prop} {parts : List Expr} (comp : Compositional J c P) (carried : Carried P e I)
include comp

section Rules
variable (size : parts.length = e.children.length) (all : ∀ part ∈ parts, P part)
include size all

theorem evaluationRule (asking : Asking J c evaluate Q) (headed : e.head? = some h)
    (asked : Asked Q (e.withChildren parts)) (applied : ∀ f args, e.head? = some .app → parts = f :: args →
      J.Holds (do
        match ← reduceOnce? e f args with
        | some reduced => return some (← evaluate reduced)
        | none => return none) (Offers P)) :
    J.Holds (evaluationRule c evaluate e parts) (Offers P) := by
  unfold Expr.evaluationRule
  split
  case h_4 => exact applied _ _ rfl rfl
  all_goals try simp only [List.forall_mem_cons] at all
  · exact comp.unaryRule? all.1
  · refine comp.binaryRule? asking ?_ all.1 all.2.1
    rintro rfl
    exact asked
  · cases headed
  · exact J.pure (comp.providedRule? all.1 all.2.1)
  · exact J.pure .none

theorem simplificationRule {again : Expr → Computation Expr} (asking : Asking J c (Expr.evaluate c) Q)
    (headed : e.head? = some h) (asked : Q (e.withChildren parts))
    (applied : ∀ f args, e.head? = some .app → parts = f :: args → J.Holds (do
        match ← reduceOnce? e f args with
        | some reduced => return some (← again reduced)
        | none => return none) (Offers P)) :
    J.Holds (simplificationRule c again e parts) (Offers P) := by
  unfold Expr.simplificationRule
  split
  case h_4 => exact applied _ _ rfl rfl
  all_goals try simp only [List.forall_mem_cons] at all
  · exact comp.simplifyUnary? all.1
  · obtain ⟨first, second⟩ := asking.binary asked
    exact comp.simplifyBinary? asking first second all.1 all.2.1
  · cases headed
  · exact J.pure (comp.providedRule? all.1 all.2.1)
  · exact J.pure .none

end Rules

section Nodes
variable (headed : e.head? = some h) (holds : P e)
include carried headed holds

/-- What evaluation makes of a node has the property of the node, when it has it of what an application reduces
to. -/
theorem evaluateNode (asking : Asking J c evaluate Q) (asked : ∀ parts, I parts → Asked Q (e.withChildren parts))
    (applied : ∀ f args, P (.app f args) → J.Holds (do
        match ← reduceOnce? e f args with
        | some reduced => return some (← evaluate reduced)
        | none => return none) (Offers P)) (invariant : I parts) :
    J.Holds (evaluateNode c evaluate e parts) P := by
  unfold Expr.evaluateNode
  split
  case h_1 | h_2 | h_3 => cases headed
  case h_4 =>
    exact comp.decideCases (fun entry member => asking.evaluated (asked parts invariant entry member)) holds
      (pairUp (carried.all invariant))
  case h_5 =>
    refine J.bind (comp.condition? (carried.all invariant)) fun defined _ => ?_
    refine J.ite (fun _ => J.pure comp.nan) fun _ => ?_
    refine J.bind ?_ fun r kept => J.pure (comp.confine kept comp.nan)
    refine comp.liftConditions headed holds carried (fun _ _ => J.pure .none) (fun parts invariant => ?_) _ invariant
    refine comp.evaluationRule (carried.size invariant) (carried.all invariant) asking headed (asked parts invariant) ?_
    rintro f args application rfl
    have whole : P (e.withChildren (f :: args)) :=
      comp.withChildren headed holds (carried.size invariant) (carried.all invariant)
    cases e with
    | app g as => exact applied f args whole
    | _ => cases application

theorem simplifyNode {again : Expr → Computation Expr} {value : Computation Expr}
    (asking : Asking J c (Expr.evaluate c) Q) (asked : ∀ parts, I parts → Q (e.withChildren parts))
    (applied : ∀ f args, P (.app f args) → J.Holds (do
        match ← reduceOnce? e f args with
        | some reduced => return some (← again reduced)
        | none => return none) (Offers P)) (valued : J.Holds value fun _ => True) (invariant : I parts) :
    J.Holds (simplifyNode c again e value parts) P := by
  unfold Expr.simplifyNode
  split
  case h_1 | h_2 | h_3 => cases headed
  case h_4 =>
    have parts := asking.parts (withChildren_head headed (carried.size invariant)).1 (asked parts invariant)
    exact comp.decideCases (fun entry member => asking.evaluated (Asked.of_parts parts entry member)) holds
      (pairUp (carried.all invariant))
  case h_5 =>
    refine J.bind valued fun v _ => ?_
    have offered := comp.exactValue? e v
    cases found : Expr.exactValue? e v with
    | some w => exact J.pure (comp.confine (offered w found) holds)
    | none =>
      refine J.bind ?_ fun r kept => J.pure (comp.confine kept holds)
      refine comp.liftConditions headed holds carried (fun parts invariant => ?_) (fun parts invariant => ?_) _ invariant
      · exact J.bind (asking.evaluated (asked parts invariant)) fun v _ => J.pure (comp.exactValue? e v)
      refine comp.simplificationRule (carried.size invariant) (carried.all invariant) asking headed
        (asked parts invariant) ?_
      rintro f args application rfl
      have whole : P (e.withChildren (f :: args)) :=
        comp.withChildren headed holds (carried.size invariant) (carried.all invariant)
      cases e with
      | app g as => exact applied f args whole
      | _ => cases application

end Nodes

end Compositional

/-- Properties of expressions by scopes: `below p i` is the scope `i` with the parameter `p` in it, and
functions have parameters that are admitted. -/
structure Scoping {ι : Type} (J : Judgment) (c : Config) (P : ι → Expr → Prop)
    (admitted : String → Prop) (below : String → ι → ι) : Prop where
  lenient : J.Lenient
  compositional : ∀ i, Compositional J c (P i)
  parameter : ∀ {i p}, P (below p i) (.var p)
  lam : ∀ {i p body}, P i (.lam p body) ↔ admitted p ∧ P (below p i) body
  eta : ∀ {i p f}, P (below p i) f → p ∉ f.freeVars → P i f
  reduced : ∀ {i head args}, P i (.app head args) → ∀ self,
    J.Holds (liftM (Expr.reduceOnce? self head args) : Computation (Option Expr)) fun r =>
      Expr.reduceOnce? self head args = .ok r
  beta : ∀ {i p body a r}, P i (.lam p body) → P i a → body.substitute (.var p) a = .ok r → P i r

/-- What stands for an expression has its property; for a name there stands the name or a number. -/
def StandsIn {ι : Type} (P : ι → Expr → Prop) (i : ι) (e r : Expr) : Prop :=
  P i r ∧ ∀ x, e = .var x → r = .var x ∨ ∃ z, r = .num z

namespace Scoping

variable {ι : Type} {J : Judgment} {c : Config} {P : ι → Expr → Prop} {admitted : String → Prop}
  {below : String → ι → ι} (scoping : Scoping J c P admitted below) {i : ι}

theorem itself {e : Expr} (holds : P i e) : StandsIn P i e e :=
  ⟨holds, fun _ same => .inl same⟩

/-- For what is no name, the property is all that is asked. -/
theorem inner {m : Computation Expr} {e : Expr} (inner : ∀ x, e ≠ .var x) (kept : J.Holds m (P i)) :
    J.Holds m (StandsIn P i e) :=
  J.mono kept fun _ holds => ⟨holds, fun x same => absurd same (inner x)⟩

theorem inner_of_head {e : Expr} {h : Head} (headed : e.head? = some h) (x : String) : e ≠ .var x := by
  rintro rfl
  cases headed

theorem parts_hold {e : Expr} {h : Head} (headed : e.head? = some h) {parts : List Expr}
    (related : List.Forall₂ (StandsIn P (inside below i e)) e.children parts) :
    ∀ part ∈ parts, P i part := by
  rw [inside_head headed] at related
  exact forall_related related fun _ _ _ stands => stands.1

section Application
include scoping

theorem parts {e : Expr} (holds : P i e) : ∀ part ∈ e.children, P (inside below i e) part := by
  rcases shape e with ⟨z, rfl⟩ | ⟨b, rfl⟩ | ⟨x, rfl⟩ | ⟨p, body, rfl⟩ | ⟨h, headed⟩
  · simp [children]
  · simp [children]
  · simp [children]
  · intro part member
    simp only [children, List.mem_cons, List.not_mem_nil, or_false] at member
    rcases member with rfl | rfl
    · exact scoping.parameter
    · exact (scoping.lam.mp holds).2
  · rw [inside_head headed]
    exact (scoping.compositional i).parts headed holds

theorem beta? {head r : Expr} {args : List Expr} (whole : P i (.app head args))
    (reduced : Expr.beta? head args = .ok (some r)) : P i r := by
  have comp := scoping.compositional i
  obtain ⟨function, all⟩ := comp.application whole
  unfold Expr.beta? at reduced
  split at reduced
  · next p body a rest =>
    rw [List.forall_mem_cons] at all
    cases answer : body.substitute (.var p) a with
    | error f =>
      rw [answer] at reduced
      cases reduced
    | ok r' =>
      rw [answer] at reduced
      have holds := scoping.beta function all.1 answer
      cases reduced
      split
      · exact holds
      · exact comp.reapplied whole (List.forall_mem_cons.mpr ⟨holds, all.2⟩)
  · cases reduced

theorem reduceOnce? {self head r : Expr} {args : List Expr} (whole : P i (.app head args))
    (reduced : Expr.reduceOnce? self head args = .ok (some r)) : P i r := by
  have comp := scoping.compositional i
  rcases reduceOnce?_cases reduced with ⟨name, rfl, found⟩ | taken
  · exact comp.builtin? (comp.application whole).2 r found
  · exact scoping.beta? whole taken

/-- An application that is reduced goes on to a walk that keeps the property. -/
theorem application {self head : Expr} {args : List Expr} {again : Expr → Computation Expr}
    (deeper : ∀ e, P i e → J.Holds (again e) (P i)) (whole : P i (.app head args)) :
    J.Holds (do
      match ← Expr.reduceOnce? self head args with
      | some reduced => return some (← again reduced)
      | none => return none) (Offers (P i)) := by
  refine J.bind (scoping.reduced whole self) fun r step => ?_
  cases r with
  | none => exact J.pure .none
  | some e =>
    exact J.bind (deeper e (scoping.reduceOnce? whole step)) fun r' kept => J.pure (.some kept)

end Application

section Nodes
include scoping

theorem etaRule? {p : String} {body : Expr} (holds : P (below p i) body) :
    Offers (P i) (etaRule? p body) := by
  unfold Expr.etaRule?
  split
  · next f y =>
    refine .ite (fun absent => .some ?_) fun _ => .none
    exact scoping.eta ((scoping.compositional (below p i)).application holds).1 absent.2
  · exact .none

/-- Where evaluation answers for what has the property, any such expression may be asked about. -/
theorem asking {evaluate : Expr → Computation Expr} (deeper : ∀ e, P i e → J.Holds (evaluate e) (P i)) :
    Asking J c evaluate (P i) where
  parts headed holds := (scoping.compositional i).parts headed holds
  checked _ := scoping.lenient.checked
  evaluated holds := J.mono (deeper _ holds) fun _ _ => trivial

theorem carried {e : Expr} : Carried (P i) e fun parts =>
    parts.length = e.children.length ∧ ∀ part ∈ parts, P i part where
  size invariant := invariant.1
  all invariant := invariant.2
  bare invariant := ⟨by rw [List.length_map, invariant.1], List.forall_mem_map.mpr fun part member =>
    (scoping.compositional i).unconditioned (invariant.2 part member)⟩

/-- Under a parameter nothing is moved out of a function. -/
theorem liftConditions_lam {settle : Expr → Computation (Option Expr)}
    {rule : List Expr → Computation (Option Expr)} {p : String} {body x body' : Expr} (fuel : Nat)
    (holds : P i (.lam p body)) (ruled : rule [x, body'] = pure (Expr.etaRule? p body'))
    (parameter : StandsIn P (below p i) (.var p) x) (kept : P (below p i) body') :
    J.Holds (liftConditions settle rule (.lam p body) fuel [x, body']) (P i) := by
  have rebuilt : P i ((Expr.lam p body).withChildren [x, body']) := by
    rcases parameter.2 p rfl with rfl | ⟨z, rfl⟩
    · exact scoping.lam.mpr ⟨(scoping.lam.mp holds).1, kept⟩
    · exact holds
  unfold Expr.liftConditions
  rw [ruled, pure_bind]
  split
  · next r found => exact J.pure (scoping.etaRule? kept r found)
  · exact J.pure rebuilt

theorem evaluateNode {evaluate : Expr → Computation Expr}
    (deeper : ∀ i e, P i e → J.Holds (evaluate e) (P i)) {e : Expr} {parts : List Expr} (holds : P i e)
    (related : List.Forall₂ (StandsIn P (inside below i e)) e.children parts) :
    J.Holds (evaluateNode c evaluate e parts) (StandsIn P i e) := by
  have comp := scoping.compositional i
  have size : parts.length = e.children.length := related.length_eq.symm
  rcases shape e with ⟨z, rfl⟩ | ⟨b, rfl⟩ | ⟨x, rfl⟩ | ⟨p, body, rfl⟩ | ⟨h, headed⟩
  · exact J.pure (itself holds)
  · exact J.pure (itself holds)
  · simp only [Expr.evaluateNode]
    split
    · next constant =>
      refine J.bind (comp.numeric.constant constant) fun w known => J.pure ?_
      obtain ⟨z, same⟩ := confine_number (c := c) (.var x) w
      have confined : P i (confine c (.var x) (.num w) (.num .nan)) := comp.confine known comp.nan
      rw [same] at confined ⊢
      exact ⟨confined, fun _ _ => .inr ⟨z, rfl⟩⟩
    · exact J.pure (itself holds)
  · obtain ⟨x, body', rfl⟩ := List.length_eq_two.mp size
    obtain ⟨parameter, kept⟩ :
        StandsIn P (below p i) (.var p) x ∧ StandsIn P (below p i) body body' := by
      simpa [children, inside] using related
    refine inner (by simp) ?_
    simp only [Expr.evaluateNode]
    refine J.bind (J.pure (P := fun _ => True) trivial) fun defined _ => ?_
    refine J.ite (fun _ => J.pure comp.nan) fun _ => ?_
    refine J.bind (scoping.liftConditions_lam _ holds rfl parameter kept.1) fun r kept => ?_
    exact J.pure (comp.confine kept comp.nan)
  · refine inner (inner_of_head headed) ?_
    refine comp.evaluateNode scoping.carried headed holds (scoping.asking (deeper i)) (fun parts invariant => ?_)
      (fun f args whole => scoping.application (deeper i) whole) ⟨size, parts_hold headed related⟩
    obtain ⟨still, same⟩ := withChildren_head headed invariant.1
    exact .of_parts (by rw [same]; exact invariant.2)

theorem evaluateWithin (fuel : Nat) : ∀ i e, P i e → J.Holds (evaluateWithin c fuel e) (P i) := by
  induction fuel with
  | zero => exact fun i _ _ => scoping.lenient.throw
  | succ fuel ih =>
    have step : ScopedStep J (Expr.evaluateNode c (Expr.evaluateWithin c fuel)) below P (StandsIn P) :=
      ⟨scoping.parts, scoping.evaluateNode ih⟩
    exact fun i e holds => J.mono (step.foldM e holds) fun _ stands => stands.1

theorem evaluate (i : ι) (e : Expr) (holds : P i e) : J.Holds (evaluate c e) (P i) :=
  scoping.evaluateWithin allowance i e holds

theorem asks : Asking J c (Expr.evaluate c) (P i) := scoping.asking (scoping.evaluate i)

theorem evaled {e : Expr} (holds : P i e) : J.Holds (evaled c e) (P i) :=
  J.bind (scoping.lenient.checked) fun _ _ => scoping.evaluate i e holds

theorem simplifyNode {again : Expr → Computation Expr} {e : Expr} {value : Computation Expr}
    {parts : List Expr} (deeper : ∀ i e, P i e → J.Holds (again e) (P i)) (holds : P i e)
    (valued : J.Holds value (P i))
    (related : List.Forall₂ (StandsIn P (inside below i e)) e.children parts) :
    J.Holds (simplifyNode c again e value parts) (StandsIn P i e) := by
  have comp := scoping.compositional i
  have size : parts.length = e.children.length := related.length_eq.symm
  rcases shape e with ⟨z, rfl⟩ | ⟨b, rfl⟩ | ⟨x, rfl⟩ | ⟨p, body, rfl⟩ | ⟨h, headed⟩
  · exact J.pure (itself holds)
  · exact J.pure (itself holds)
  · exact J.pure (itself holds)
  · obtain ⟨x, body', rfl⟩ := List.length_eq_two.mp size
    obtain ⟨parameter, kept⟩ :
        StandsIn P (below p i) (.var p) x ∧ StandsIn P (below p i) body body' := by
      simpa [children, inside] using related
    refine inner (by simp) ?_
    simp only [Expr.simplifyNode]
    refine J.bind valued fun v _ => ?_
    have offered := comp.exactValue? (.lam p body) v
    cases found : Expr.exactValue? (.lam p body) v with
    | some w => exact J.pure (comp.confine (offered w found) holds)
    | none =>
      refine J.bind (scoping.liftConditions_lam _ holds rfl parameter kept.1) fun r kept => ?_
      exact J.pure (comp.confine kept holds)
  · refine inner (inner_of_head headed) ?_
    refine comp.simplifyNode scoping.carried headed holds (scoping.asks (i := i)) (fun parts invariant => ?_)
      (fun f args whole => scoping.application (deeper i) whole) (J.mono valued fun _ _ => trivial)
      ⟨size, parts_hold headed related⟩
    exact comp.withChildren headed holds invariant.1 invariant.2

theorem keptByReduction : KeptByReduction J c below P (StandsIn P) where
  lenient := scoping.lenient
  parts := scoping.parts
  evaluated := scoping.evaluateNode scoping.evaluate
  simplified deeper holds valued related :=
    scoping.simplifyNode (fun i e holds => J.mono (deeper i e holds) fun _ stands => stands.1) holds
      (J.mono valued fun _ stands => stands.1) related

theorem innerSimplified {e : Expr} (holds : P i e) : J.Holds (innerSimplified c e) (P i) :=
  J.mono (scoping.keptByReduction.innerSimplified holds) fun _ stands => stands.1

theorem pass (pass : Pass) {e : Expr} (holds : P i e) : J.Holds (pass.run c e) (P i) :=
  replaceM_holds scoping.parts
    (fun holds => (scoping.compositional _).atNode scoping.asks pass holds holds)
    (fun holds kept => scoping.lam.mpr ⟨(scoping.lam.mp holds).1, kept⟩)
    (fun {i} _ _ _ holds headed size all => (scoping.compositional i).withChildren headed holds size all) holds

theorem roundRules (i : ι) : RoundRules J c (P i) where
  shallow _ := scoping.lenient.checked
  pass := scoping.pass
  reduce := scoping.innerSimplified
  collapse holds := (scoping.compositional i).collapse? scoping.asks scoping.lenient.checked holds holds

theorem simplify (level : Int) {e : Expr} (holds : P i e) : J.Holds (simplify c level e) (P i) :=
  (scoping.roundRules i).simplify level holds

end Nodes

end Scoping
end ComputerAlgebra.Expr

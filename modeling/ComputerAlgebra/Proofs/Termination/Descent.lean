import ComputerAlgebra.Proofs.InStep
import ComputerAlgebra.Proofs.Termination.Rules

/-!
Why reduction comes to an end. Expressions have a rank that goes down from a node to its parts and with each
reduction of an application, and that no rule takes up. The reductions inside each other are then no more
than the rank, so it makes no difference what would be done beyond.
-/

namespace ComputerAlgebra.Expr

/-- What a walk makes of a node. Numbers stay as they are, and so do variables. -/
structure Becomes (next : Expr → Expr → Prop) (e r : Expr) : Prop where
  made : next e r
  variable_ : ∀ x, isConstantName x = false → e = .var x → r = .var x
  number : ∀ z, e = .num z → r = .num z

/-- Expressions that are fine, what may become of them, and a rank by which reductions go down. -/
structure Descent (same : Expr → Expr → Prop) [DecidableRel same] (fine : Expr → Prop)
    (next : Expr → Expr → Prop) (rank : Expr → Nat) : Prop where
  parameter : ∀ {p body}, fine (.lam p body) → isConstantName p = false
  parts : ∀ {e part}, fine e → part ∈ e.children → fine part ∧ rank part < rank e
  kept : ∀ {e r}, fine e → next e r → fine r ∧ rank r ≤ rank e
  trans : ∀ {e r s}, next e r → next r s → next e s
  within : ∀ {e r}, fine e → Within 1 e r → next e r
  node : ∀ {e h parts}, fine e → e.head? = some h →
    List.Forall₂ (Becomes next) e.children parts → next e (e.withChildren parts)
  lam : ∀ {p body r}, fine (.lam p body) → next body r → next (.lam p body) (.lam p r)
  eta : ∀ {p f}, fine (.lam p (.app f [.var p])) → p ∉ f.freeVars → next (.lam p (.app f [.var p])) f
  reduced : ∀ {self f args r}, fine (.app f args) → Variant.reduceOnce? same self f args = .ok (some r) →
    next (.app f args) r ∧ rank r < rank (.app f args)

namespace Descent

variable {same : Expr → Expr → Prop} [DecidableRel same] {fine : Expr → Prop}
  {next : Expr → Expr → Prop} {rank : Expr → Nat} (d : Descent same fine next rank)
  {c : Config} {evaluate evaluate' again again' : Expr → Computation Expr}

/-- Two walks that agree on fine expressions up to a rank, with what they make of them. -/
def Below (fine : Expr → Prop) (next : Expr → Expr → Prop) (rank : Expr → Nat) (n : Nat)
    (walk walk' : Expr → Computation Expr) : Prop :=
  ∀ e, fine e → rank e < n → Coincide (next e) (walk e) (walk' e)

section Nodes
include d

theorem refl {e : Expr} (holds : fine e) : next e e := d.within holds .refl

theorem becomes_refl {e : Expr} (holds : fine e) : Becomes next e e :=
  ⟨d.refl holds, fun _ _ same => same, fun _ same => same⟩

theorem rebuilt {e : Expr} {h : Head} {parts : List Expr} (holds : fine e) (headed : e.head? = some h)
    (related : List.Forall₂ (Becomes next) e.children parts) :
    next e (e.withChildren parts) ∧ fine (e.withChildren parts) ∧ rank (e.withChildren parts) ≤ rank e :=
  have made := d.node holds headed related
  ⟨made, d.kept holds made⟩

omit d in
theorem inner {e r : Expr} {h : Head} (headed : e.head? = some h) (made : next e r) : Becomes next e r := by
  refine ⟨made, ?_, ?_⟩
  · rintro x _ rfl
    cases headed
  · rintro z rfl
    cases headed

end Nodes

section Lifting

private theorem conditions_count {count : Expr → Nat} {k m : Nat} (additive : Additive k m count)
    (parts : List Expr) : (parts.map count).sum = ((parts.map unconditioned).map count).sum
      + ((parts.filterMap condition).map fun p => k + count p).sum := by
  induction parts with
  | nil => rfl
  | cons part parts ih =>
    cases part with
    | provided e p =>
      simp only [List.map_cons, List.sum_cons, unconditioned, condition, List.filterMap_cons,
        additive.provided, ih]
      omega
    | _ =>
      simp only [List.map_cons, List.sum_cons, unconditioned, condition, List.filterMap_cons, ih]
      omega

private theorem joined_count {count : Expr → Nat} {k m : Nat} (additive : Additive k m count)
    (ps : List Expr) : ∀ p : Expr, count (ps.foldl (.binary .and) p)
      = count p + (ps.map fun q => k + count q).sum := by
  induction ps with
  | nil => intro p; rfl
  | cons q ps ih =>
    intro p
    simp only [List.foldl_cons, ih, additive.binary, List.map_cons, List.sum_cons]
    omega

private theorem nesting_unconditioned {j : Nat} (part : Expr) : part.unconditioned.nesting j ≤ part.nesting j := by
  cases part with
  | provided e p => exact nesting_part (List.mem_cons_self : e ∈ _)
  | _ => exact le_rfl

private theorem nesting_condition {j : Nat} {part q : Expr} (conditioned : part.condition = some q) :
    q.nesting j ≤ part.nesting j := by
  cases part with
  | provided e p =>
    cases conditioned
    exact nesting_part (by simp [children])
  | _ => cases conditioned

private theorem joined_nesting {j n : Nat} {p : Expr} {ps : List Expr} (first : p.nesting j ≤ n)
    (others : ∀ q ∈ ps, q.nesting j ≤ n) : (ps.foldl (.binary .and) p).nesting j ≤ n := by
  refine List.foldlRecOn (motive := fun (e : Expr) => e.nesting j ≤ n) ps _ first fun e low q member => ?_
  rw [nesting_binary]
  simpa using ⟨low, others q member⟩

/-- Conditions that are moved out of a node come to no more than they did inside. -/
theorem within_lifted {i : Nat} {self : Expr} {h : Head} {parts : List Expr} {p : Expr} {ps : List Expr}
    (headed : self.head? = some h) (size : parts.length = self.children.length)
    (found : parts.filterMap condition = p :: ps) :
    Within i (self.withChildren parts)
      (.provided (self.withChildren (parts.map unconditioned)) (ps.foldl (.binary .and) p)) where
  le {k m count} additive := by
    have bare_size : (parts.map unconditioned).length = self.children.length := by simpa using size
    obtain ⟨still, new⟩ := withChildren_head headed size
    obtain ⟨still', new'⟩ := withChildren_head headed bare_size
    have conditions := conditions_count additive parts
    rw [found, List.map_cons, List.sum_cons] at conditions
    have arguments : (self.withChildren (parts.map unconditioned)).argumentFunctions
        ≤ (self.withChildren parts).argumentFunctions := by
      cases self with
      | app f args =>
        cases parts with
        | nil => simp [children] at size
        | cons g rest =>
          have sum := conditions_count functions_additive rest
          simp only [withChildren, List.map_cons, argumentFunctions]
          omega
      | _ =>
        rw [argumentFunctions_other]
        · exact Nat.zero_le _
        · rw [still', ← headed]
          simp [head?]
    have := Nat.mul_le_mul_left m arguments
    rw [additive.provided, joined_count additive, additive.head still, additive.head still', new, new']
    omega
  nested {j} _ := by
    obtain ⟨still, new⟩ := withChildren_head headed size
    have bare_size : (parts.map unconditioned).length = self.children.length := by simpa using size
    have bare : (self.withChildren (parts.map unconditioned)).nesting j ≤ (self.withChildren parts).nesting j := by
      rw [← withChildren_withChildren headed size bare_size]
      refine nesting_rebuilt still ?_
      rw [new, List.forall₂_map_right_iff, List.forall₂_same]
      exact fun part _ => ⟨nesting_unconditioned part, by rintro z rfl; rfl⟩
    have conditions : ∀ q ∈ p :: ps, q.nesting j ≤ (self.withChildren parts).nesting j := by
      rw [← found]
      intro q member
      obtain ⟨part, inside, conditioned⟩ := List.mem_filterMap.mp member
      exact (nesting_condition conditioned).trans (nesting_part (new.symm ▸ inside))
    rw [List.forall_mem_cons] at conditions
    rw [nesting_provided, max_le_iff]
    exact ⟨bare, joined_nesting conditions.1 conditions.2⟩

/-- Without the conditions of its parts a node comes to no more. -/
theorem within_bare {i : Nat} {self : Expr} {h : Head} {parts : List Expr} (headed : self.head? = some h)
    (size : parts.length = self.children.length) :
    Within i (self.withChildren parts) (self.withChildren (parts.map unconditioned)) := by
  cases found : parts.filterMap condition with
  | nil =>
    have same : parts.map unconditioned = parts := by
      rw [List.filterMap_eq_nil_iff] at found
      refine (List.map_congr_left fun part member => ?_).trans (List.map_id parts)
      have bare := found part member
      cases part <;> first | rfl | cases bare
    rw [same]
    exact .refl
  | cons p ps => exact (within_lifted headed size found).trans (.part rfl List.mem_cons_self)

include d

/-- Lifting conditions goes the same way where rules do, and where nodes are settled alike. -/
theorem liftConditions {settle settle' : Expr → Computation (Option Expr)}
    {rule rule' : List Expr → Computation (Option Expr)} {self : Expr} {h : Head} (n : Nat)
    (headed : self.head? = some h)
    (settled : ∀ e, fine e → rank e ≤ n → Coincide (Offers (next e)) (settle e) (settle' e))
    (ruled : ∀ parts : List Expr, parts.length = self.children.length → fine (self.withChildren parts) →
      rank (self.withChildren parts) ≤ n →
      Coincide (Offers (next (self.withChildren parts))) (rule parts) (rule' parts)) (fuel : Nat) :
    ∀ {parts : List Expr}, parts.length = self.children.length → fine (self.withChildren parts) →
      rank (self.withChildren parts) ≤ n →
      Coincide (next (self.withChildren parts)) (liftConditions settle rule self fuel parts)
        (Expr.liftConditions settle' rule' self fuel parts) := by
  induction fuel with
  | zero =>
    intro parts size holds low
    unfold Expr.liftConditions
    refine Coincide.bind (ruled parts size holds low) fun r offered => ?_
    cases r with
    | some e => exact .pure (offered e rfl)
    | none =>
      dsimp only
      split <;> first | exact .pure (d.refl holds) | simp_all
  | succ fuel ih =>
    intro parts size holds low
    unfold Expr.liftConditions
    refine Coincide.bind (ruled parts size holds low) fun r offered => ?_
    cases r with
    | some e => exact .pure (offered e rfl)
    | none =>
      have bare_size : (parts.map unconditioned).length = self.children.length := by simpa using size
      have lifted {p : Expr} {ps : List Expr} (found : parts.filterMap condition = p :: ps) :
          (fine (self.withChildren (parts.map unconditioned)) ∧
            rank (self.withChildren (parts.map unconditioned)) ≤ n) ∧
          ∀ inner, next (self.withChildren (parts.map unconditioned)) inner →
            Coincide (next (self.withChildren parts)) (pure (.provided inner (ps.foldl (.binary .and) p)))
              (pure (.provided inner (ps.foldl (.binary .and) p))) := by
        have moved := d.within holds (within_lifted headed size found)
        have outer := d.kept holds moved
        have bare := d.parts outer.1 (List.mem_cons_self : self.withChildren (parts.map unconditioned) ∈ _)
        have condition := d.parts outer.1 (List.mem_cons_of_mem _ List.mem_cons_self :
          ps.foldl (.binary .and) p ∈ _)
        refine ⟨⟨bare.1, by omega⟩, fun _ made => .pure (d.trans moved ?_)⟩
        exact d.node outer.1 rfl (.cons (inner (withChildren_head headed bare_size).1 made) (.cons (d.becomes_refl condition.1) .nil))
      dsimp only
      split
      · exact .pure (d.refl holds)
      · exact .pure (d.refl holds)
      · exact .pure (d.refl holds)
      next p ps _ _ found same =>
        cases same
        obtain ⟨⟨bare, low⟩, around⟩ := lifted found
        refine Coincide.bind (settled _ bare low) fun r offered => ?_
        cases r with
        | some e => exact Coincide.bind (.pure (offered e rfl)) around
        | none => exact Coincide.bind (ih bare_size bare low) around

end Lifting

section Application
include d

/-- An application that is reduced goes on to a walk below it. -/
theorem application {self f : Expr} {args : List Expr} (holds : fine (.app f args))
    (deeper : Below fine next rank (rank (.app f args)) again again') :
    Coincide (Offers (next (.app f args)))
      (do
        match ← Variant.reduceOnce? same self f args with
        | some reduced => return some (← again reduced)
        | none => return none)
      (do
        match ← Variant.reduceOnce? same self f args with
        | some reduced => return some (← again' reduced)
        | none => return none) := by
  have lenient : Judgment.returns.Lenient := ⟨Returns.throw⟩
  have reduced : Returns (liftM (Variant.reduceOnce? same self f args) : Computation (Option Expr))
      fun r => Variant.reduceOnce? same self f args = .ok r := lenient.lift fun r step => step
  refine Coincide.bind (.of_returns reduced) fun r step => ?_
  cases r with
  | none => exact .pure .none
  | some e =>
    obtain ⟨made, lower⟩ := d.reduced holds step
    refine Coincide.bind (deeper e (d.kept holds made).1 lower) fun r' after => .pure (.some ?_)
    exact d.trans made after

end Application

section Rules

/-- A rule of two operands evaluates nothing but the second one. -/
theorem binaryRule?_congr {op : BinaryOp} {a b : Expr} (known : evaluate b = evaluate' b) :
    Variant.binaryRule? same c evaluate op a b = Variant.binaryRule? same c evaluate' op a b := by
  have identity : identityRule? c evaluate op a b = identityRule? c evaluate' op a b := by
    simp only [identityRule?, provablyNonzero, known]
  have rule : binaryRule? c evaluate op a b = binaryRule? c evaluate' op a b := by
    cases op <;> first
      | rfl
      | (cases a <;> first | exact identity | (cases b <;> first | rfl | exact identity))
  rw [Variant.binaryRule?, Variant.binaryRule?, rule]

include d

theorem offers {e : Expr} (holds : fine e) {r : Option Expr} (offered : Offers (Within 1 e) r) :
    Offers (next e) r := fun s found => d.within holds (offered s found)

theorem within_agree {e : Expr} (holds : fine e) {m : Computation (Option Expr)}
    (given : Returns m (Offers (Within 1 e))) : Coincide (Offers (next e)) m m :=
  .of_returns (given.mono fun _ => d.offers holds)

theorem evaluationRule {self : Expr} {h : Head} (headed : self.head? = some h) {parts : List Expr}
    (size : parts.length = self.children.length) (holds : fine (self.withChildren parts))
    (deeper : Below fine next rank (rank (self.withChildren parts)) evaluate evaluate') :
    Coincide (Offers (next (self.withChildren parts))) (Variant.evaluationRule same c evaluate self parts)
      (Variant.evaluationRule same c evaluate' self parts) := by
  have nothing {e : Expr} : Coincide (Offers (next e)) (pure none) (pure none) := .pure .none
  cases self with
  | num | var | bool | lam => cases headed
  | unary op x =>
    obtain ⟨a, rfl⟩ := List.length_eq_one_iff.mp size
    exact d.within_agree holds (within_unaryRule? op)
  | binary op x y =>
    obtain ⟨a, b, rfl⟩ := List.length_eq_two.mp size
    have second := d.parts holds (show b ∈ (Expr.binary op a b).children by simp [children])
    refine .of_eq ?_ ((within_binaryRule? evaluate op).mono fun _ => d.offers holds)
    exact binaryRule?_congr (deeper b second.1 second.2).eq
  | app f args =>
    cases parts with
    | nil => simp [children] at size
    | cons g rest => exact d.application holds deeper
  | provided e p =>
    obtain ⟨a, b, rfl⟩ := List.length_eq_two.mp size
    exact .pure (d.offers holds within_providedRule?)
  | piecewise | interval => exact nothing

theorem simplificationRule {self : Expr} {h : Head} (headed : self.head? = some h) {parts : List Expr}
    (size : parts.length = self.children.length) (holds : fine (self.withChildren parts))
    (known : Below fine next rank (rank (self.withChildren parts)) evaluate evaluate')
    (deeper : Below fine next rank (rank (self.withChildren parts)) again again') :
    Coincide (Offers (next (self.withChildren parts)))
      (Variant.simplificationRule same c evaluate again self parts)
      (Variant.simplificationRule same c evaluate' again' self parts) := by
  have nothing {e : Expr} : Coincide (Offers (next e)) (pure none) (pure none) := .pure .none
  cases self with
  | num | var | bool | lam => cases headed
  | unary op x =>
    obtain ⟨a, rfl⟩ := List.length_eq_one_iff.mp size
    exact d.within_agree holds (within_simplifyUnary? op)
  | binary op x y =>
    obtain ⟨a, b, rfl⟩ := List.length_eq_two.mp size
    have first := d.parts holds (show a ∈ (Expr.binary op a b).children by simp [children])
    have second := d.parts holds (show b ∈ (Expr.binary op a b).children by simp [children])
    have left := (known a first.1 first.2).eq
    have right := (known b second.1 second.2).eq
    refine .of_eq ?_ ((within_simplifyBinary? evaluate op).mono fun _ => d.offers holds)
    simp only [Variant.simplificationRule, Variant.simplifyBinary?, Variant.simplifyIdentity?,
      Variant.validLogBase, provablyNonzero, provablyPositive, left, right]
  | app f args =>
    cases parts with
    | nil => simp [children] at size
    | cons g rest => exact d.application holds deeper
  | provided e p =>
    obtain ⟨a, b, rfl⟩ := List.length_eq_two.mp size
    exact .pure (d.offers holds within_providedRule?)
  | piecewise | interval => exact nothing

theorem decideCases {cases : List (Expr × Expr)} (holds : fine (.piecewise cases))
    (deeper : Below fine next rank (rank (.piecewise cases)) evaluate evaluate') :
    Coincide (next (.piecewise cases)) (decideCases evaluate cases) (Expr.decideCases evaluate' cases) := by
  have predicates (s : Expr × Expr) (member : s ∈ cases) : evaluate s.2 = evaluate' s.2 := by
    have part := d.parts holds (show s.2 ∈ (Expr.piecewise cases).children from
      List.mem_flatMap.mpr ⟨s, member, by simp⟩)
    exact (deeper s.2 part.1 part.2).eq
  have same : Expr.openCases evaluate cases = Expr.openCases evaluate' cases := by
    clear holds deeper
    induction cases with
    | nil => rfl
    | cons s rest ih =>
      rw [List.forall_mem_cons] at predicates
      obtain ⟨e, p⟩ := s
      simp only [Expr.openCases, predicates.1, ih predicates.2]
  refine .of_eq ?_ ((within_decideCases evaluate cases).mono fun _ => d.within holds)
  rw [Expr.decideCases, same, Expr.decideCases]

end Rules

section Nodes
variable {e : Expr} {parts : List Expr}

theorem Below.mono {m n : Nat} {walk walk' : Expr → Computation Expr} (below : Below fine next rank n walk walk')
    (le : m ≤ n) : Below fine next rank m walk walk' :=
  fun e holds low => below e holds (low.trans_le le)

/-- A function is reduced to what it applies, or stands over its new body. -/
theorem liftConditions_lam {settle : Expr → Computation (Option Expr)}
    {rule : List Expr → Computation (Option Expr)} {p : String} {body r : Expr}
    (ruled : rule [.var p, r] = pure (etaRule? p r)) (fuel : Nat) :
    Expr.liftConditions settle rule (.lam p body) fuel [.var p, r]
      = pure ((etaRule? p r).getD (.lam p r)) := by
  rw [liftConditions_function, ruled, pure_bind]
  rfl

include d

theorem abstraction {p : String} {body r : Expr} (holds : fine (.lam p body)) (made : next body r) :
    next (.lam p body) ((etaRule? p r).getD (.lam p r)) := by
  have function := d.lam holds made
  cases reduced : etaRule? p r with
  | none => exact function
  | some f =>
    unfold etaRule? at reduced
    split at reduced
    · next g y =>
      split at reduced
      · next both =>
        cases reduced
        obtain ⟨rfl, absent⟩ := both
        exact d.trans function (d.eta (d.kept holds function).1 absent)
      · cases reduced
    · cases reduced

/-- The parts of a function after a walk: the parameter, and the new body. -/
theorem function_parts {p : String} {body : Expr} (holds : fine (.lam p body))
    (related : List.Forall₂ (Becomes next) (Expr.lam p body).children parts) :
    ∃ r, parts = [.var p, r] ∧ next body r := by
  cases related with
  | cons first rest =>
    cases rest with
    | cons second rest =>
      cases rest
      rw [first.variable_ p (d.parameter holds) rfl]
      exact ⟨_, rfl, second.made⟩

theorem evaluateNode (holds : fine e) (deeper : Below fine next rank (rank e) evaluate evaluate')
    (related : List.Forall₂ (Becomes next) e.children parts) :
    Coincide (Becomes next e) (Variant.evaluateNode same c evaluate e parts)
      (Variant.evaluateNode same c evaluate' e parts) := by
  have size : parts.length = e.children.length := related.length_eq.symm
  rcases shape e with ⟨z, rfl⟩ | ⟨b, rfl⟩ | ⟨x, rfl⟩ | ⟨p, body, rfl⟩ | ⟨h, headed⟩
  · exact .pure (d.becomes_refl holds)
  · exact .pure (d.becomes_refl holds)
  · simp only [Variant.evaluateNode]
    refine .ite (fun constant => ?_) fun _ => .pure (d.becomes_refl holds)
    refine Coincide.bind (.of_returns .trivial) fun z _ => .pure ⟨?_, ?_, by simp⟩
    · exact d.within holds (within_confine (.number _) (.number _))
    · rintro _ plain ⟨rfl⟩
      rw [constant] at plain
      cases plain
  · obtain ⟨r, rfl, made⟩ := d.function_parts holds related
    refine Coincide.mono (P := next (.lam p body)) ?_ fun _ after => ⟨after, by simp, by simp⟩
    simp only [Variant.evaluateNode]
    refine Coincide.bind (P := fun _ => True) (.pure trivial) fun _ _ => ?_
    refine .ite (fun _ => .pure (d.within holds (.number _))) fun _ => ?_
    rw [liftConditions_lam rfl, liftConditions_lam rfl]
    have function := d.abstraction holds made
    exact .pure (d.trans function (d.within (d.kept holds function).1 (within_confine .refl (.number _))))
  · refine Coincide.mono (P := next e) ?_ fun _ after => inner headed after
    obtain ⟨made, fineNode, low⟩ := d.rebuilt holds headed related
    have below := deeper.mono low
    unfold Variant.evaluateNode
    split
    case h_1 | h_2 | h_3 => cases headed
    case h_4 cases =>
      exact Coincide.mono (d.decideCases fineNode below) fun _ after => d.trans made after
    case h_5 =>
      refine Coincide.bind (.of_returns .trivial) fun _ _ => ?_
      refine .ite (fun _ => .pure (d.within holds (.number _))) fun _ => ?_
      refine Coincide.bind (d.liftConditions (rank (e.withChildren parts)) headed (fun _ _ _ => .pure .none)
        (fun parts size holds low => d.evaluationRule headed size holds (below.mono low)) _ size fineNode
        (le_refl _)) fun r after => .pure (d.trans made (d.trans after ?_))
      exact d.within (d.kept fineNode after).1 (within_confine .refl (.number _))

/-- A node becomes its value where that is exact, and goes by the rules for it otherwise. -/
theorem settledNode {value value' rest rest' : Computation Expr} (holds : fine e)
    (valued : Coincide (Becomes next e) value value') (simplified : Coincide (next e) rest rest') :
    Coincide (next e)
      (do
        let result ← match exactValue? e (← value) with
          | some value => pure value
          | none => rest
        return confine c e result e)
      (do
        let result ← match exactValue? e (← value') with
          | some value => pure value
          | none => rest'
        return confine c e result e) := by
  refine Coincide.bind valued fun v _ => ?_
  have settled := d.offers holds (within_exactValue? e v)
  have confined {r : Expr} (after : next e r) : next e (confine c e r e) := by
    unfold confine
    split
    · exact d.within holds (.number _)
    split
    · exact after
    · exact d.refl holds
  generalize exactValue? e v = result at settled ⊢
  cases result with
  | some w => exact .pure (confined (settled w rfl))
  | none => exact Coincide.bind simplified fun _ after => .pure (confined after)

theorem simplifyNode {value value' : Computation Expr} (holds : fine e)
    (known : Below fine next rank (rank e + 1) evaluate evaluate')
    (deeper : Below fine next rank (rank e) again again')
    (valued : Coincide (Becomes next e) value value')
    (related : List.Forall₂ (Becomes next) e.children parts) :
    Coincide (Becomes next e) (Variant.simplifyNode same c evaluate again e value parts)
      (Variant.simplifyNode same c evaluate' again' e value' parts) := by
  have size : parts.length = e.children.length := related.length_eq.symm
  rcases shape e with ⟨z, rfl⟩ | ⟨b, rfl⟩ | ⟨x, rfl⟩ | ⟨p, body, rfl⟩ | ⟨h, headed⟩
  · exact .pure (d.becomes_refl holds)
  · exact .pure (d.becomes_refl holds)
  · exact .pure (d.becomes_refl holds)
  · obtain ⟨r, rfl, made⟩ := d.function_parts holds related
    refine Coincide.mono (P := next (.lam p body)) ?_ fun _ after => ⟨after, by simp, by simp⟩
    refine d.settledNode holds valued ?_
    rw [liftConditions_lam rfl, liftConditions_lam rfl]
    exact .pure (d.abstraction holds made)
  · refine Coincide.mono (P := next e) ?_ fun _ after => inner headed after
    obtain ⟨made, fineNode, low⟩ := d.rebuilt holds headed related
    have below := deeper.mono low
    have lower : Below fine next rank (rank (e.withChildren parts)) evaluate evaluate' :=
      known.mono (low.trans (Nat.le_succ _))
    have settled (r : Expr) (fineRest : fine r) (lowRest : rank r ≤ rank (e.withChildren parts)) :
        Coincide (Offers (next r)) (do return exactValue? e (← evaluate r))
          (do return exactValue? e (← evaluate' r)) :=
      Coincide.bind (known r fineRest (Nat.lt_succ_of_le (lowRest.trans low))) fun v _ =>
        .pure (d.offers fineRest (within_exactValue? e v))
    have lifted := d.liftConditions (rank (e.withChildren parts)) headed settled
      (fun parts size holds low => d.simplificationRule (c := c) headed size holds (lower.mono low)
        (below.mono low)) (liftRounds parts) size fineNode (le_refl _)
    have node := d.settledNode (c := c) holds valued (lifted.mono fun _ after => d.trans made after)
    cases e with
    | num | bool | var | lam => cases headed
    | piecewise cases => exact Coincide.mono (d.decideCases fineNode lower) fun _ after => d.trans made after
    | unary | binary | app | provided | interval => exact node

/-- What a pass keeps of a node becomes of it: its value, and its simplified form. -/
def Kept (next : Expr → Expr → Prop) (e : Expr) (x : Computation Expr × Expr) : Prop :=
  Returns x.1 (Becomes next e) ∧ Becomes next e x.2

theorem reduceNode {results : List (Computation Expr × Expr)} (holds : fine e)
    (known : Below fine next rank (rank e + 1) evaluate evaluate')
    (deeper : Below fine next rank (rank e) again again')
    (related : List.Forall₂ (Kept next) e.children results) :
    Coincide (Kept next e) (Variant.reduceNode same c evaluate again e results)
      (Variant.reduceNode same c evaluate' again' e results) := by
  have values : Coincide (List.Forall₂ (Becomes next) e.children) (results.mapM (·.1)) (results.mapM (·.1)) :=
    .mapM (related.imp fun _ _ part => .of_returns part.1)
  have value : Coincide (Becomes next e) (do Variant.evaluateNode same c evaluate e (← results.mapM (·.1)))
      (do Variant.evaluateNode same c evaluate' e (← results.mapM (·.1))) :=
    Coincide.bind values fun parts made => d.evaluateNode holds (known.mono (Nat.le_succ _)) made
  have forms : List.Forall₂ (Becomes next) e.children (results.map (·.2)) := by
    rw [List.forall₂_map_right_iff]
    exact related.imp fun _ _ part => part.2
  unfold Variant.reduceNode
  rw [← value.eq]
  exact Coincide.bind (d.simplifyNode holds known deeper (.of_returns value.returns) forms) fun s made =>
    .pure ⟨value.returns, made⟩

end Nodes

section Walks

/-- Steps that go the same way make walks that do. -/
theorem walk {α : Type} {T : Expr → α → Prop} {stepM stepM' : Expr → List α → Computation α} {n : Nat}
    (parts : ∀ {e part}, fine e → part ∈ e.children → fine part ∧ rank part < rank e)
    (node : ∀ e parts, fine e → rank e ≤ n → List.Forall₂ T e.children parts →
      Coincide (T e) (stepM e parts) (stepM' e parts)) (e : Expr) :
    fine e → rank e ≤ n → Coincide (T e) (foldM stepM e) (foldM stepM' e) := by
  induction e using children_induction with
  | node e ih =>
    intro holds low
    have each : List.Forall₂ (fun a b => Coincide (T a) (foldM stepM b) (foldM stepM' b))
        e.children e.children := List.forall₂_same.mpr fun part member =>
      have below := parts holds member
      ih part member below.1 (below.2.le.trans low)
    rw [foldM_eq, foldM_eq]
    exact Coincide.bind (.mapM each) fun results related => node e results holds low related

include d

/-- What is done where steps are used up makes no difference to expressions of a lower rank. -/
theorem evaluateWithin (stop stop' : Expr → Computation Expr) (n : Nat) :
    Below fine next rank n (Variant.evaluateWithin same c stop n) (Variant.evaluateWithin same c stop' n) := by
  induction n with
  | zero => exact fun e _ low => absurd low (Nat.not_lt_zero _)
  | succ n ih =>
    intro e holds low
    refine Coincide.mono (walk d.parts (T := Becomes next) (fun e parts holds low related => ?_) e holds
      (Nat.le_of_lt_succ low)) fun _ after => after.made
    exact d.evaluateNode holds (ih.mono low) related

theorem simplifyWithin (stop stop' : Expr → Computation Expr) {n : Nat} :
    ∀ m ≤ n, Below fine next rank n evaluate evaluate' →
      Below fine next rank m (Variant.simplifyWithin same c evaluate stop m)
        (Variant.simplifyWithin same c evaluate' stop' m) := by
  intro m
  induction m with
  | zero => exact fun _ _ e _ low => absurd low (Nat.not_lt_zero _)
  | succ m ih =>
    intro enough known e holds low
    have deeper := ih (Nat.le_of_succ_le enough) known
    refine Coincide.bind (walk d.parts (T := Kept next) (fun e parts holds low related => ?_) e holds
      (Nat.le_of_lt_succ low)) fun _ after => .pure after.2.made
    exact d.reduceNode holds (known.mono (by omega)) (deeper.mono low) related

end Walks

section Trees
variable (trees : Descent (· = ·) fine next rank)
include trees

omit trees in
private theorem below {walk : Expr → Computation Expr} {n : Nat} (deeper : ∀ e, fine e → Returns (walk e) (next e)) :
    Below fine next rank n walk walk :=
  fun e holds _ => .of_returns (deeper e holds)

theorem evaluateNode_becomes {e : Expr} {parts : List Expr} (deeper : ∀ e, fine e → Returns (evaluate e) (next e))
    (holds : fine e) (related : List.Forall₂ (Becomes next) e.children parts) :
    Returns (Expr.evaluateNode c evaluate e parts) (Becomes next e) := by
  rw [← evaluateNode_trees]
  exact (trees.evaluateNode holds (below deeper) related).returns

/-- Whatever evaluation returns may become of the expression. -/
theorem evaluateWithin_becomes (fuel : Nat) : ∀ {e : Expr}, fine e →
    Returns (Expr.evaluateWithin c fuel e) (Becomes next e) := by
  induction fuel with
  | zero => exact fun _ => .throw
  | succ fuel ih =>
    have deeper (e : Expr) (holds : fine e) : Returns (Expr.evaluateWithin c fuel e) (next e) :=
      (ih holds).mono fun _ after => after.made
    exact fun {e} => foldM_holds .returns (fun holds part member => (trees.parts holds member).1)
      (trees.evaluateNode_becomes deeper)

theorem simplifyNode_becomes {e : Expr} {value : Computation Expr} {parts : List Expr}
    (deeper : ∀ e, fine e → Returns (again e) (next e)) (holds : fine e) (valued : Returns value (Becomes next e))
    (related : List.Forall₂ (Becomes next) e.children parts) :
    Returns (Expr.simplifyNode c again e value parts) (Becomes next e) := by
  have known (e : Expr) (holds : fine e) : Returns (Expr.evaluate c e) (next e) :=
    (trees.evaluateWithin_becomes allowance holds).mono fun _ after => after.made
  rw [← simplifyNode_trees]
  exact (trees.simplifyNode holds (below known) (below deeper) (.of_returns valued) related).returns

/-- Whatever a pass returns may become of the expression. -/
theorem simplifyWithin_becomes (fuel : Nat) : ∀ {e : Expr}, fine e →
    Returns (Expr.simplifyWithin c fuel e) (Becomes next e) := by
  induction fuel with
  | zero => exact fun _ => .throw
  | succ fuel ih =>
    have deeper (e : Expr) (holds : fine e) : Returns (Expr.simplifyWithin c fuel e) (next e) :=
      (ih holds).mono fun _ after => after.made
    intro e holds
    rw [simplifyWithin_foldM]
    exact foldM_holds .returns (R := Becomes next) (fun holds part member => (trees.parts holds member).1)
      (fun holds related => trees.simplifyNode_becomes deeper holds (trees.evaluateWithin_becomes _ holds) related) holds

end Trees

end Descent
end ComputerAlgebra.Expr

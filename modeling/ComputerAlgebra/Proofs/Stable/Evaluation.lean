import ComputerAlgebra.Proofs.Codomain.Evaluation
import ComputerAlgebra.Proofs.Stable.Result

/-!
Evaluation, step by step, returns what is kept. Where a rule has found nothing for a node over its evaluated
parts, it finds nothing when it is asked again; what it has found is a part, a value, the opposite of a part,
or the value of what an application reduces to.
-/

namespace ComputerAlgebra.Expr

section Unruled
variable {α : Type} {c : Config} {fuel : Nat} {a b : Expr}

/-- When nothing is found once, nothing is ever found. -/
def Firm (m : Computation (Option α)) : Prop := Returns m fun r => r = none → Succeeds m (· = none)

theorem firm_pure (r : Option α) : Firm (pure r) := Returns.pure fun same => .pure same

theorem firm_value {m : Computation α} : Firm (do return some (← m)) :=
  Returns.bind .trivial fun _ _ => .pure fun impossible => by cases impossible

theorem firm_steady {E : Option α → Prop} {m : Computation (Option α)} (steady : Uniform E m) : Firm m :=
  (Returns.run m).mono fun _ ⟨_, _, run⟩ same => same ▸ steady.succeeds run

theorem firm_map {m : Computation (Option α)} (firm : Firm m) (f : α → Expr) :
    Firm (do return (← m).map f) := by
  refine Returns.bind firm fun r again => .pure fun same => ?_
  have missing : r = none := Option.map_eq_none_iff.mp same
  exact Succeeds.bind (again missing) fun _ none => .pure (by rw [none, Option.map_none])

theorem unaryRule?_firm (op : UnaryOp) (a : Expr) : Firm (unaryRule? c op a) := by
  have computed (op : UnaryOp) (z : Number) : Firm (op.compute? c z) := by
    unfold UnaryOp.compute?
    split <;> first | exact firm_value | exact firm_pure _
  unfold unaryRule?
  split
  · exact firm_pure _
  · exact firm_map (computed _ _) _
  · exact firm_pure _

theorem equalsValue?_firm (a b : Expr) : Firm (equalsValue? c a b) := by
  unfold equalsValue?
  split
  · exact firm_pure _
  · split <;> first | exact firm_value | exact firm_pure _

theorem orderValue?_firm (test : Comparison) (a b : Expr) : Firm (orderValue? c test a b) := by
  unfold orderValue?
  split <;> first | exact firm_value | exact firm_pure _

theorem provablyNonzero_again (settled : Throughout (SettledNode c fuel) b) :
    Returns (provablyNonzero c (evaluateWithin c fuel) b) fun t =>
      Succeeds (provablyNonzero c pure b) (· = t) ∧ Succeeds (evaluateWithin c fuel b) (· = b) := by
  unfold provablyNonzero
  cases shallow : b.checkDepth c with
  | error f => exact fun u a w run => by cases run
  | ok =>
    refine Returns.bind .trivial fun _ _ => Returns.bind (Returns.run _) fun r ⟨u, w, run⟩ => ?_
    have again := settled_again settled run
    obtain rfl := settled_returns settled fuel u r w run
    cases r <;> exact Returns.pure ⟨Succeeds.pure rfl, again⟩

theorem identityRule?_again {op : BinaryOp} (settled : Throughout (SettledNode c fuel) b) :
    Returns (identityRule? c (evaluateWithin c fuel) op a b) fun r => r = none →
      Succeeds (identityRule? c pure op a b) (· = none) ∧
        ∀ part ∈ questioned (.binary op a b), Succeeds (evaluateWithin c fuel part) (· = part) := by
  by_cases quotient : op = .div
  · subst quotient
    unfold identityRule?
    cases one : b.isOne with
    | true => exact Returns.pure (by simp)
    | false =>
      cases zero : a.isZero with
      | false => exact Returns.pure fun _ => ⟨.pure rfl, by simp [questioned, zero]⟩
      | true =>
        refine Returns.bind (provablyNonzero_again settled) ?_
        rintro t ⟨known, again⟩
        refine Returns.pure fun same => ?_
        refine ⟨Succeeds.bind known fun t' same' => .pure (same' ▸ same), ?_⟩
        simpa [questioned, zero] using again
  · cases op <;> first
      | exact (firm_pure _).mono fun _ firm same => ⟨firm same, by simp [questioned]⟩
      | exact absurd rfl quotient

/-- A rule that has found nothing for two operands finds nothing again. -/
theorem binaryRule?_again {op : BinaryOp} (settled : Throughout (SettledNode c fuel) b) :
    Returns (binaryRule? c (evaluateWithin c fuel) op a b) fun r => r = none →
      Succeeds (binaryRule? c pure op a b) (· = none) ∧
        ∀ part ∈ questioned (.binary op a b), Succeeds (evaluateWithin c fuel part) (· = part) := by
  cases statement : op.isStatement with
  | true =>
    have unasked : questioned (.binary op a b) = [] := by
      cases op <;> first | rfl | cases statement
    have same : binaryRule? c (evaluateWithin c fuel) op a b = binaryRule? c pure op a b := by
      cases op <;> first | rfl | cases statement
    have firm : Firm (binaryRule? c pure op a b) := by
      unfold binaryRule?
      split
      case h_5 => exact firm_map (equalsValue?_firm a b) _
      case h_6 => exact firm_map (orderValue?_firm _ a b) _
      case h_7 => exact firm_map (firm_steady (contains?_steady b a)) _
      case h_8 => cases op <;> simp_all [BinaryOp.isStatement]
      all_goals exact firm_pure _
    rw [same]
    exact Returns.mono firm fun _ again missing => ⟨again missing, by simp [unasked]⟩
  | false =>
    cases numeric : a.isNumber && b.isNumber with
    | false =>
      rw [binaryRule?_identity statement numeric, binaryRule?_identity statement numeric]
      exact identityRule?_again settled
    | true =>
      obtain ⟨left, right⟩ := Bool.and_eq_true_iff.mp numeric
      cases a with
      | num x =>
        cases b with
        | num y =>
          have found : Returns (op.compute? c x y) (· ≠ none) := by
            cases op <;> first
              | exact Returns.bind .trivial fun _ _ => .pure (by simp)
              | cases statement
          have rule : binaryRule? c (evaluateWithin c fuel) op (.num x) (.num y)
              = do return (← op.compute? c x y).map .num := by
            cases op <;> first | rfl | cases statement
          rw [rule]
          exact Returns.bind found fun r given => .pure fun missing =>
            absurd (Option.map_eq_none_iff.mp missing) given
        | _ => cases right
      | _ => cases left

/-- The rule of a node that has found nothing for the evaluated parts finds nothing for the node over them. -/
theorem evaluationRule_again {e : Expr} (ruled : e.isRuled = true) {parts : List Expr}
    (size : parts.length = e.children.length) (settled : ∀ part ∈ parts, Throughout (SettledNode c fuel) part)
    (irreducible : isReducible (e.withChildren parts) = false)
    (parameter : ∀ p body, e = .lam p body → parts.head? = some (.var p)) :
    Returns (evaluationRule c (evaluateWithin c fuel) e parts) fun r => r = none →
      Succeeds (evaluationRule c pure (e.withChildren parts) parts) (· = none) ∧
        ∀ part ∈ questioned (e.withChildren parts), Succeeds (evaluateWithin c fuel part) (· = part) := by
  cases e with
  | num | bool | var | piecewise => cases ruled
  | unary op =>
    obtain ⟨x, rfl⟩ := List.length_eq_one_iff.mp size
    exact (unaryRule?_firm op x).mono fun r again missing => ⟨again missing, by simp [withChildren, questioned]⟩
  | binary op =>
    obtain ⟨x, y, rfl⟩ := List.length_eq_two.mp size
    exact binaryRule?_again (settled y (by simp))
  | lam p body =>
    obtain ⟨x, y, rfl⟩ := List.length_eq_two.mp size
    cases parameter p body rfl
    exact Returns.mono (firm_pure _) fun r again missing => ⟨again missing, by simp [withChildren, questioned]⟩
  | app =>
    cases parts with
    | nil => cases size
    | cons f args =>
      refine Returns.mono .trivial fun _ _ _ => ⟨?_, by simp [withChildren, questioned]⟩
      unfold isReducible at irreducible
      simp only [withChildren, evaluationRule] at irreducible ⊢
      split at irreducible
      · next step =>
        rw [step]
        exact .pure rfl
      · cases irreducible
  | provided =>
    obtain ⟨x, y, rfl⟩ := List.length_eq_two.mp size
    exact Returns.mono (firm_pure _) fun r again missing => ⟨again missing, by simp [withChildren, questioned]⟩
  | interval =>
    obtain ⟨x, y, rfl⟩ := List.length_eq_two.mp size
    exact Returns.mono (firm_pure _) fun r again missing => ⟨again missing, by simp [withChildren, questioned]⟩

end Unruled

section Ruled
variable {c : Config} {fuel : Nat} {a b : Expr}

/-- What a rule gives for a node is kept, unless a part of it is NaN and it will not be the result. -/
def Offered (c : Config) (fuel : Nat) (s : Expr) : Prop := s.children.any isNaN = false → Kept c fuel s

theorem offered_not (kept : Kept c fuel a) (open_ : ∀ t, a ≠ .bool t) : Offered c fuel (.unary .not a) := by
  intro unspoilt
  refine kept_node (by simpa [children] using kept) fun _ _ ordinary settled => ⟨?_, by simp [questioned]⟩
  refine ⟨?_, ⟨some true, by simp, .pure rfl⟩, ?_, unspoilt⟩
  · intro part member
    have root := (ordinary part member).root
    cases part <;> first | rfl | cases root
  · cases a with
    | bool t => exact absurd rfl (open_ t)
    | _ => exact .pure rfl

theorem connectiveRule?_offered {op : BinaryOp} (left : Kept c fuel a) (right : Kept c fuel b) :
    Offers (Offered c fuel) (connectiveRule? op a b) := by
  unfold connectiveRule?
  split <;> first
    | exact .none
    | exact .some fun _ => kept_bool _
    | exact .some fun _ => left
    | exact .some fun _ => right
    | exact .some (offered_not left fun t same => by simp_all)
    | exact .some (offered_not right fun t same => by simp_all)

private theorem offers_number {m : Computation (Option Number)} :
    Returns (do return (← m).map .num) (Offers (Offered c fuel)) :=
  Returns.bind .trivial fun _ _ => .pure (.map (Q := fun _ => True) (fun _ _ => trivial) fun z _ _ => kept_num z)

private theorem offers_truth {m : Computation (Option Bool)} :
    Returns (do return (← m).map .bool) (Offers (Offered c fuel)) :=
  Returns.bind .trivial fun _ _ => .pure (.map (Q := fun _ => True) (fun _ _ => trivial) fun t _ _ => kept_bool t)

theorem unaryRule?_offered (op : UnaryOp) (a : Expr) :
    Returns (unaryRule? c op a) (Offers (Offered c fuel)) := by
  unfold unaryRule?
  split
  · exact Returns.pure (.some fun _ => kept_bool _)
  · exact offers_number
  · exact Returns.pure .none

theorem identityRule?_offered {evaluate : Expr → Computation Expr} {op : BinaryOp} (left : Kept c fuel a)
    (right : Kept c fuel b) : Returns (identityRule? c evaluate op a b) (Offers (Offered c fuel)) := by
  have number {n : Nat} : Offered c fuel (OfNat.ofNat n : Expr) := fun _ => kept_num _
  unfold identityRule?
  split
  · refine Returns.pure (.ite (fun _ => .some number) fun _ => ?_)
    exact .ite (fun _ => .some fun _ => right) fun _ => .ite (fun _ => .some fun _ => left) fun _ => .none
  · refine Judgment.returns.ite (fun _ => Returns.pure (.some fun _ => left)) fun _ => ?_
    refine Judgment.returns.ite (fun _ => ?_) fun _ => Returns.pure .none
    exact Returns.bind .trivial fun _ _ => .pure (.ite (fun _ => .some number) fun _ => .none)
  · refine Returns.pure (.ite (fun _ => .some number) fun _ => ?_)
    exact .ite (fun _ => .some fun _ => left) fun _ => .none
  · exact Returns.pure .none

theorem binaryRule?_offered {evaluate : Expr → Computation Expr} {op : BinaryOp} (left : Kept c fuel a)
    (right : Kept c fuel b) : Returns (binaryRule? c evaluate op a b) (Offers (Offered c fuel)) := by
  unfold binaryRule?
  split
  case h_5 | h_6 | h_7 => exact offers_truth
  case h_8 =>
    split
    · exact offers_number
    · exact identityRule?_offered left right
  all_goals exact Returns.pure (connectiveRule?_offered left right)

/-- What a function is applied to is kept when the application to the parameter is. -/
theorem etaRule?_offered {p : String} (kept : Kept c fuel b) : Offers (Offered c fuel) (etaRule? p b) := by
  unfold etaRule?
  split
  · next f y =>
    refine .ite (fun _ => .some fun _ ordinary => ?_) fun _ => .none
    have whole : Throughout (isOrdinary · = true) (.app f [.var y]) := by
      refine throughout_iff.mpr ⟨rfl, ?_⟩
      simp only [children, List.forall_mem_cons, List.not_mem_nil, false_imp_iff, implies_true, and_true]
      exact ⟨ordinary, throughout_iff.mpr ⟨rfl, by simp [children]⟩⟩
    exact (kept whole).part (by simp [children])
  · exact .none

theorem providedRule?_offered (left : Kept c fuel a) : Offers (Offered c fuel) (providedRule? a b) := by
  unfold providedRule?
  split
  · split
    · exact .some fun _ => left
    · exact .some fun _ => kept_num _
  · exact .some fun _ => kept_provided _ _
  · exact .none

theorem evaluationRule_offered {e : Expr} (ruled : e.isRuled = true) {parts : List Expr}
    (size : parts.length = e.children.length) (all : ∀ part ∈ parts, Kept c fuel part)
    (deeper : ∀ e, Returns (evaluateWithin c fuel e) (Kept c fuel)) :
    Returns (evaluationRule c (evaluateWithin c fuel) e parts) (Offers (Offered c fuel)) := by
  cases e with
  | num | bool | var | piecewise => cases ruled
  | unary op =>
    obtain ⟨x, rfl⟩ := List.length_eq_one_iff.mp size
    exact unaryRule?_offered op x
  | binary op =>
    obtain ⟨x, y, rfl⟩ := List.length_eq_two.mp size
    exact binaryRule?_offered (all x (by simp)) (all y (by simp))
  | lam =>
    obtain ⟨x, y, rfl⟩ := List.length_eq_two.mp size
    exact Returns.pure (etaRule?_offered (all y (by simp)))
  | app =>
    cases parts with
    | nil => cases size
    | cons f args =>
      refine Returns.bind .trivial fun r _ => ?_
      cases r with
      | none => exact Returns.pure .none
      | some e => exact Returns.bind (deeper e) fun _ kept => .pure (.some fun _ => kept)
  | provided =>
    obtain ⟨x, y, rfl⟩ := List.length_eq_two.mp size
    exact Returns.pure (providedRule?_offered (all x (by simp)))
  | interval =>
    obtain ⟨x, y, rfl⟩ := List.length_eq_two.mp size
    exact Returns.pure .none

end Ruled

section Nodes
variable {c : Config} {fuel : Nat}

/-- What evaluation has made of an expression: a variable stays, and a constant becomes a number. -/
structure Evaluated (c : Config) (fuel : Nat) (e r : Expr) : Prop where
  kept : Kept c fuel r
  name : ∀ x, e = .var x →
    isConstantName x = false ∧ r = .var x ∨ isConstantName x = true ∧ ∃ z, r = .num z

theorem Evaluated.inner {e r : Expr} (kept : Kept c fuel r) (inner : ∀ x, e ≠ .var x) : Evaluated c fuel e r :=
  ⟨kept, fun x same => absurd same (inner x)⟩

/-- A node over kept parts is settled as far as they are, when it is defined and its rule finds nothing. -/
theorem kept_rebuilt {n : Expr} (ruled : n.isRuled = true) (parts : ∀ part ∈ n.children, Kept c fuel part)
    (defined : ∃ d, d ≠ some false ∧ Succeeds (condition? c n n.children) (· = d))
    (unruled : (∀ part ∈ n.children, Throughout (SettledNode c fuel) part) → isReducible n = false →
      Succeeds (evaluationRule c pure n n.children) (· = none) ∧
        ∀ part ∈ questioned n, Succeeds (evaluateWithin c fuel part) (· = part)) :
    Offered c fuel n := by
  intro unspoilt
  refine kept_node parts fun _ irreducible ordinary settled => ?_
  obtain ⟨missing, answers⟩ := unruled settled irreducible.root
  refine ⟨(stableNode_ruled ruled).mpr ⟨fun part member => ?_, defined, missing, unspoilt⟩, answers⟩
  have root := (ordinary part member).root
  cases part <;> first | rfl | cases root

/-- The parameter of a function comes out of evaluation as it was, unless it is a constant; then the function
is no ordinary node. -/
theorem rebuilt_children {e : Expr} (ruled : e.isRuled = true) {parts : List Expr}
    (related : List.Forall₂ (Evaluated c fuel) e.children parts) :
    isOrdinary (e.withChildren parts) = false ∨ (e.withChildren parts).children = parts ∧
      ∀ p body, e = .lam p body → parts.head? = some (.var p) := by
  have size : parts.length = e.children.length := related.length_eq.symm
  by_cases function : ∃ p body, e = .lam p body
  · obtain ⟨p, body, rfl⟩ := function
    obtain ⟨x, y, rfl⟩ := List.length_eq_two.mp size
    have parameter : Evaluated c fuel (.var p) x := (List.forall₂_cons.mp related).1
    rcases parameter.name p rfl with ⟨_, rfl⟩ | ⟨constant, z, rfl⟩
    · refine .inr ⟨rfl, ?_⟩
      rintro _ _ ⟨rfl, rfl⟩
      rfl
    · exact .inl (by simp [withChildren, isOrdinary, constant])
  · right
    obtain ⟨h, headed⟩ : ∃ h, e.head? = some h := by
      cases e <;> first | exact ⟨_, rfl⟩ | exact absurd ⟨_, _, rfl⟩ function | cases ruled
    exact ⟨(withChildren_head headed size).2, fun p body same => absurd ⟨p, body, same⟩ function⟩

theorem evaluateNode_ruled_kept {e : Expr} (ruled : e.isRuled = true) {parts : List Expr}
    (deeper : ∀ e, Returns (evaluateWithin c fuel e) (Kept c fuel))
    (related : List.Forall₂ (Evaluated c fuel) e.children parts) :
    Returns (evaluateNode c (evaluateWithin c fuel) e parts) (Kept c fuel) := by
  have size : parts.length = e.children.length := related.length_eq.symm
  have all : ∀ part ∈ parts, Kept c fuel part := forall_related related fun _ _ _ both => both.kept
  rw [evaluateNode_ruled ruled]
  refine Returns.bind (Returns.run _) fun d ⟨_, _, run⟩ => ?_
  refine Judgment.returns.ite (fun _ => Returns.pure (kept_num _)) fun open_ => ?_
  have defined : ∃ d, d ≠ some false ∧ Succeeds (condition? c (e.withChildren parts) parts) (· = d) := by
    rw [condition?_withChildren size]
    exact ⟨d, open_, (condition?_steady e parts).succeeds run⟩
  have stays : Returns (evaluationRule c (evaluateWithin c fuel) e parts) fun r => r = none →
      Offered c fuel (e.withChildren parts) := by
    rcases rebuilt_children ruled related with odd | ⟨same, parameter⟩
    · refine Returns.mono .trivial fun _ _ _ _ ordinary => ?_
      rw [ordinary.root] at odd
      cases odd
    have rebuilt := @kept_rebuilt c fuel _ (isRuled_rebuilt ruled parts)
    rw [same] at rebuilt
    by_cases fine : (∀ part ∈ parts, Throughout (SettledNode c fuel) part) ∧
        isReducible (e.withChildren parts) = false
    · exact (evaluationRule_again ruled size fine.1 fine.2 parameter).mono fun _ again missing =>
        rebuilt all defined fun _ _ => again missing
    · exact Returns.mono .trivial fun _ _ _ => rebuilt all defined fun settled irreducible =>
        absurd ⟨settled, irreducible⟩ fine
  refine Returns.bind (liftConditions_outcome ((evaluationRule_offered ruled size all deeper).and stays) _) ?_
  rintro r (⟨offered, -⟩ | ⟨⟨-, rebuilt⟩, rfl | ⟨inner, p, rfl⟩⟩)
  · exact Returns.pure (kept_confine (offered r rfl))
  · exact Returns.pure (kept_confine (rebuilt rfl))
  · exact Returns.pure (kept_confine fun _ => kept_provided _ _)

/-- Cases that are left have predicates that are decided no better when they are asked again. -/
theorem openCases_again {cases : List (Expr × Expr)} :
    Returns (openCases (evaluateWithin c fuel) cases) fun r => (∀ entry ∈ r.1, entry ∈ cases) ∧
      ((∀ entry ∈ r.1, Throughout (SettledNode c fuel) entry.2) → openCases pure r.1 = pure r ∧
        ∀ entry ∈ r.1, Succeeds (evaluateWithin c fuel entry.2) (· = entry.2)) := by
  induction cases with
  | nil => exact Returns.pure ⟨by simp, fun _ => ⟨rfl, by simp⟩⟩
  | cons entry rest ih =>
    obtain ⟨e, p⟩ := entry
    rw [openCases]
    refine Returns.bind (Returns.run _) ?_
    rintro t ⟨u, w, run⟩
    have again (settled : Throughout (SettledNode c fuel) p) :
        t = p ∧ Succeeds (evaluateWithin c fuel p) (· = p) :=
      ⟨settled_returns settled fuel u t w run, settled_again settled run⟩
    split
    · refine Returns.pure ⟨by simp, fun settled => ?_⟩
      obtain ⟨rfl, answer⟩ := again (settled (e, p) (by simp))
      exact ⟨rfl, by simpa using answer⟩
    · exact ih.mono fun r known => ⟨fun entry member => .tail _ (known.1 entry member), known.2⟩
    · next not_true not_false =>
      refine Returns.bind ih ?_
      rintro r ⟨among, steady⟩
      refine Returns.pure ⟨?_, fun settled => ?_⟩
      · rintro entry (_ | ⟨_, member⟩)
        · exact .head _
        · exact .tail _ (among entry member)
      · obtain ⟨rfl, answer⟩ := again (settled (e, p) (by simp))
        obtain ⟨same, answers⟩ := steady fun entry member => settled entry (.tail _ member)
        refine ⟨?_, ?_⟩
        · rw [openCases, pure_bind]
          split
          · exact absurd rfl not_true
          · exact absurd rfl not_false
          · rw [same, pure_bind]
        · rintro entry (_ | ⟨_, member⟩)
          · exact answer
          · exact answers entry member

theorem decideCases_kept {cases : List (Expr × Expr)}
    (all : ∀ entry ∈ cases, Kept c fuel entry.1 ∧ Kept c fuel entry.2) :
    Returns (decideCases (evaluateWithin c fuel) cases) (Kept c fuel) := by
  unfold decideCases
  refine Returns.bind openCases_again ?_
  rintro ⟨kept, decided⟩ ⟨among, steady⟩
  match kept, decided with
  | [], _ => exact Returns.pure (kept_num _)
  | (e, p) :: rest, true => exact Returns.pure (all (e, p) (among (e, p) (.head _))).1
  | entry :: rest, false =>
    refine Returns.pure (kept_node ?_ fun _ _ _ settled => ?_)
    · intro part member
      obtain ⟨entry, inside, either⟩ := List.mem_flatMap.mp member
      have both := all entry (among entry inside)
      simp only [List.mem_cons, List.not_mem_nil, or_false] at either
      rcases either with rfl | rfl
      · exact both.1
      · exact both.2
    · obtain ⟨same, answers⟩ := steady fun entry member =>
        settled entry.2 (List.mem_flatMap.mpr ⟨entry, member, by simp⟩)
      refine ⟨⟨by simp, same⟩, fun part member => ?_⟩
      obtain ⟨entry, inside, rfl⟩ := List.mem_map.mp member
      exact answers entry inside

theorem evaluateNode_kept {e : Expr} {parts : List Expr}
    (deeper : ∀ e, Returns (evaluateWithin c fuel e) (Kept c fuel))
    (related : List.Forall₂ (Evaluated c fuel) e.children parts) :
    Returns (evaluateNode c (evaluateWithin c fuel) e parts) (Evaluated c fuel e) := by
  have inner {m : Computation Expr} (kept : Returns m (Kept c fuel)) (inner : ∀ x, e ≠ .var x) :
      Returns m (Evaluated c fuel e) := kept.mono fun _ holds => .inner holds inner
  cases ruled : e.isRuled with
  | true => exact inner (evaluateNode_ruled_kept ruled deeper related) fun x same => by simp [same, isRuled] at ruled
  | false =>
    cases e with
    | num z => exact inner (Returns.pure (kept_num z)) (by simp)
    | bool b => exact inner (Returns.pure (kept_bool b)) (by simp)
    | var x =>
      refine (evaluateNode_var x parts).mono fun r named => ⟨?_, fun y same => by cases same; exact named⟩
      rcases named with ⟨plain, rfl⟩ | ⟨-, z, rfl⟩
      · exact kept_var plain
      · exact kept_num z
    | piecewise cases =>
      have all : ∀ part ∈ parts, Kept c fuel part := forall_related related fun _ _ _ both => both.kept
      exact inner (decideCases_kept (Compositional.pairUp all)) (by simp)
    | _ => cases ruled

/-- Evaluation returns what is kept. -/
theorem evaluateWithin_kept (fuel : Nat) : ∀ e, Returns (evaluateWithin c (fuel + 1) e) (Kept c fuel) := by
  have walk {fuel : Nat} (deeper : ∀ e, Returns (evaluateWithin c fuel e) (Kept c fuel)) (e : Expr) :
      Returns (evaluateWithin c (fuel + 1) e) (Kept c fuel) := by
    have step : ∀ e parts, List.Forall₂ (Evaluated c fuel) e.children parts →
        Returns (evaluateNode c (evaluateWithin c fuel) e parts) (Evaluated c fuel e) :=
      fun _ _ related => evaluateNode_kept deeper related
    exact (foldM_returns step e).mono fun _ holds => holds.kept
  induction fuel with
  | zero => exact walk fun _ => Returns.throw
  | succ fuel ih => exact walk fun e => (ih e).mono fun _ kept => kept.deeper

end Nodes

end ComputerAlgebra.Expr

/-!
Evaluation of what evaluation has returned. Where nothing is left that a condition may be moved out of, and no
application that could still be reduced, an expression that has been evaluated is its own value.
-/

namespace ComputerAlgebra.Expr

def hasVariableParameter : Expr → Bool
  | .lam p _ => !isConstantName p
  | _ => true

/-- A value without conditions and without applications to reduce is evaluated to itself, unless it has
become too deep. -/
theorem evaled_idempotent {c : Config} {e r : Expr} {u w : FloatUnit} (returned : e.evaled c u = .ok r w)
    (bare : Unconditional e ∨ Unconditional r) (named : Throughout (hasVariableParameter · = true) r)
    (irreducible : Throughout (isReducible · = false) r) (shallow : r.checkDepth c = .ok ()) :
    Succeeds (r.evaled c) (· = r) := by
  have unconditional : Unconditional r := bare.elim (evaled_unconditional · returned) id
  have ordinary : Throughout (isOrdinary · = true) r := by
    intro n inside
    have plain := unconditional n inside
    have parameter := named n inside
    cases n <;> first | rfl | exact parameter | cases plain
  have kept : Kept c 999 r := evaluateWithin_kept 999 e u r w (evaled_ok returned).2
  rw [evaled_eq shallow]
  exact settled_succeeds fun n inside => kept ordinary n inside (irreducible.within inside)

/-- A function that is applied twice, in a statement of which the opposite is taken: the rules of the
application and of the exclusive disjunction make new nodes. -/
theorem evaled_idempotent_twice :
    ∃ e r : Expr, e = .binary .xor (.bool true) (.binary .and (.var "p") (.binary (.order .less)
        (.app (.lam "f" (.app (.var "f") [.app (.var "f") [.var "x"]])) [.lam "y" (.binary .div (.var "y") 2)]) 1)) ∧
      r = .unary .not (.binary .and (.var "p") (.binary (.order .less)
        (.binary .div (.binary .div (.var "x") 2) 2) 1)) ∧
      e.evaled .default ⟨50⟩ = .ok r ⟨50⟩ ∧ Unconditional e ∧ Throughout (hasVariableParameter · = true) r ∧
      Throughout (isReducible · = false) r ∧ r.checkDepth .default = .ok () ∧
      Succeeds (r.evaled .default) (· = r) := by
  let e : Expr := .binary .xor (.bool true) (.binary .and (.var "p") (.binary (.order .less)
    (.app (.lam "f" (.app (.var "f") [.app (.var "f") [.var "x"]])) [.lam "y" (.binary .div (.var "y") 2)]) 1))
  let r : Expr := .unary .not (.binary .and (.var "p") (.binary (.order .less)
    (.binary .div (.binary .div (.var "x") 2) 2) 1))
  have returned : e.evaled .default ⟨50⟩ = .ok r ⟨50⟩ := by decide +kernel
  have bare : Unconditional e := by decide +kernel
  have named : Throughout (hasVariableParameter · = true) r := by decide +kernel
  have irreducible : Throughout (isReducible · = false) r := by decide +kernel
  have shallow : r.checkDepth .default = .ok () := by decide +kernel
  exact ⟨e, r, rfl, rfl, returned, bare, named, irreducible, shallow,
    evaled_idempotent returned (.inl bare) named irreducible shallow⟩

/-- The opposite of an expression under a condition is not looked at again; when it is, the condition is moved
out of it. -/
theorem evaled_opposite_condition :
    ∃ e r r' : Expr, e = .binary .xor (.bool true) (.provided (.var "x") (.binary (.order .greater) (.var "x") 0)) ∧
      r = .unary .not (.provided (.var "x") (.binary (.order .greater) (.var "x") 0)) ∧
      r' = .provided (.unary .not (.var "x")) (.binary (.order .greater) (.var "x") 0) ∧
      e.evaled .default ⟨50⟩ = .ok r ⟨50⟩ ∧ r.evaled .default ⟨50⟩ = .ok r' ⟨50⟩ ∧ r' ≠ r :=
  ⟨_, _, _, rfl, rfl, rfl, by decide +kernel, by decide +kernel, by decide +kernel⟩

end ComputerAlgebra.Expr

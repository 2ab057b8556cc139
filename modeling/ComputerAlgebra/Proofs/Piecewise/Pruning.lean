import ComputerAlgebra.Proofs.Propositional.Preservation
import ComputerAlgebra.Proofs.Rational.Replacement

/-!
Conditional expressions on truth values. Evaluation and simplification drop the cases whose predicates are known
to be false and those after a case whose predicate is known to be true; what is left selects the same case as all
of the cases do, for all truth values of the variables.
-/

namespace ComputerAlgebra.Expr

variable {c : Config} {S : String → Prop} {cases ks kept : List (Expr × Expr)} {k : Expr × Expr} {r : Expr}

section Walk
variable {α : Type} {stepM : Expr → List Expr → Computation Expr} {A B : Expr × Expr → Expr → Prop}

/-- A walk over the cases of a conditional expression takes each expression and each predicate to its result. -/
theorem foldCasesM_pairs (J : Judgment)
    (each : List.Forall₂ (fun k k' => J.Holds (foldM stepM k'.1) (A k) ∧ J.Holds (foldM stepM k'.2) (B k)) cases ks) :
    J.Holds (foldCasesM stepM ks) fun parts => List.Forall₂ (fun k k' => A k k'.1 ∧ B k k'.2) cases (pairUp parts) := by
  induction each with
  | nil => exact J.pure .nil
  | cons both _ ih =>
    rw [foldCasesM]
    refine J.bind both.1 fun e first => J.bind both.2 fun p second => ?_
    exact J.bind ih fun parts rest => J.pure (.cons ⟨first, second⟩ rest)

end Walk

def firstCase? (σ : String → Bool) (cases : List (Expr × Expr)) : Option (Expr × Expr) :=
  cases.find? fun k => truth σ k.2

section Deciding

/-- What is left of the cases of a conditional expression selects what they select. -/
inductive Selects (ks : List (Expr × Expr)) : Expr → Prop
  | nothing (none : ∀ σ, firstCase? σ ks = none) : Selects ks (.num .nan)
  | certain {k : Expr × Expr} (first : ∀ σ, firstCase? σ ks = some k) : Selects ks k.1
  | pending {kept : List (Expr × Expr)} (among : kept ⊆ ks) (same : ∀ σ, firstCase? σ kept = firstCase? σ ks) :
    Selects ks (.piecewise kept)

variable (J : Judgment) {evaluate : Expr → Computation Expr}

/-- Of the cases those are left that matter. When the first one that is left is known to hold it is the only one.
-/
theorem openCases_spec : (∀ k ∈ ks, J.Holds (evaluate k.2) (StandsFor k.2)) →
    J.Holds (openCases evaluate ks) fun found =>
      found.1 ⊆ ks ∧ (∀ σ, firstCase? σ found.1 = firstCase? σ ks) ∧
        (found.2 = true → ∃ k, found.1 = [k] ∧ ∀ σ, truth σ k.2 = true) := by
  induction ks with
  | nil => exact fun _ => J.pure ⟨List.Subset.refl _, fun _ => rfl, by simp⟩
  | cons k rest ih =>
    obtain ⟨e, p⟩ := k
    intro stands
    rw [List.forall_mem_cons] at stands
    rw [openCases]
    refine J.bind stands.1 fun r known => ?_
    have skipped (σ : String → Bool) (below : truth σ p = false) :
        firstCase? σ ((e, p) :: rest) = firstCase? σ rest := by
      rw [firstCase?, List.find?_cons_of_neg (by simpa using below)]
      rfl
    split
    · have holds (σ : String → Bool) : truth σ p = true := (known.truth σ).symm
      refine J.pure ⟨by simp, fun σ => ?_, fun _ => ⟨_, rfl, holds⟩⟩
      simp [firstCase?, holds]
    · refine J.mono (ih stands.2) fun found given => ⟨?_, fun σ => ?_, given.2.2⟩
      · exact List.subset_cons_of_subset _ given.1
      · rw [given.2.1, skipped σ (known.truth σ).symm]
    · refine J.bind (ih stands.2) fun found given => J.pure ⟨?_, fun σ => ?_, by simp⟩
      · exact List.cons_subset_cons _ given.1
      · cases value : truth σ p with
        | true => simp [firstCase?, value]
        | false =>
          rw [skipped σ value, ← given.2.1]
          simp [firstCase?, value]

theorem decideCases_spec (stands : ∀ k ∈ ks, J.Holds (evaluate k.2) (StandsFor k.2)) :
    J.Holds (decideCases evaluate ks) (Selects ks) := by
  refine J.bind (openCases_spec J stands) fun found given => ?_
  split
  · exact J.pure (.nothing fun σ => (given.2.1 σ).symm)
  · next e p _ =>
    obtain ⟨k, ⟨rfl⟩, holds⟩ := given.2.2 rfl
    refine J.pure (.certain (k := (e, p)) fun σ => ?_)
    rw [← given.2.1]
    simp [firstCase?, holds]
  · exact J.pure (.pending given.1 given.2.1)

end Deciding

section Pruning

def CaseReplaces (c : Config) (S : String → Prop) (k k' : Expr × Expr) : Prop :=
  Replaces c S k.1 k'.1 ∧ StandsFor k.2 k'.2

/-- What is left of a conditional expression when something has been put in place of each of its cases. -/
def Prunes (c : Config) (S : String → Prop) (cases : List (Expr × Expr)) (r : Expr) : Prop :=
  ∃ ks, List.Forall₂ (CaseReplaces c S) cases ks ∧ Selects ks r

/-- The cases that stand in place of others are selected where those are. -/
theorem firstCase?_related (related : List.Forall₂ (CaseReplaces c S) cases ks) (σ : String → Bool) :
    (firstCase? σ cases = none → firstCase? σ ks = none) ∧
      ∀ k, firstCase? σ cases = some k → ∃ k', firstCase? σ ks = some k' ∧ CaseReplaces c S k k' := by
  induction related with
  | nil => exact ⟨fun _ => rfl, fun k first => by cases first⟩
  | @cons k k' _ _ replaces _ ih =>
    have same := replaces.2.truth σ
    simp only [firstCase?, List.find?_cons, same]
    split
    · refine ⟨nofun, ?_⟩
      rintro _ ⟨rfl⟩
      exact ⟨k', rfl, replaces⟩
    · exact ih

section Walks
variable {shallow : Nat → Prop} {nested : Prop}

/-- A walk that puts something in place of the cases and then decides them prunes the conditional expression. -/
private theorem walk_prunes {R : Fault → Prop} {stepM : Expr → List Expr → Computation Expr} (fuel : Nat)
    (first : ∀ k ∈ cases, Permitted R (foldM stepM k.1) (Replaces c S k.1))
    (second : ∀ k ∈ cases, Permitted R (foldM stepM k.2) (StandsFor k.2))
    (node : ∀ parts, stepM (.piecewise cases) parts = decideCases (evaluateWithin c (fuel + 1)) (pairUp parts)) :
    Permitted R (foldM stepM (.piecewise cases)) (Prunes c S cases) := by
  rw [foldM]
  have each : List.Forall₂ (fun k k' => Permitted R (foldM stepM k'.1) (Replaces c S k.1) ∧
      Permitted R (foldM stepM k'.2) (StandsFor k.2)) cases cases :=
    List.forall₂_same.mpr fun k member => ⟨first k member, second k member⟩
  refine Permitted.bind (foldCasesM_pairs (.permitted R) each) fun parts related => ?_
  rw [node]
  have stands (k : Expr × Expr) (member : k ∈ pairUp parts) :
      Permitted R (evaluateWithin c (fuel + 1) k.2) (StandsFor k.2) := by
    refine .of_succeeds (evaluateWithin_stands fuel ?_)
    exact forall_related related (fun _ _ _ replaces => replaces.2.propositional) k member
  exact (decideCases_spec (.permitted R) stands).mono fun r selects => ⟨_, related, selects⟩

variable (precise : c.precisionFault? = none)
  (expressions : ∀ k ∈ cases, Ready (IsArithmeticOver S) depth shallow nested allowance k.1)
  (predicates : ∀ k ∈ cases, IsPropositional k.2)
include precise expressions predicates

theorem evaluate_prunes :
    Permitted (Exceeds c shallow nested) (evaluate c (.piecewise cases)) (Prunes c S cases) :=
  walk_prunes 998 (fun k member => evaluateWithin_replaces precise allowance (expressions k member))
    (fun k member => .of_succeeds (evaluate_stands (predicates k member))) fun _ => rfl

theorem simplifyWithin_prunes :
    Permitted (Exceeds c shallow nested) (simplifyWithin c allowance (.piecewise cases)) (Prunes c S cases) := by
  change Permitted _ (simplifyWithin c (999 + 1) _) _
  rw [simplifyWithin_foldM]
  refine walk_prunes 999 (fun k member => ?_) (fun k member => ?_) fun _ => rfl
  · rw [← simplifyWithin_foldM]
    exact simplifyWithin_replaces precise 999 (expressions k member)
  · rw [← simplifyWithin_foldM]
    exact .of_succeeds (simplifyWithin_stands 999 (predicates k member))

end Walks

end Pruning

section Assigning
variable {f : String → Option Expr} {σ : String → Bool} {ρ : Assignment} {p : Expr}

/-- With truth values filled in for its variables a statement evaluates to its truth value. -/
theorem evaluate_filled_truth (whole : IsPropositional p) : (∀ x ∈ p.names, f x = some (.bool (σ x))) →
    evaluate c (p.fill f) = pure (.bool (truth σ p)) := by
  change _ → foldM (evaluateNode c (evaluateWithin c 999)) (p.fill f) = _
  induction whole with
  | bool v => exact fun _ => rfl
  | @var x plain =>
    intro given
    rw [fill_var, given x (by simp)]
    rfl
  | @not a _ ih =>
    intro given
    rw [fill_unary, foldM, ih fun x named => given x (names_child (by simp [children]) named)]
    exact evaluateNode_bool _ _ _
  | @connective op a b known _ _ iha ihb =>
    intro given
    rw [fill_binary, foldM, iha fun x named => given x (names_child (by simp [children]) named),
      ihb fun x named => given x (names_child (by simp [children]) named)]
    exact evaluateNode_bools _ known _ _ _ _

/-- Where all predicates are decided, the expression of the first case that holds is left, and NaN when there is
none. -/
theorem decideCases_known {evaluate : Expr → Computation Expr} {R : Expr × Expr → Expr → Prop}
    (known : ∀ b, evaluate (.bool b) = pure (.bool b))
    (related : List.Forall₂ (fun k k' => R k k'.1 ∧ k'.2 = .bool (truth σ k.2)) cases ks) :
    ∃ r, decideCases evaluate ks = pure r ∧ (firstCase? σ cases = none → r = .num .nan) ∧
      ∀ k, firstCase? σ cases = some k → R k r := by
  have opened : ∃ found, openCases evaluate ks = pure found ∧
      (found = ([], false) ∧ firstCase? σ cases = none ∨
        ∃ k k', found = ([k'], true) ∧ firstCase? σ cases = some k ∧ R k k'.1) := by
    induction related with
    | nil => exact ⟨_, rfl, .inl ⟨rfl, rfl⟩⟩
    | @cons k k' cases ks both _ ih =>
      obtain ⟨e, p⟩ := k'
      obtain ⟨holds, rfl⟩ := both
      rw [openCases, known, pure_bind]
      cases value : truth σ k.2 with
      | true => exact ⟨_, rfl, .inr ⟨k, _, rfl, by simp [firstCase?, value], holds⟩⟩
      | false =>
        rw [show firstCase? σ (k :: cases) = firstCase? σ cases by simp [firstCase?, value]]
        exact ih
  obtain ⟨found, computed, ⟨rfl, none⟩ | ⟨k, k', rfl, first, holds⟩⟩ := opened
  · refine ⟨_, by rw [decideCases, computed, pure_bind], fun _ => rfl, fun k first => ?_⟩
    rw [none] at first
    cases first
  · refine ⟨_, by rw [decideCases, computed, pure_bind], fun none => ?_, fun l first' => ?_⟩
    · rw [none] at first
      cases first
    · obtain rfl := Option.some.inj (first.symm.trans first')
      exact holds

/-- With fractions filled in for all variables arithmetic evaluates to the value that it attains. -/
theorem evaluate_filled_number {e : Expr} (precise : c.precisionFault? = none) (arithmetic : IsArithmeticOver S e)
    (numbers : ∀ x, S x → ∃ q, f x = some (.num (.ofRat q))) (same : ∀ x q, ρ x = some q → f x = some (.num (.ofRat q))) :
    Succeeds (evaluate c (e.fill f)) fun r => ∀ v, Attains c ρ e v → r = .num (.ofRat v) := by
  by_cases valued : ∃ v, Attains c ρ e v
  · obtain ⟨v, attained⟩ := valued
    have evaluated : evaluate c (e.fill f) = pure (.num (.ofRat v)) := evaluateWithin_attained same 999 attained
    rw [evaluated]
    refine .pure fun w other => ?_
    rw [Option.some.inj (attained.value.symm.trans other.value)]
  · refine (evaluateWithin_number precise 999 arithmetic numbers).mono fun _ _ v attained => ?_
    exact absurd ⟨v, attained⟩ valued

/-- With values filled in for all variables a conditional expression evaluates to the value that the expression of
the first case that holds attains, and to NaN when there is no such case. -/
theorem evaluate_filled_cases (precise : c.precisionFault? = none) (expressions : ∀ k ∈ kept, IsArithmeticOver S k.1)
    (predicates : ∀ k ∈ kept, IsPropositional k.2) (numbers : ∀ x, S x → ∃ q, f x = some (.num (.ofRat q)))
    (same : ∀ x q, ρ x = some q → f x = some (.num (.ofRat q)))
    (truths : ∀ k ∈ kept, ∀ x ∈ k.2.names, f x = some (.bool (σ x))) :
    Succeeds (evaluate c ((Expr.piecewise kept).fill f)) fun r => (firstCase? σ kept = none → r = .num .nan) ∧
      ∀ k, firstCase? σ kept = some k → ∀ v, Attains c ρ k.1 v → r = .num (.ofRat v) := by
  have each : List.Forall₂ (fun k k' =>
      Succeeds (evaluate c k'.1) (fun r => ∀ v, Attains c ρ k.1 v → r = .num (.ofRat v)) ∧
      Succeeds (evaluate c k'.2) (· = .bool (truth σ k.2))) kept (kept.map fun k => (k.1.fill f, k.2.fill f)) := by
    rw [List.forall₂_map_right_iff, List.forall₂_same]
    intro k member
    refine ⟨evaluate_filled_number precise (expressions k member) numbers same, ?_⟩
    rw [evaluate_filled_truth (predicates k member) (truths k member)]
    exact .pure rfl
  rw [fill_piecewise]
  change Succeeds (foldM (evaluateNode c (evaluateWithin c 999)) _) _
  rw [foldM]
  refine Succeeds.bind (foldCasesM_pairs .succeeds each) fun parts related => ?_
  obtain ⟨r, decided, spec⟩ := decideCases_known (R := fun k r => ∀ v, Attains c ρ k.1 v → r = .num (.ofRat v))
    (fun b => show evaluateWithin c 999 (.bool b) = pure (.bool b) from rfl) related
  change Succeeds (decideCases (evaluateWithin c 999) (pairUp parts)) _
  rw [decided]
  exact .pure spec

end Assigning

section Meaning

def truths (s : List (String × Expr)) (x : String) : Bool := s.lookup x = some (.bool true)

def fractions (s : List (String × Expr)) : Assignment := fun x => (s.lookup x).bind rational?

private theorem truths_eq {s : List (String × Expr)} {x : String} (given : ∃ b, s.lookup x = some (.bool b)) :
    s.lookup x = some (.bool (truths s x)) := by
  obtain ⟨b, found⟩ := given
  cases b <;> simp [truths, found]

private theorem fractions_eq_some {s : List (String × Expr)} {x : String} {q : Rat} :
    fractions s x = some q ↔ s.lookup x = some (.num (.ofRat q)) := by
  simp [fractions, Option.bind_eq_some_iff, rational?_eq_some]

private theorem depth_le {e : Expr} {d : Nat} (parts : ∀ part ∈ e.children, part.depth < d) (positive : 0 < d) :
    e.depth ≤ d := by
  have deepest : (e.children.map depth).foldl max 0 ≤ d - 1 :=
    (foldl_max_le_iff _ 0).mpr
      ⟨Nat.zero_le _, List.forall_mem_map.mpr fun part member => Nat.le_sub_one_of_lt (parts part member)⟩
  rw [depth_eq]
  omega

theorem depth_case {k : Expr × Expr} (member : k ∈ cases) :
    k.1.depth < (Expr.piecewise cases).depth ∧ k.2.depth < (Expr.piecewise cases).depth := by
  constructor <;> refine depth_child (List.mem_flatMap.mpr ⟨k, member, ?_⟩) <;> simp

theorem Prunes.depth (prunes : Prunes c S cases r) : r.depth ≤ (Expr.piecewise cases).depth := by
  obtain ⟨ks, related, selects⟩ := prunes
  have lower : ∀ k' ∈ ks, k'.1.depth < (Expr.piecewise cases).depth ∧ k'.2.depth < (Expr.piecewise cases).depth :=
    forall_related related fun k member k' replaces =>
      ⟨replaces.1.depth.trans_lt (depth_case member).1, replaces.2.depth.trans_lt (depth_case member).2⟩
  cases selects with
  | nothing => exact depth_pos _
  | certain first => exact (lower _ (List.mem_of_find?_eq_some (first fun _ => true))).1.le
  | pending among =>
    refine depth_le (fun part member => ?_) (depth_pos _)
    obtain ⟨k', inside, choice⟩ := List.mem_flatMap.mp member
    rcases List.mem_pair.mp choice with rfl | rfl
    · exact (lower k' (among inside)).1
    · exact (lower k' (among inside)).2

theorem IsPropositional.lambdaFree {p : Expr} (whole : IsPropositional p) : LambdaFree p := by
  induction whole with
  | bool | var => simp [LambdaFree, Throughout, nodes_eq, Expr.children]
  | not _ ih => exact lambdaFree_head (h := .unary _) rfl (by simpa [Expr.children] using ih)
  | connective _ _ _ iha ihb => exact lambdaFree_head (h := .binary _) rfl (by simpa [Expr.children] using ⟨iha, ihb⟩)

theorem IsArithmeticOver.lambdaFree {e : Expr} (arithmetic : IsArithmeticOver S e) : LambdaFree e := by
  induction arithmetic with
  | number | var => simp [LambdaFree, Throughout, nodes_eq, children]
  | operation _ _ _ _ iha ihb => exact lambdaFree_head (h := .binary _) rfl (by simpa [children] using ⟨iha, ihb⟩)

theorem Prunes.lambdaFree (prunes : Prunes c S cases r) : LambdaFree r := by
  obtain ⟨ks, related, selects⟩ := prunes
  have free : ∀ k' ∈ ks, LambdaFree k'.1 ∧ LambdaFree k'.2 := forall_related related fun k member k' replaces =>
    ⟨replaces.1.arithmetic.lambdaFree, replaces.2.propositional.lambdaFree⟩
  cases selects with
  | nothing => exact lambdaFree_literal (.inl ⟨_, rfl⟩)
  | certain first => exact (free _ (List.mem_of_find?_eq_some (first fun _ => true))).1
  | pending among =>
    refine lambdaFree_head (h := .piecewise) rfl fun part member => ?_
    obtain ⟨k', inside, choice⟩ := List.mem_flatMap.mp member
    rcases List.mem_pair.mp choice with rfl | rfl
    · exact (free k' (among inside)).1
    · exact (free k' (among inside)).2

variable {f : String → Option Expr} {σ : String → Bool} {ρ : Assignment}

/-- With values filled in for all variables, what is left of a conditional expression evaluates to the value that
the expression of the first case that holds attains, and to NaN when there is no such case. -/
theorem Prunes.evaluates (prunes : Prunes c S cases r) (precise : c.precisionFault? = none)
    (numbers : ∀ x, S x → ∃ q, f x = some (.num (.ofRat q))) (same : ∀ x q, ρ x = some q → f x = some (.num (.ofRat q)))
    (truths : ∀ k ∈ cases, ∀ x ∈ k.2.names, f x = some (.bool (σ x))) :
    Succeeds (evaluate c (r.fill f)) fun r => (firstCase? σ cases = none → r = .num .nan) ∧
      ∀ k, firstCase? σ cases = some k → ∀ v, Attains c ρ k.1 v → r = .num (.ofRat v) := by
  obtain ⟨ks, related, selects⟩ := prunes
  obtain ⟨unselected, selected⟩ := firstCase?_related related σ
  cases selects with
  | nothing none =>
    refine .pure ⟨fun _ => rfl, fun k first => ?_⟩
    obtain ⟨k', first', -⟩ := selected k first
    rw [none σ] at first'
    cases first'
  | @certain k' certain =>
    have arithmetic : IsArithmeticOver S k'.1 :=
      forall_related related (fun _ _ _ replaces => replaces.1.arithmetic) k' (List.mem_of_find?_eq_some (certain σ))
    refine (evaluate_filled_number precise arithmetic numbers same).mono fun r value => ⟨fun none => ?_, ?_⟩
    · rw [certain σ] at unselected
      cases unselected none
    · intro k first v attained
      obtain ⟨_, first', replaces⟩ := selected k first
      obtain rfl := Option.some.inj ((certain σ).symm.trans first')
      exact value v (replaces.1.attains attained)
  | @pending kept among unchanged =>
    have replaced : ∀ k' ∈ ks, IsArithmeticOver S k'.1 ∧ IsPropositional k'.2 ∧
        ∀ x ∈ k'.2.names, f x = some (.bool (σ x)) := by
      refine forall_related related fun k inside k' replaces => ⟨replaces.1.arithmetic, replaces.2.propositional, ?_⟩
      exact fun x named => truths k inside x (replaces.2.names x named)
    refine (evaluate_filled_cases precise (fun k' member => (replaced k' (among member)).1)
      (fun k' member => (replaced k' (among member)).2.1) numbers same
      fun k' member => (replaced k' (among member)).2.2).mono fun r spec => ⟨fun none => ?_, ?_⟩
    · exact spec.1 ((unchanged σ).trans (unselected none))
    · intro k first v attained
      obtain ⟨k', first', replaces⟩ := selected k first
      exact spec.2 k' ((unchanged σ).trans first') v (replaces.1.attains attained)

/-- Evaluation and one pass of simplification prune a conditional expression that is not too deep. -/
theorem piecewise_prunes (precise : c.precisionFault? = none) (expressions : ∀ k ∈ cases, IsArithmeticOver S k.1)
    (predicates : ∀ k ∈ cases, IsPropositional k.2) :
    ∀ m ∈ [(Expr.piecewise cases).evaled c, (Expr.piecewise cases).innerSimplified c],
      Permitted (Exceeds c (· ≤ (Expr.piecewise cases).depth) (∃ k ∈ cases, allowance ≤ k.1.nesting 1)) m fun r =>
        (Expr.piecewise cases).checkDepth c = .ok () ∧ Prunes c S cases r := by
  let shallow := fun d => d ≤ (Expr.piecewise cases).depth
  let nested := ∃ k ∈ cases, allowance ≤ k.1.nesting 1
  have ready : ∀ k ∈ cases, Ready (IsArithmeticOver S) depth shallow nested allowance k.1 := fun k member =>
    ⟨expressions k member, fun d low => low.trans (depth_case member).1.le, fun few => ⟨k, member, few⟩⟩
  have checked : Permitted (Exceeds c shallow nested) (liftM ((Expr.piecewise cases).checkDepth c)) fun _ =>
      (Expr.piecewise cases).checkDepth c = .ok () :=
    ((Permitted.checkDepth (.tooDeep le_rfl)).and (Judgment.Lenient.lift (J := .returns) ⟨Returns.throw⟩
      fun _ same => same)).mono fun _ both => both.2
  intro m member
  rcases List.mem_pair.mp member with rfl | rfl
  · refine checked.bind fun _ low => ?_
    exact (evaluate_prunes precise ready predicates).mono fun r prunes => ⟨low, prunes⟩
  · refine checked.bind fun _ low => ?_
    exact (simplifyWithin_prunes precise ready predicates).mono fun r prunes => ⟨low, prunes⟩

/-- The finite number that a rational expression evaluates to under an assignment is the value that it attains. -/
theorem attains_of_evaled {e t : Expr} {s : List (String × Expr)} (rational : IsRational e)
    (numbers : ∀ x ∈ e.names, ∃ q, s.lookup x = some (.num (.ofRat q))) (literals : ∀ p ∈ s, IsLiteral p.2)
    (filled : e.substituteAll s = .ok t) {u w : FloatUnit} {z : Number} (value : t.evaled c u = .ok (.num z) w)
    (finite : z.isFinite = true) : ∃ v, z = .ofRat v ∧ Attains c (fractions s) e v := by
  obtain ⟨q, computed, attains⟩ := evaluateWithin_rational (c := c) (ρ := fractions s) (f := fun x => s.lookup x) 999
    rational fun x named => (numbers x named).imp fun q found => ⟨found, fractions_eq_some.mpr found⟩
  have free := (rational.arithmeticOver numbers).lambdaFree
  obtain rfl := Except.ok.inj ((substituteAll_fill literals free).symm.trans filled)
  have result := (evaled_ok value).2
  rw [show evaluate c _ = _ from computed] at result
  cases result
  cases q with
  | none => cases finite
  | some v => exact ⟨v, rfl, attains v rfl⟩

/-- Pruning a conditional expression keeps its meaning. Let the predicates be statements of propositional logic and
the expressions rational, and let an assignment give truth values to the variables of the predicates and fractions
to those of the expressions. Whatever evaluation or one pass of simplification returns, under the assignment it
evaluates to NaN when all predicates are false, and otherwise to the value of the expression of the first case whose
predicate is true, if that is a finite number. The two return unless the limit on depth refuses a tree that is not
deeper than the conditional expression, or a case has as many divisors inside each other as evaluations may be nested.
-/
theorem piecewise_pruned (precise : c.precisionFault? = none) (expressions : ∀ k ∈ cases, IsRational k.1)
    (predicates : ∀ k ∈ cases, IsPropositional k.2) {s : List (String × Expr)}
    (values : ∀ p ∈ s, (∃ b, p.2 = .bool b) ∨ ∃ q, p.2 = .num (.ofRat q))
    (numbers : ∀ k ∈ cases, ∀ x ∈ k.1.names, ∃ q, s.lookup x = some (.num (.ofRat q)))
    (statements : ∀ k ∈ cases, ∀ x ∈ k.2.names, ∃ b, s.lookup x = some (.bool b)) :
    ∀ m ∈ [(Expr.piecewise cases).evaled c, (Expr.piecewise cases).innerSimplified c],
      Permitted (Exceeds c (· ≤ (Expr.piecewise cases).depth) (∃ k ∈ cases, allowance ≤ k.1.nesting 1)) m fun r =>
        ∃ t, r.substituteAll s = .ok t ∧
          ((∀ k ∈ cases, truth (truths s) k.2 = false) → Succeeds (t.evaled c) (· = .num .nan)) ∧
          ∀ k, firstCase? (truths s) cases = some k → ∀ t' u z w, k.1.substituteAll s = .ok t' →
            t'.evaled c u = .ok (.num z) w → z.isFinite = true → Succeeds (t.evaled c) (· = .num z) := by
  have literals : ∀ p ∈ s, IsLiteral p.2 := fun p member =>
    (values p member).elim (fun ⟨b, same⟩ => .inr ⟨b, same⟩) fun ⟨q, same⟩ => .inl ⟨_, same⟩
  intro m member
  refine Permitted.mono (piecewise_prunes (S := fun x => ∃ q, s.lookup x = some (.num (.ofRat q))) precise
    (fun k member => (expressions k member).arithmeticOver (numbers k member)) predicates m member) ?_
  rintro r ⟨shallow, prunes⟩
  have substituted := substituteAll_fill literals prunes.lambdaFree
  have depth := (substituteAll_depth literals substituted).trans_le prunes.depth
  have evaluates := prunes.evaluates (f := fun x => s.lookup x) (σ := truths s) (ρ := fractions s) precise
    (fun _ given => given) (fun _ _ => fractions_eq_some.mp)
    fun k inside x named => truths_eq (statements k inside x named)
  refine ⟨_, substituted, ?_⟩
  rw [evaled_eq (checkDepth_mono shallow depth)]
  refine ⟨fun none => evaluates.mono fun r spec => spec.1 ?_, ?_⟩
  · exact List.find?_eq_none.mpr fun k inside => by simpa using none k inside
  intro k first t' u z w filled value finite
  have inside := List.mem_of_find?_eq_some first
  obtain ⟨v, rfl, attained⟩ :=
    attains_of_evaled (expressions k inside) (numbers k inside) literals filled value finite
  exact evaluates.mono fun r spec => spec.2 k first v attained

/-- Of the cases `1 / x` where `p`, `x^2` where not `q`, `0` where `true` and `x` where `q` a pass of simplification
leaves some that give the second where `x` is three and `p` and `q` are false. -/
theorem piecewise_pruned_square :
    ∃ (cases : List (Expr × Expr)) (s : List (String × Expr)),
      cases = [(.binary .div 1 (.var "x"), .var "p"),
        (.binary .pow (.var "x") (.num (.ofInt 2)), .unary .not (.var "q")), (.num (.ofRat 0), .bool true),
        (.var "x", .var "q")] ∧
      s = [("p", .bool false), ("q", .bool false), ("x", .num (.ofRat 3))] ∧
      Config.default.precisionFault? = none ∧ (∀ k ∈ cases, IsRational k.1) ∧ (∀ k ∈ cases, IsPropositional k.2) ∧
      (∀ p ∈ s, (∃ b, p.2 = .bool b) ∨ ∃ q, p.2 = .num (.ofRat q)) ∧
      (∀ k ∈ cases, ∀ x ∈ k.1.names, ∃ q, s.lookup x = some (.num (.ofRat q))) ∧
      (∀ k ∈ cases, ∀ x ∈ k.2.names, ∃ b, s.lookup x = some (.bool b)) ∧
      Succeeds ((Expr.piecewise cases).innerSimplified .default) fun r =>
        ∃ t, r.substituteAll s = .ok t ∧ Succeeds (t.evaled .default) (· = .num 9) := by
  let cases : List (Expr × Expr) := [(.binary .div 1 (.var "x"), .var "p"),
    (.binary .pow (.var "x") (.num (.ofInt 2)), .unary .not (.var "q")), (.num (.ofRat 0), .bool true),
    (.var "x", .var "q")]
  let s : List (String × Expr) := [("p", .bool false), ("q", .bool false), ("x", .num (.ofRat 3))]
  have expressions : ∀ k ∈ cases, IsRational k.1 := by
    have x : IsRational (.var "x") := .var (by decide)
    simp only [cases, List.forall_mem_cons]
    exact ⟨.div (.num 1) x, .pow x 2, .num 0, x, by simp⟩
  have predicates : ∀ k ∈ cases, IsPropositional k.2 := by
    simp only [cases, List.forall_mem_cons]
    exact ⟨.var (by decide), .not (.var (by decide)), .bool true, .var (by decide), by simp⟩
  have values : ∀ p ∈ s, (∃ b, p.2 = .bool b) ∨ ∃ q, p.2 = .num (.ofRat q) := by simp [s]
  have numbers : ∀ k ∈ cases, ∀ x ∈ k.1.names, ∃ q, s.lookup x = some (.num (.ofRat q)) := by
    have x : ∃ q, s.lookup "x" = some (.num (.ofRat q)) := ⟨3, rfl⟩
    simpa [cases, names, fold, join, OfNat.ofNat] using x
  have statements : ∀ k ∈ cases, ∀ x ∈ k.2.names, ∃ b, s.lookup x = some (.bool b) := by
    have p : s.lookup "p" = some (.bool false) := rfl
    have q : s.lookup "q" = some (.bool false) := rfl
    simp [cases, names, fold, join, p, q]
  have passes (d : Nat) (low : d ≤ (Expr.piecewise cases).depth) : Config.default.isTooDeep d = false :=
    Bool.eq_false_iff.mpr fun deep => absurd (isTooDeep_mono low deep) (by decide)
  have few : ¬ ∃ k ∈ cases, allowance ≤ k.1.nesting 1 := by decide
  refine ⟨cases, s, rfl, rfl, rfl, expressions, predicates, values, numbers, statements, ?_⟩
  refine ((piecewise_pruned rfl expressions predicates values numbers statements
    ((Expr.piecewise cases).innerSimplified .default) (by simp)).succeeds (not_exceeds passes few)).mono fun r found => ?_
  obtain ⟨t, substituted, -, selected⟩ := found
  exact ⟨t, substituted, selected _ rfl _ ⟨50⟩ 9 ⟨50⟩ rfl (by decide +kernel) rfl⟩

end Meaning
end ComputerAlgebra.Expr

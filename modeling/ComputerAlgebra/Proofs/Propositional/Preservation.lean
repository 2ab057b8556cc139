import ComputerAlgebra.Proofs.Propositional.Reduction

/-!
Evaluation and simplification preserve the truth value of statements of propositional logic. With
truth values for all its variables a statement evaluates to its entry in the truth table, and so does
everything that evaluation, one pass of simplification or simplification at any level makes of it.
-/

namespace ComputerAlgebra.Expr

variable {c : Config} {e : Expr}

section Closed

theorem evaluateNode_bool (evaluate : Expr → Computation Expr) (a : Expr) (v : Bool) :
    evaluateNode c evaluate (.unary .not a) [.bool v] = pure (.bool !v) := by
  have rule : evaluationRule c evaluate (.unary .not a) [.bool v] = pure (some (.bool !v)) := rfl
  simp only [evaluateNode]
  rw [show condition? c (.unary .not a) [.bool v] = pure (some true) from rfl, pure_bind,
    liftConditions_pure _ rule, pure_bind]
  exact congrArg pure ((IsPropositional.bool !v).confine rfl)

private theorem binaryRule?_bool (evaluate : Expr → Computation Expr) {op : BinaryOp}
    (known : op ∈ BinaryOp.connectives) (v w : Bool) :
    binaryRule? c evaluate op (.bool v) (.bool w) = pure (some (.bool (op.table v w))) := by
  rcases BinaryOp.connectives_cases known with rfl | rfl | rfl | rfl | rfl <;>
    cases v <;> cases w <;> rfl

theorem evaluateNode_bools (evaluate : Expr → Computation Expr) {op : BinaryOp}
    (known : op ∈ BinaryOp.connectives) (a b : Expr) (v w : Bool) :
    evaluateNode c evaluate (.binary op a b) [.bool v, .bool w] = pure (.bool (op.table v w)) := by
  have defined : condition? c (.binary op a b) [.bool v, .bool w] = pure (some true) := by
    rcases BinaryOp.connectives_cases known with rfl | rfl | rfl | rfl | rfl <;> rfl
  have rule : evaluationRule c evaluate (.binary op a b) [.bool v, .bool w] =
      pure (some (.bool (op.table v w))) := binaryRule?_bool evaluate known v w
  simp only [evaluateNode, defined, pure_bind]
  rw [if_neg (by simp), liftConditions_pure _ rule, pure_bind]
  exact congrArg pure ((IsPropositional.bool _).confine (connective_codomain known))

theorem evaluate_truth (σ : String → Bool) (whole : IsPropositional e) (closed : ∀ y, y ∉ e.names) :
    evaluate c e = pure (.bool (truth σ e)) := by
  change foldM (evaluateNode c (evaluateWithin c 999)) e = _
  induction whole with
  | bool v => rfl
  | @var x plain => exact absurd (by simp) (closed x)
  | @not a _ ih =>
    rw [foldM, ih fun y named => closed y (names_child (by simp [children]) named)]
    exact evaluateNode_bool _ a _
  | @connective op a b known _ _ iha ihb =>
    rw [foldM, iha fun y named => closed y (names_child (by simp [children]) named),
      ihb fun y named => closed y (names_child (by simp [children]) named)]
    exact evaluateNode_bools _ known a b _ _

end Closed

section Assigning
variable {x : String} {v : Bool}

/-- The second statement is the first with a truth value put for a variable. -/
structure Decided (x : String) (v : Bool) (e r : Expr) : Prop where
  propositional : IsPropositional r
  names : ∀ y ∈ r.names, y ∈ e.names ∧ y ≠ x
  truth : ∀ σ, truth σ r = truth (Function.update σ x v) e

private theorem decides (whole : IsPropositional e) : ∀ depth : Nat, e.depth ≤ depth →
    ∃ r, substituteWithin (.var x) (.bool v) [] depth e = .ok r ∧ Decided x v e r := by
  induction whole with
  | bool w =>
    intro depth _
    have same : substituteWithin (.var x) (.bool v) [] depth (.bool w) = .ok (.bool w) := by
      cases depth with
      | zero => rfl
      | succ depth => simp [substituteWithin, children, withChildren]; rfl
    exact ⟨_, same, .bool w, fun y named => by simp [names, fold] at named, fun _ => rfl⟩
  | @var y plain =>
    intro depth low
    obtain ⟨depth, rfl⟩ : ∃ d, depth = d + 1 := ⟨depth - 1, by have := depth_pos (.var y); omega⟩
    by_cases same : y = x
    · subst same
      refine ⟨.bool v, by simp [substituteWithin], .bool v, fun z named => ?_, fun σ => ?_⟩
      · simp [names, fold] at named
      · simp [truth]
    · refine ⟨.var y, ?_, .var plain, fun z named => ?_, fun σ => ?_⟩
      · simp [substituteWithin, children, withChildren, same]
        rfl
      · rw [names_var, List.mem_singleton] at named
        rw [named]
        exact ⟨by simp, same⟩
      · simp [truth, same]
  | @not a _ ih =>
    intro depth low
    have smaller : a.depth < (Expr.unary .not a).depth := depth_child (by simp [children])
    obtain ⟨depth, rfl⟩ : ∃ d, depth = d + 1 := ⟨depth - 1, by omega⟩
    obtain ⟨a', walk, inner⟩ := ih depth (by omega)
    refine ⟨.unary .not a', ?_, .not inner.propositional, fun y named => ?_, fun σ => ?_⟩
    · rw [substituteWithin_head (h := .unary .not) rfl]
      simp only [children, List.mapM_cons, List.mapM_nil, walk]
      rfl
    · rw [mem_names (by simp)] at named ⊢
      simpa [children] using inner.names y (by simpa [children] using named)
    · simp only [truth, inner.truth]
  | @connective op a b known _ _ iha ihb =>
    intro depth low
    have first : a.depth < (Expr.binary op a b).depth := depth_child (by simp [children])
    have second : b.depth < (Expr.binary op a b).depth := depth_child (by simp [children])
    obtain ⟨depth, rfl⟩ : ∃ d, depth = d + 1 := ⟨depth - 1, by omega⟩
    obtain ⟨a', walka, left⟩ := iha depth (by omega)
    obtain ⟨b', walkb, right⟩ := ihb depth (by omega)
    refine ⟨.binary op a' b', ?_, .connective known left.propositional right.propositional,
      fun y named => ?_, fun σ => ?_⟩
    · rw [substituteWithin_head (h := .binary op) rfl]
      simp only [children, List.mapM_cons, List.mapM_nil, walka, walkb]
      rfl
    · obtain ⟨part, member, inside⟩ := (mem_names (by simp)).mp named
      rcases List.mem_pair.mp member with rfl | rfl
      · obtain ⟨old, other⟩ := left.names y inside
        have child : a ∈ (Expr.binary op a b).children := by simp [children]
        exact ⟨names_child child old, other⟩
      · obtain ⟨old, other⟩ := right.names y inside
        have child : b ∈ (Expr.binary op a b).children := by simp [children]
        exact ⟨names_child child old, other⟩
    · simp only [truth, left.truth, right.truth]

def truthLiterals (s : List (String × Bool)) : List (String × Expr) :=
  s.map fun (x, v) => (x, .bool v)

/-- The truth values that a list gives to variables; the first one for a variable counts. -/
def valuation (s : List (String × Bool)) (x : String) : Bool := (s.lookup x).getD false

theorem substituteAll_truth (s : List (String × Bool)) : ∀ {e : Expr}, IsPropositional e →
    ∃ t, e.substituteAll (truthLiterals s) = .ok t ∧ IsPropositional t ∧
      (∀ y ∈ t.names, y ∈ e.names ∧ y ∉ s.map Prod.fst) ∧
      truth (fun _ => false) t = truth (valuation s) e := by
  induction s with
  | nil =>
    intro e whole
    exact ⟨e, rfl, whole, fun y named => ⟨named, by simp⟩, rfl⟩
  | cons pair s ih =>
    obtain ⟨x, v⟩ := pair
    intro e whole
    obtain ⟨r, substituted, decided⟩ := decides (x := x) (v := v) whole e.depth (le_refl _)
    obtain ⟨t, rest, whole', names, value⟩ := ih decided.propositional
    refine ⟨t, ?_, whole', fun y named => ?_, ?_⟩
    · change (e.substitute (.var x) (.bool v) >>= fun e => e.substituteAll (truthLiterals s)) = _
      have first : e.substitute (.var x) (.bool v) = .ok r := substituted
      rw [first]
      exact rest
    · obtain ⟨inside, unassigned⟩ := names y named
      obtain ⟨old, other⟩ := decided.names y inside
      exact ⟨old, by simpa [other] using unassigned⟩
    · rw [value, decided.truth]
      congr 1
      funext y
      by_cases same : y = x
      · simp [valuation, same]
      · have different : (y == x) = false := by simpa using same
        simp [valuation, same, List.lookup_cons, different]

/-- With truth values for all its variables a statement evaluates to its entry in the truth table. -/
theorem decided_evaluates (whole : IsPropositional e) {s : List (String × Bool)}
    (covered : ∀ x ∈ e.names, x ∈ s.map Prod.fst) :
    ∃ t, e.substituteAll (truthLiterals s) = .ok t ∧ t.depth = e.depth ∧
      t.evaluate c = pure (.bool (truth (valuation s) e)) := by
  obtain ⟨t, substituted, whole', names, value⟩ := substituteAll_truth s whole
  have closed : ∀ y, y ∉ t.names := fun y named => (names y named).2 (covered y (names y named).1)
  have literals : ∀ p ∈ truthLiterals s, IsLiteral p.2 := by
    intro p member
    obtain ⟨⟨x, v⟩, -, rfl⟩ := List.mem_map.mp member
    exact .inr ⟨v, rfl⟩
  refine ⟨t, substituted, substituteAll_depth literals substituted, ?_⟩
  rw [evaluate_truth (fun _ => false) whole' closed, value]

end Assigning

/-- Simplification of statements is sound. With truth values for all its variables a statement evaluates
to its entry in the truth table; evaluation, one pass of simplification and simplification at any level
return a statement from every unit, and it evaluates to the same entry. A statement that is too deep is
refused by all of them, with the same fault. -/
theorem propositional_sound (whole : IsPropositional e) (level : Int) {s : List (String × Bool)}
    (covered : ∀ x ∈ e.names, x ∈ s.map Prod.fst) :
    ∃ t, e.substituteAll (truthLiterals s) = .ok t ∧
      (e.checkDepth c = .ok () →
        (∀ u, t.evaled c u = .ok (.bool (truth (valuation s) e)) u) ∧
        ∀ m ∈ [e.evaled c, e.innerSimplified c, e.simplify c level], ∀ u, ∃ r w, m u = .ok r w ∧
          ∃ t', r.substituteAll (truthLiterals s) = .ok t' ∧
            ∀ u', t'.evaled c u' = .ok (.bool (truth (valuation s) e)) u') ∧
      ∀ f, e.checkDepth c = .error f →
        ∀ m ∈ [t.evaled c, e.evaled c, e.innerSimplified c, e.simplify c level], ∀ u,
          m u = .error f u := by
  obtain ⟨t, substituted, depth, evaluated⟩ := decided_evaluates (c := c) whole covered
  refine ⟨t, substituted, fun shallow => ⟨fun u => ?_, fun m member => ?_⟩, fun f deep m member u => ?_⟩
  · rw [evaled_eq ((checkDepth_congr depth).trans shallow), evaluated]
    rfl
  · have stands : Succeeds m (StandsFor e) := by
      simp only [List.mem_cons, List.not_mem_nil, or_false] at member
      rcases member with rfl | rfl | rfl
      · rw [evaled_eq shallow]
        exact evaluate_stands whole
      · exact innerSimplified_stands whole shallow
      · exact simplify_stands whole shallow level
    intro u
    obtain ⟨r, w, returned, found⟩ := stands u
    obtain ⟨t', substituted', depth', evaluated'⟩ := decided_evaluates (c := c) found.propositional
      fun x named => covered x (found.names x named)
    refine ⟨r, w, returned, t', substituted', fun u' => ?_⟩
    have shallow' := checkDepth_mono shallow (depth'.trans_le found.depth)
    rw [evaled_eq shallow', evaluated', found.truth]
    rfl
  · have deep' := (checkDepth_congr (c := c) depth).trans deep
    simp only [List.mem_cons, List.not_mem_nil, or_false] at member
    rcases member with rfl | rfl | rfl | rfl
    · rw [evaled, deep']
      rfl
    · rw [evaled, deep]
      rfl
    · rw [innerSimplified, deep]
      rfl
    · rw [simplify, deep]
      rfl

/-- `(x = y) xor not (x and not y)` is false where `x` is true and `y` is false, and stays so. -/
theorem propositional_sound_xor :
    ∃ e : Expr, e = .binary .xor (.binary .equals (.var "x") (.var "y"))
        (.unary .not (.binary .and (.var "x") (.unary .not (.var "y")))) ∧
      IsPropositional e ∧ (∀ x ∈ e.names, x ∈ [("x", true), ("y", false)].map Prod.fst) ∧
      e.checkDepth .default = .ok () ∧
      ∀ u, ∃ r w, e.simplify .default 2 u = .ok r w ∧
        ∃ t, r.substituteAll (truthLiterals [("x", true), ("y", false)]) = .ok t ∧
          ∀ u', t.evaled .default u' = .ok (.bool false) u' := by
  let e : Expr := .binary .xor (.binary .equals (.var "x") (.var "y"))
    (.unary .not (.binary .and (.var "x") (.unary .not (.var "y"))))
  have plain {x : String} (apart : isConstantName x = false) : IsPropositional (.var x) := .var apart
  have equal : IsPropositional (.binary .equals (.var "x") (.var "y")) :=
    .connective (by decide) (plain (by decide)) (plain (by decide))
  have joined : IsPropositional (.binary .and (.var "x") (.unary .not (.var "y"))) :=
    .connective (by decide) (plain (by decide)) (.not (plain (by decide)))
  have whole : IsPropositional e := .connective (by decide) equal joined.not
  have covered : ∀ x ∈ e.names, x ∈ [("x", true), ("y", false)].map Prod.fst := by decide
  have shallow : e.checkDepth .default = .ok () := by decide +kernel
  refine ⟨e, rfl, whole, covered, shallow, fun u => ?_⟩
  obtain ⟨_, _, sound, _⟩ := propositional_sound (c := .default) whole 2 covered
  exact (sound shallow).2 (e.simplify .default 2) (by simp) u

end ComputerAlgebra.Expr

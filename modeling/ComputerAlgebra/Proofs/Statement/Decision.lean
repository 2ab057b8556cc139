import ComputerAlgebra.Proofs.Evaluation.Allowance
import ComputerAlgebra.Proofs.Propositional.Preservation
import ComputerAlgebra.Proofs.Scope.FloatFree

/-!
Operands with a value. An operand of numbers, names and operators has a value when it evaluates to that number
whatever digits the float unit has, and simplification keeps the value when what it makes of the operand has it
too. An exact value is always kept, since the operand becomes the number.
-/

namespace ComputerAlgebra.Expr

variable {c : Config}

def isPlain : Expr → Bool
  | .num _ | .bool _ | .var _ => true
  | .unary _ a => a.isPlain
  | .binary _ a b => a.isPlain && b.isPlain
  | _ => false

theorem isPlain_condition {e : Expr} (plain : e.isPlain = true) : e.condition = none := by
  cases e <;> first | rfl | cases plain

structure HasValue (c : Config) (a : Expr) (x : Number) : Prop where
  plain : a.isPlain = true
  defined : x.isNaN = false
  value : Succeeds (a.evaluate c) (· = .num x)

structure KeepsValue (c : Config) (a : Expr) (x : Number) : Prop extends HasValue c a x where
  kept : Returns (a.innerSimplified c) (HasValue c · x)

/-- Simplification of an operand that is not too deep, without the guard. -/
theorem KeepsValue.simplified {a : Expr} {x : Number} (given : KeepsValue c a x) (shallow : a.checkDepth c = .ok ()) :
    Returns (simplifyWithin c allowance a) (HasValue c · x) := by
  have unguarded : a.innerSimplified c = simplifyWithin c allowance a := by
    rw [innerSimplified, shallow]
    rfl
  rw [← unguarded]
  exact given.kept

namespace HasValue

variable {a : Expr} {x y : Number}

theorem num (defined : x.isNaN = false) : HasValue c (.num x) x := ⟨rfl, defined, Succeeds.pure rfl⟩

theorem unique (first : HasValue c a x) (second : HasValue c a y) : x = y := by
  obtain ⟨_, w, returned, rfl⟩ := first.value (.ofConfig c)
  obtain ⟨_, w', returned', rfl⟩ := second.value (.ofConfig c)
  rw [returned] at returned'
  cases returned'
  rfl

theorem of_num (given : HasValue c (.num y) x) : y = x :=
  unique (num (by
    obtain ⟨_, w, returned, rfl⟩ := given.value (.ofConfig c)
    cases returned
    exact given.defined)) given

theorem of_real {r s : RealNumber} (given : HasValue c a (.real r)) (found : a.real? = some s) : s = r := by
  cases a with
  | num y =>
    cases y with
    | real t =>
      cases found
      cases given.of_num
      rfl
    | complex => cases found
  | _ => cases found

theorem not_bool {v : Bool} (given : HasValue c (.bool v) x) : False := by
  obtain ⟨_, w, returned, rfl⟩ := given.value (.ofConfig c)
  cases returned

theorem regular (given : HasValue c a x) : a.isNaN = false := by
  cases a with
  | num y =>
    obtain rfl := given.of_num
    exact given.defined
  | _ => rfl

/-- Without floats one run tells the value. -/
theorem of_run (plain : a.isPlain = true) (free : a.FloatFree) (defined : x.isNaN = false) {u w : FloatUnit}
    (run : a.evaluate c u = .ok (.num x) w) : HasValue c a x := by
  have uniform : Uniform FloatFree (a.evaluate c) := (floatFree_scoping c).evaluate () a free
  exact ⟨plain, defined, uniform.succeeds run⟩

/-- With one more reduction that may be nested the value is the same. -/
theorem deeper (given : HasValue c a x) : Succeeds (evaluateWithin c (allowance + 1) a) (· = .num x) :=
  (evaluateWithin_deeper c allowance a).succeeds given.value

/-- A value that a node takes over, or that it has already, is the value of the result. -/
private theorem confined (given : HasValue c a x) : HasValue c (confine c a (.num x) a) x := by
  unfold confine
  rw [if_neg (by simp [children])]
  split
  · exact num given.defined
  · exact given

/-- An exact value takes the place of the operand. -/
theorem exact_kept (given : HasValue c a x) (exact : x.isExact = true) : KeepsValue c a x where
  toHasValue := given
  kept := by
    refine Returns.bind (P := fun _ => True) .trivial fun _ _ => ?_
    rw [show allowance = 999 + 1 from rfl, simplifyWithin_foldM, foldM_eq]
    refine Returns.bind .trivial fun parts _ => ?_
    have found : exactValue? a (.num x) = some (.num x) := by simp [exactValue?, exact, given.defined]
    unfold simplifyNode
    split
    · exact Returns.pure given
    · exact Returns.pure given
    · exact Returns.pure given
    · cases given.plain
    · refine Returns.bind given.deeper.returns ?_
      rintro _ rfl
      rw [found]
      exact Returns.bind (Returns.pure (P := (· = .num x)) rfl) fun _ same => Returns.pure (same ▸ given.confined)

theorem leaf_kept (given : HasValue c a x) (leaf : a.children = []) : KeepsValue c a x where
  toHasValue := given
  kept := by
    refine Returns.bind (P := fun _ => True) .trivial fun _ _ => ?_
    rw [show allowance = 999 + 1 from rfl, simplifyWithin_foldM, foldM_eq, leaf]
    cases a with
    | num | var | bool => exact Returns.pure given
    | unary | binary => cases leaf
    | _ => cases given.plain

end HasValue
end ComputerAlgebra.Expr

/-!
Statements about numbers: comparisons of operands, and the connectives between them. Evaluation and one pass of
simplification decide such a statement alike when every comparison is defined, simplification keeps the values of
the operands, and no two exact operands of an equation are so close to each other that they pass for equal.
-/

namespace ComputerAlgebra.Expr

variable {c : Config} {A : Expr → Number → Prop}

/-- Statements with their truth values, where `A a x` says that the operand `a` has the value `x`. Evaluation
compares the values; of exact values that it takes for equal nothing is known unless they are the same. -/
inductive Stated (c : Config) (A : Expr → Number → Prop) : Expr → Bool → Prop
  | bool (v : Bool) : Stated c A (.bool v) v
  | not {p : Expr} {v : Bool} (inner : Stated c A p v) : Stated c A (.unary .not p) !v
  | connective {op : BinaryOp} {p q : Expr} {v w : Bool} (known : op ∈ BinaryOp.connectives)
      (left : Stated c A p v) (right : Stated c A q w) : Stated c A (.binary op p q) (op.table v w)
  | order {test : Comparison} {a b : Expr} {x y : RealNumber} {v : Bool} (left : A a (.real x))
      (right : A b (.real y)) (decided : Succeeds (x.holds c test y) (· = v)) :
      Stated c A (.binary (.order test) a b) v
  | equation {a b : Expr} {x y : Number} {v : Bool} (left : A a x) (right : A b y)
      (decided : Succeeds (equalsValue? c (.num x) (.num y)) (· = some v))
      (apart : x.isExact = true → y.isExact = true → v = decide (x = y)) : Stated c A (.binary .equals a b) v

namespace Stated

variable {s p q r self outside : Expr} {v w : Bool} {op : BinaryOp}

theorem mono {B : Expr → Number → Prop} (given : Stated c A s v) (weaker : ∀ a x, A a x → B a x) :
    Stated c B s v := by
  induction given with
  | bool v => exact .bool v
  | not _ ih => exact .not ih
  | connective known _ _ left right => exact .connective known left right
  | order left right decided => exact .order (weaker _ _ left) (weaker _ _ right) decided
  | equation left right decided apart => exact .equation (weaker _ _ left) (weaker _ _ right) decided apart

theorem of_bool (given : Stated c A (.bool w) v) : w = v := by
  cases given
  rfl

theorem condition (given : Stated c A s v) : s.condition = none := by
  cases given <;> rfl

theorem regular (given : Stated c A s v) : s.isNaN = false := by
  cases given <;> rfl

/-- No part of a statement is NaN. -/
theorem parts_regular (given : Stated c (HasValue c) s v) : s.children.any isNaN = false := by
  cases given with
  | bool => rfl
  | not inner => simp [children, inner.regular]
  | connective _ left right => simp [children, left.regular, right.regular]
  | order left right => simp [children, left.regular, right.regular]
  | equation left right => simp [children, left.regular, right.regular]

/-- The domain of a statement holds every statement. -/
theorem confine (given : Stated c (HasValue c) r v) (statement : self.codomain c = .boolean) :
    Expr.confine c self r outside = r := by
  refine confine_eq given.parts_regular ?_
  rw [statement]
  cases given <;> rfl

end Stated

section Evaluation

theorem evaluateNode_order (evaluate : Expr → Computation Expr) {test : Comparison} {x y : RealNumber} {v : Bool}
    (first : x.isNaN = false) (second : y.isNaN = false) (decided : Succeeds (x.holds c test y) (· = v)) (a b : Expr) :
    Succeeds (evaluateNode c evaluate (.binary (.order test) a b) [.num (.real x), .num (.real y)]) (· = .bool v) := by
  have defined : condition? c (.binary (.order test) a b) [.num (.real x), .num (.real y)] = pure (some true) := by
    have ordered {z : RealNumber} (regular : z.isNaN = false) : (Expr.num (.real z)).hasNoOrder = false := by
      simp [hasNoOrder, Number.isReal, Number.isNaN, regular]
    simp [condition?, ordered first, ordered second, isNumber, number?]
  rw [evaluateNode_bare rfl (by simp [Expr.condition]), defined, pure_bind]
  refine Succeeds.bind (P := (· = some (.bool v))) ?_ ?_
  · refine Succeeds.bind (P := (· = some v)) ?_ ?_
    · exact Succeeds.bind decided fun _ same => Succeeds.pure (congrArg some same)
    · rintro _ rfl
      exact Succeeds.pure rfl
  · rintro _ rfl
    exact Succeeds.pure ((IsPropositional.bool v).confine rfl)

theorem evaluateNode_equation (evaluate : Expr → Computation Expr) {x y : Number} {v : Bool}
    (decided : Succeeds (equalsValue? c (.num x) (.num y)) (· = some v)) (a b : Expr) :
    Succeeds (evaluateNode c evaluate (.binary .equals a b) [.num x, .num y]) (· = .bool v) := by
  have defined : condition? c (.binary .equals a b) [.num x, .num y] = pure (some true) := rfl
  rw [evaluateNode_bare rfl (by simp [Expr.condition]), defined, pure_bind]
  refine Succeeds.bind (P := (· = some (.bool v))) ?_ ?_
  · refine Succeeds.bind decided ?_
    rintro _ rfl
    exact Succeeds.pure rfl
  · rintro _ rfl
    exact Succeeds.pure ((IsPropositional.bool v).confine rfl)

variable {fuel : Nat}

/-- Statements about operands that have their values have their truth values. -/
theorem evaluateWithin_stated {s : Expr} {v : Bool}
    (stated : Stated c (fun a x => x.isNaN = false ∧ Succeeds (evaluateWithin c (fuel + 1) a) (· = .num x)) s v) :
    Succeeds (evaluateWithin c (fuel + 1) s) (· = .bool v) := by
  change Succeeds (foldM (evaluateNode c (evaluateWithin c fuel)) s) _
  induction stated with
  | bool v => exact Succeeds.pure rfl
  | not _ ih =>
    rw [foldM]
    refine Succeeds.bind ih ?_
    rintro _ rfl
    rw [evaluateNode_bool]
    exact Succeeds.pure rfl
  | connective known _ _ left right =>
    rw [foldM]
    refine Succeeds.bind left ?_
    rintro _ rfl
    refine Succeeds.bind right ?_
    rintro _ rfl
    rw [evaluateNode_bools _ known]
    exact Succeeds.pure rfl
  | order left right decided =>
    rw [foldM]
    refine Succeeds.bind left.2 ?_
    rintro _ rfl
    refine Succeeds.bind right.2 ?_
    rintro _ rfl
    exact evaluateNode_order _ left.1 right.1 decided _ _
  | equation left right decided =>
    rw [foldM]
    refine Succeeds.bind left.2 ?_
    rintro _ rfl
    refine Succeeds.bind right.2 ?_
    rintro _ rfl
    exact evaluateNode_equation _ decided _ _

theorem Stated.evaluate {s : Expr} {v : Bool} (stated : Stated c (HasValue c) s v) :
    Succeeds (evaluate c s) (· = .bool v) :=
  evaluateWithin_stated (stated.mono fun _ _ given => ⟨given.defined, given.value⟩)

theorem Stated.evaluate_deeper {s : Expr} {v : Bool} (stated : Stated c (HasValue c) s v) :
    Succeeds (evaluateWithin c (allowance + 1) s) (· = .bool v) :=
  evaluateWithin_stated (stated.mono fun _ _ given => ⟨given.defined, given.deeper⟩)

theorem Stated.unique {s : Expr} {v w : Bool} (first : Stated c (HasValue c) s v)
    (second : Stated c (HasValue c) s w) : v = w := by
  obtain ⟨_, u, returned, rfl⟩ := first.evaluate (.ofConfig c)
  obtain ⟨_, u', returned', rfl⟩ := second.evaluate (.ofConfig c)
  rw [returned] at returned'
  cases returned'
  rfl

end Evaluation

section Simplification
variable {self p q p' q' a b r : Expr} {v w : Bool} {op : BinaryOp}

/-- What a rule gives for a connective between statements is a statement with the truth value of the node. -/
theorem connectiveRule?_stated (found : connectiveRule? op p q = some r) (left : Stated c A p v)
    (right : Stated c A q w) : Stated c A r (op.table v w) := by
  have given {x : Expr} {u : Bool} (stated : Stated c A x u) (same : op.table v w = u) :
      Stated c A x (op.table v w) := by rwa [same]
  unfold connectiveRule? at found
  split at found <;> cases found
  -- a truth value among the parts is the value of that part
  all_goals first | obtain rfl := left.of_bool | skip
  all_goals first | obtain rfl := right.of_bool | skip
  all_goals first
    | exact given (.bool _) (by simp [BinaryOp.table])
    | exact given left (by simp [BinaryOp.table])
    | exact given right (by simp [BinaryOp.table])
    | exact given left.not (by simp [BinaryOp.table])
    | exact given right.not (by simp [BinaryOp.table])

theorem exactEquals?_stated (left : Stated c (HasValue c) p v) (right : Stated c (HasValue c) q w) {t : Bool}
    (found : exactEquals? p q = some t) : t = (v == w) := by
  unfold exactEquals? at found
  split at found
  · next same =>
    subst same
    cases found
    simp [left.unique right]
  · next different =>
    split at found
    · cases left
    · cases found
      obtain rfl := left.of_bool
      obtain rfl := right.of_bool
      simpa using different
    · cases found

/-- One pass makes a statement with the same truth value of a node with a truth value, when the rule does and the
node over its simplified parts is one. -/
private theorem simplifyNode_ruled {again : Expr → Computation Expr} {value : Computation Expr} {parts : List Expr}
    (ruled : self.isRuled = true) (statement : self.codomain c = .boolean) (valued : Succeeds value (· = .bool v))
    (bare : ∀ part ∈ parts, part.condition = none)
    (applied : Returns (simplificationRule c again self parts) fun r => ∀ e, r = some e → Stated c (HasValue c) e v)
    (stays : Stated c (HasValue c) (self.withChildren parts) v) :
    Returns (simplifyNode c again self value parts) (Stated c (HasValue c) · v) := by
  unfold simplifyNode
  split
  case h_5 =>
    refine Returns.bind valued.returns ?_
    rintro _ rfl
    refine Returns.bind (liftConditions_plain .returns self bare applied stays _) fun r stated => Returns.pure ?_
    rwa [stated.confine statement]
  all_goals cases ruled

theorem simplifyNode_stated_not (again : Expr → Computation Expr) {value : Computation Expr}
    (valued : Succeeds value (· = .bool !v)) (inner : Stated c (HasValue c) p' v) :
    Returns (simplifyNode c again (.unary .not p) value [p']) (Stated c (HasValue c) · !v) := by
  refine simplifyNode_ruled rfl rfl valued (by simpa using inner.condition) ?_ inner.not
  change Returns (simplifyUnary? c .not p') _
  cases inner with
  | bool v => exact Returns.pure fun e found => Option.some.inj found ▸ .bool _
  | _ => exact Returns.pure fun e found => by cases found

theorem simplifyNode_stated_connective (again : Expr → Computation Expr) {value : Computation Expr}
    (known : op ∈ BinaryOp.connectives) (valued : Succeeds value (· = .bool (op.table v w)))
    (left : Stated c (HasValue c) p' v) (right : Stated c (HasValue c) q' w) :
    Returns (simplifyNode c again (.binary op p q) value [p', q']) (Stated c (HasValue c) · (op.table v w)) := by
  refine simplifyNode_ruled rfl (connective_codomain known) valued (by simp [left.condition, right.condition]) ?_
    (.connective known left right)
  change Returns (simplifyBinary? c op p' q') _
  rcases BinaryOp.connectives_cases known with rfl | rfl | rfl | rfl | rfl
  · exact Returns.pure fun e found => connectiveRule?_stated found left right
  · exact Returns.pure fun e found => connectiveRule?_stated found left right
  · exact Returns.pure fun e found => connectiveRule?_stated found left right
  · exact Returns.pure fun e found => connectiveRule?_stated found left right
  · refine Returns.pure fun e found => ?_
    obtain ⟨t, equal, rfl⟩ := Option.map_eq_some_iff.mp found
    obtain rfl := exactEquals?_stated left right equal
    exact .bool _

/-- A comparison of exact numbers is decided by the values of the operands, which they are. -/
theorem simplifyNode_stated_order (again : Expr → Computation Expr) {value : Computation Expr} {test : Comparison}
    {x y : RealNumber} (valued : Succeeds value (· = .bool v)) (left : HasValue c a (.real x))
    (right : HasValue c b (.real y)) (decided : Succeeds (x.holds c test y) (· = v)) (self self' : Expr) :
    Returns (simplifyNode c again (.binary (.order test) self self') value [a, b]) (Stated c (HasValue c) · v) := by
  have bare : ∀ part ∈ [a, b], part.condition = none := by
    simp [isPlain_condition left.plain, isPlain_condition right.plain]
  refine simplifyNode_ruled rfl rfl valued bare ?_ (.order left right decided)
  change Returns (do return (← exactOrder? c test a b).map Expr.bool) _
  refine Returns.bind (P := fun r => ∀ t, r = some t → t = v) ?_ fun r holds => Returns.pure fun e found => ?_
  · unfold exactOrder?
    split
    · next x' y' first second =>
      obtain rfl := left.of_real first
      obtain rfl := right.of_real second
      refine Judgment.ite .returns (fun _ => ?_) fun _ => Returns.pure fun t found => by cases found
      exact Returns.bind decided.returns fun t same => Returns.pure fun t' found => by
        cases found
        exact same
    · exact Returns.pure fun t found => by cases found
  · obtain ⟨t, decided', rfl⟩ := Option.map_eq_some_iff.mp found
    rw [holds t decided']
    exact .bool v

/-- Exact numbers are equal when they are the same. -/
theorem simplifyNode_stated_equation (again : Expr → Computation Expr) {value : Computation Expr} {x y : Number}
    (valued : Succeeds value (· = .bool v)) (left : HasValue c a x) (right : HasValue c b y)
    (decided : Succeeds (equalsValue? c (.num x) (.num y)) (· = some v))
    (apart : x.isExact = true → y.isExact = true → v = decide (x = y)) (self self' : Expr) :
    Returns (simplifyNode c again (.binary .equals self self') value [a, b]) (Stated c (HasValue c) · v) := by
  have bare : ∀ part ∈ [a, b], part.condition = none := by
    simp [isPlain_condition left.plain, isPlain_condition right.plain]
  refine simplifyNode_ruled rfl rfl valued bare ?_ (.equation left right decided apart)
  refine Returns.pure fun e found => ?_
  obtain ⟨t, equal, rfl⟩ := Option.map_eq_some_iff.mp found
  suffices t = v by rw [this]; exact .bool v
  unfold exactEquals? at equal
  split at equal
  · next same =>
    subst same
    cases equal
    obtain rfl := left.unique right
    have itself : equalsValue? c (.num x) (.num x) = pure (some true) := if_pos rfl
    rw [itself] at decided
    obtain ⟨_, _, returned, value⟩ := decided (.ofConfig c)
    cases returned
    exact Option.some.inj value
  · next different =>
    split at equal
    · next x' y' =>
      obtain rfl := left.of_num
      obtain rfl := right.of_num
      split at equal
      · next exact =>
        cases equal
        obtain ⟨first, second⟩ := (Bool.and_eq_true _ _).mp exact
        rw [apart first second]
        simpa using different
      · cases equal
    · exact left.not_bool.elim
    · cases equal

/-- One pass makes a statement about operands that have the values of a statement about operands that keep them. -/
theorem simplifyWithin_stated {s : Expr} (stated : Stated c (KeepsValue c) s v) (shallow : s.checkDepth c = .ok ()) :
    Returns (simplifyWithin c allowance s) (Stated c (HasValue c) · v) := by
  have valued {s : Expr} {v : Bool} (stated : Stated c (KeepsValue c) s v) :=
    (stated.mono fun _ _ kept => kept.toHasValue).evaluate_deeper
  rw [show allowance = 999 + 1 from rfl, simplifyWithin_foldM]
  induction stated with
  | bool v => exact Returns.pure (.bool v)
  | not inner ih =>
    rw [foldM]
    refine Returns.bind (ih (checkDepth_mono shallow (depth_child (by simp [children])).le)) fun p' simplified => ?_
    exact simplifyNode_stated_not _ (valued inner.not) simplified
  | @connective op p q v w known left right first second =>
    rw [foldM]
    refine Returns.bind (first (checkDepth_mono shallow (depth_child (by simp [children])).le)) fun p' left' => ?_
    refine Returns.bind (second (checkDepth_mono shallow (depth_child (by simp [children])).le)) fun q' right' => ?_
    exact simplifyNode_stated_connective _ known (valued (.connective known left right)) left' right'
  | order left right decided =>
    have first := left.simplified (checkDepth_mono shallow (depth_child (by simp [children])).le)
    have second := right.simplified (checkDepth_mono shallow (depth_child (by simp [children])).le)
    rw [show allowance = 999 + 1 from rfl, simplifyWithin_foldM] at first second
    rw [foldM]
    refine Returns.bind first fun a' left' => Returns.bind second fun b' right' => ?_
    exact simplifyNode_stated_order _ (valued (.order left right decided)) left' right' decided _ _
  | equation left right decided apart =>
    have first := left.simplified (checkDepth_mono shallow (depth_child (by simp [children])).le)
    have second := right.simplified (checkDepth_mono shallow (depth_child (by simp [children])).le)
    rw [show allowance = 999 + 1 from rfl, simplifyWithin_foldM] at first second
    rw [foldM]
    refine Returns.bind first fun a' left' => Returns.bind second fun b' right' => ?_
    exact simplifyNode_stated_equation _ (valued (.equation left right decided apart)) left' right' decided apart _ _

end Simplification

/-- Simplification and evaluation decide statements about numbers alike. Evaluation gives the truth value of the
statement, whatever simplification makes of it evaluates to the same one, and so where both are truth values they
are the same. -/
theorem statement_decided_alike {s : Expr} {v : Bool} (stated : Stated c (KeepsValue c) s v) :
    (s.checkDepth c = .ok () → Succeeds (s.evaled c) (· = .bool v)) ∧
      (Returns (s.innerSimplified c) fun r => Succeeds (r.evaluate c) (· = .bool v)) ∧
      ∀ u b w, s.innerSimplified c u = .ok (.bool b) w →
        ∀ u' b' w', s.evaled c u' = .ok (.bool b') w' → b = b' := by
  have evaluated := (stated.mono fun _ _ kept => kept.toHasValue).evaluate
  have simplified : Returns (s.innerSimplified c) (Stated c (HasValue c) · v) := by
    intro u r w returned
    cases guarded : s.checkDepth c with
    | error f =>
      rw [innerSimplified, guarded] at returned
      cases returned
    | ok =>
      rw [innerSimplified, guarded] at returned
      exact simplifyWithin_stated stated guarded u r w returned
  refine ⟨fun shallow => ?_, simplified.mono fun r stated => stated.evaluate, fun u b w first u' b' w' second => ?_⟩
  · rwa [evaled_eq shallow]
  · have left : b = v := (simplified u _ w first).of_bool
    have right : Expr.bool b' = .bool v := evaluated.returns u' _ w' (evaled_ok second).2
    rw [left]
    exact (Expr.bool.inj right).symm

/-- Five sixths are less than pi, and a power of two is not the next number. -/
theorem statement_decided_alike_pi :
    ∃ s : Expr, s = .binary .and
        (.binary (.order .less) (.binary .sum (.num (.ofRat (1 / 2))) (.num (.ofRat (1 / 3)))) (.var "pi"))
        (.unary .not (.binary .equals (.binary .pow 2 (.num (.ofInt 10))) (.num (.ofInt 1025)))) ∧
      Stated .default (KeepsValue .default) s true ∧ s.checkDepth .default = .ok () ∧
      Succeeds (s.evaled .default) (· = .bool true) ∧
      ∀ u b w, s.innerSimplified .default u = .ok (.bool b) w →
        ∀ u' b' w', s.evaled .default u' = .ok (.bool b') w' → b = b' := by
  let sum : Expr := .binary .sum (.num (.ofRat (1 / 2))) (.num (.ofRat (1 / 3)))
  let power : Expr := .binary .pow 2 (.num (.ofInt 10))
  -- the float that stands for pi, as evaluation finds it
  let pi : RealNumber := ((((Expr.var "pi").evaluate .default).answer ⟨50⟩).toOption.bind real?).getD .nan
  have fraction : HasValue .default sum (.ofRat (5 / 6)) :=
    .of_run rfl (by decide) rfl (u := ⟨50⟩) (w := ⟨50⟩) (by decide +kernel)
  have constant : HasValue .default (.var "pi") (.real pi) :=
    .of_run rfl (by decide) (by decide +kernel) (u := ⟨50⟩) (w := ⟨100⟩) (by decide +kernel)
  have less : Stated .default (KeepsValue .default) (.binary (.order .less) sum (.var "pi")) true := by
    refine .order (fraction.exact_kept rfl) (constant.leaf_kept rfl) ?_
    exact (RealNumber.holds_uniform .default _ _).succeeds (u := ⟨50⟩) (w := ⟨100⟩) (by decide +kernel)
  have left : HasValue .default power (.ofInt 1024) :=
    .of_run rfl (by decide) rfl (u := ⟨50⟩) (w := ⟨50⟩) (by decide +kernel)
  have right : HasValue .default (.num (.ofInt 1025)) (.ofInt 1025) := .num rfl
  have equal : Stated .default (KeepsValue .default) (.binary .equals power (.num (.ofInt 1025))) false := by
    have uniform : Uniform (fun _ => True) (equalsValue? .default (.num (.ofInt 1024)) (.num (.ofInt 1025))) :=
      (floatFree_compositional .default).equalsValue? (by decide) (by decide)
    refine .equation (left.exact_kept rfl) (right.exact_kept rfl) ?_ fun _ _ => by decide
    exact uniform.succeeds (u := ⟨50⟩) (w := ⟨50⟩) (by decide +kernel)
  have stated : Stated .default (KeepsValue .default)
      (.binary .and (.binary (.order .less) sum (.var "pi"))
        (.unary .not (.binary .equals power (.num (.ofInt 1025))))) true :=
    .connective (by decide) less equal.not
  obtain ⟨evaluated, _, alike⟩ := statement_decided_alike stated
  have value := evaluated (by decide +kernel)
  exact ⟨_, rfl, stated, by decide +kernel, value, alike⟩

/-- Two exact numbers within the tolerance are unequal to simplification and equal to evaluation. -/
theorem close_numbers_decided_apart :
    ∃ s : Expr, s = .binary .equals 0 (.num (.ofRat (1 / 10 ^ 7))) ∧
      s.innerSimplified .default ⟨100⟩ = .ok (.bool false) ⟨100⟩ ∧
      s.evaled .default ⟨100⟩ = .ok (.bool true) ⟨100⟩ :=
  ⟨_, rfl, by decide +kernel, by decide +kernel⟩

end ComputerAlgebra.Expr

import ComputerAlgebra.Proofs.Stable.Result

/-!
Undefined operations whose operands have conditions. The conditions are moved out of an operation before its
value is computed, but whether it is defined is asked before. So it stays undefined when NaN is what the
numbers below the conditions give, and when an operand without a condition is what makes it undefined.
-/

namespace ComputerAlgebra.Expr

def isOperation : Expr → Bool
  | .unary op _ => op ≠ .not
  | .binary (.order _) _ _ => true
  | .binary op _ _ => !op.isStatement
  | _ => false

/-- What evaluation leaves as it is, and has no condition. -/
structure IsValue (c : Config) (a : Expr) : Prop where
  same : Succeeds (a.evaled c) (· = a)
  bare : a.condition = none

/-- A condition that is open: no truth value, not NaN and without a condition of its own. -/
def Undecided (q : Expr) : Prop := (∀ t, q ≠ .bool t) ∧ q.isNaN = false ∧ q.condition = none

/-- A value as an operand: as it is, or with a condition that evaluation leaves open. -/
inductive Conditioned (c : Config) (a : Expr) : Expr → Prop
  | bare (value : IsValue c a) : Conditioned c a a
  | under (value : IsValue c a) {p : Expr} (open_ : Succeeds (p.evaled c) Undecided) :
      Conditioned c a (.provided a p)

def withoutNaN : Expr → Expr
  | .provided a p => if a.isNaN then a else .provided a p
  | a => a

def meetsIdentity : Expr → List Expr → Bool
  | .binary .mul _ _, [a, b] => a.isZero || b.isZero || a.isOne || b.isOne
  | .binary .div _ _, [a, b] => a.isZero || b.isOne
  | .binary .pow _ _, [a, b] => a.isOne || b.isZero || b.isOne
  | _, _ => false

def numericValue? (c : Config) : Expr → Computation (Option Number)
  | .unary op (.num z) => op.compute? c z
  | .binary op (.num x) (.num y) => op.compute? c x y
  | _ => return none

/-- Why an operation stays undefined over operands with conditions: only NaN has a condition; or the operation
is not defined for the operands as they are; or NaN is its value for the numbers below the conditions, and no
identity comes first. -/
inductive StaysUndefined (c : Config) (self : Expr) (values operands : List Expr) : Prop
  | bare (open_ : ∀ part ∈ operands, part.condition = none)
  | condition (undefined : Succeeds (condition? c self operands) (· = some false))
  | value (undefined : Succeeds (numericValue? c (self.withChildren values)) (· = some .nan))
      (unmet : meetsIdentity self operands = false)

section Operands
variable {c : Config}

theorem eq_nan {a : Expr} (undefined : a.isNaN = true) : a = .num .nan := by
  cases a with
  | num z =>
    cases z with
    | real r => cases r <;> first | rfl | cases undefined
    | complex => cases undefined
  | _ => cases undefined

theorem withoutNaN_bare {a : Expr} (plain : a.condition = none) : a.withoutNaN = a := by
  cases a <;> first | rfl | cases plain

inductive Resembles : Expr → Expr → Prop
  | bare {a : Expr} (open_ : a.condition = none) : Resembles a a
  | under (a p q : Expr) : Resembles (.provided a p) (.provided a q)

theorem evaluate_of_evaled {e : Expr} {P : Expr → Prop} (value : Succeeds (e.evaled c) P) :
    Succeeds (e.evaluate c) P := fun u => by
  obtain ⟨r, w, run, holds⟩ := value u
  exact ⟨r, w, (evaled_ok run).2, holds⟩

/-- Evaluation goes from the parts of a node to the node. -/
theorem evaluate_eq (e : Expr) :
    e.evaluate c = e.children.mapM (evaluate c) >>= evaluateNode c (evaluateWithin c 999) e :=
  foldM_eq e

theorem providedRule?_undecided {a q : Expr} (plain : a.condition = none) (open_ : Undecided q) :
    providedRule? a q = none := by
  unfold providedRule?
  split
  · next t => exact absurd rfl (open_.1 t)
  · cases plain
  · rfl

theorem evaluate_conditioned {a w : Expr} (given : Conditioned c a w) :
    Succeeds (w.evaluate c) (Resembles w.withoutNaN) := by
  cases given with
  | bare value =>
    rw [withoutNaN_bare value.bare]
    refine (evaluate_of_evaled value.same).mono ?_
    rintro _ rfl
    exact .bare value.bare
  | @under value p open_ =>
    rw [evaluate_eq]
    have parts : Succeeds ((Expr.provided a p).children.mapM (evaluate c))
        fun parts => ∃ q, parts = [a, q] ∧ Undecided q := by
      simp only [children, List.mapM_cons, List.mapM_nil, bind_assoc, pure_bind]
      refine (evaluate_of_evaled value.same).bind ?_
      rintro _ rfl
      refine (evaluate_of_evaled open_).bind fun q undecided => ?_
      exact .pure ⟨q, rfl, undecided⟩
    refine parts.bind ?_
    rintro _ ⟨q, rfl, undecided⟩
    have bare : ∀ part ∈ [a, q], part.condition = none := by simp [value.bare, undecided.2.2]
    have node : evaluateNode c (evaluateWithin c 999) (.provided a p) [a, q]
        = pure (confine c (.provided a p) (.provided a q) (.num .nan)) := by
      rw [evaluateNode_bare rfl bare]
      simp [condition?, evaluationRule, providedRule?_undecided value.bare undecided, withChildren]
    rw [node]
    refine .pure ?_
    cases undefined : a.isNaN with
    | true =>
      obtain rfl := eq_nan undefined
      exact .bare rfl
    | false =>
      rw [confine_eq (by simp [children, undefined, undecided.2.1]) rfl, withoutNaN, if_neg (by simp [undefined])]
      exact .under a p q

theorem evaluate_operands {values operands : List Expr} (given : List.Forall₂ (Conditioned c) values operands) :
    Succeeds (operands.mapM (evaluate c)) (List.Forall₂ Resembles (operands.map withoutNaN)) := by
  refine Judgment.succeeds.mapM ?_
  induction given with
  | nil => exact .nil
  | cons first _ ih => exact .cons (evaluate_conditioned first) ih

theorem unconditioned_bare {a : Expr} (plain : a.condition = none) : a.unconditioned = a := by
  cases a <;> first | rfl | cases plain

theorem unconditioned_operands {values operands parts : List Expr}
    (given : List.Forall₂ (Conditioned c) values operands)
    (related : List.Forall₂ Resembles (operands.map withoutNaN) parts) : parts.map unconditioned = values := by
  have plain {a v : Expr} (value : IsValue c a) (related : Resembles a v) : v.unconditioned = a := by
    cases related with
    | bare open_ => exact unconditioned_bare open_
    | under => cases value.bare
  have one {a w v : Expr} (given : Conditioned c a w) (related : Resembles w.withoutNaN v) : v.unconditioned = a := by
    cases given with
    | bare value => exact plain value (withoutNaN_bare value.bare ▸ related)
    | under value =>
      rw [withoutNaN] at related
      split at related
      · exact plain value related
      · cases related with
        | bare open_ => cases open_
        | under => rfl
  induction given generalizing parts with
  | nil =>
    cases related
    rfl
  | cons first _ ih =>
    cases related with
    | cons first' rest => rw [List.map_cons, one first first', ih rest]

/-- Where no condition is left, there was none, or there was one around NaN. -/
theorem operands_bare {values operands : List Expr} (given : List.Forall₂ (Conditioned c) values operands)
    (open_ : ∀ part ∈ operands.map withoutNaN, part.condition = none) :
    operands = values ∨ values.any isNaN = true := by
  induction given with
  | nil => exact .inl rfl
  | @cons a _ _ _ first _ ih =>
    rw [List.map_cons, List.forall_mem_cons] at open_
    rw [List.any_cons, Bool.or_eq_true]
    rcases ih open_.2 with rfl | undefined
    · cases first with
      | bare => exact .inl rfl
      | under =>
        have plain := open_.1
        rw [withoutNaN] at plain
        split at plain
        · next undefined => exact .inr (.inl undefined)
        · cases plain
    · exact .inr (.inr undefined)

theorem resembles_bare {parts parts' : List Expr} (related : List.Forall₂ Resembles parts parts')
    (open_ : ∀ part ∈ parts, part.condition = none) : ∀ part ∈ parts', part.condition = none := by
  refine forall_related related fun a member b resembles => ?_
  cases resembles with
  | bare open_ => exact open_
  | under => cases open_ _ member

end Operands

section Nodes
variable {c : Config} {evaluate : Expr → Computation Expr} {self : Expr} {parts parts' : List Expr}

/-- Whether an operation is defined, and whether an identity is met, does not depend on what the conditions of
its operands are. -/
theorem resembles_node (operation : self.isOperation = true) (size : parts.length = self.children.length)
    (related : List.Forall₂ Resembles parts parts') :
    condition? c self parts' = condition? c self parts ∧ meetsIdentity self parts' = meetsIdentity self parts := by
  cases self with
  | unary op a =>
    obtain ⟨x, rfl⟩ := List.length_eq_one_iff.mp size
    cases related with
    | cons first rest =>
      cases rest
      cases first <;> cases op <;> exact ⟨rfl, rfl⟩
  | binary op a b =>
    obtain ⟨x, y, rfl⟩ := List.length_eq_two.mp size
    cases related with
    | cons first rest =>
      cases rest with
      | cons second rest =>
        cases rest
        cases first <;> cases second <;> cases op <;> exact ⟨rfl, rfl⟩
  | _ => cases operation

theorem isOperation_ruled (operation : self.isOperation = true) : self.isRuled = true := by
  cases self <;> first | rfl | cases operation

theorem isOperation_headed (operation : self.isOperation = true) : ∃ h, self.head? = some h := by
  cases self <;> first | exact ⟨_, rfl⟩ | cases operation

theorem isOperation_binary {op : BinaryOp} {a b : Expr} (operation : (binary op a b).isOperation = true) :
    (∃ test, op = .order test) ∨ op.isStatement = false := by
  cases op <;> simp_all [isOperation, BinaryOp.isStatement]

/-- An operation over other operands without conditions evaluates as before over them. -/
theorem evaluateNode_rebuilt (operation : self.isOperation = true) (size : parts.length = self.children.length)
    (bare : ∀ part ∈ parts, part.condition = none) :
    evaluateNode c evaluate (self.withChildren parts) parts = evaluateNode c evaluate self parts := by
  rw [evaluateNode_bare (isRuled_rebuilt (isOperation_ruled operation) _) bare,
    evaluateNode_bare (isOperation_ruled operation) bare, condition?_withChildren size]
  cases self with
  | unary op =>
    obtain ⟨x, rfl⟩ := List.length_eq_one_iff.mp size
    cases op <;> rfl
  | binary op =>
    obtain ⟨x, y, rfl⟩ := List.length_eq_two.mp size
    cases op <;> rfl
  | _ => cases operation

theorem orderValue?_nonnumeric {test : Comparison} {a b : Expr} (nonnumeric : (a.isNumber && b.isNumber) = false) :
    orderValue? c test a b = pure none := by
  have unordered {e : Expr} (nonnumeric : e.isNumber = false) : e.real? = none := by
    cases e <;> first | rfl | cases nonnumeric
  unfold orderValue?
  rcases (Bool.and_eq_false_iff.mp nonnumeric) with left | right
  · rw [unordered left]
  · rw [unordered right]
    cases a.real? <;> rfl

/-- The rule of an operation finds nothing for operands that are not all numbers, when no identity is met. -/
theorem evaluationRule_unmet (operation : self.isOperation = true) (size : parts.length = self.children.length)
    (nonnumeric : parts.all isNumber = false) (unmet : meetsIdentity self parts = false) :
    evaluationRule c evaluate self parts = pure none := by
  cases self with
  | unary op =>
    obtain ⟨x, rfl⟩ := List.length_eq_one_iff.mp size
    change unaryRule? c op x = pure none
    cases op with
    | not => cases operation
    | _ => cases x <;> first | rfl | cases nonnumeric
  | binary op =>
    obtain ⟨x, y, rfl⟩ := List.length_eq_two.mp size
    change binaryRule? c evaluate op x y = pure none
    simp only [List.all_cons, List.all_nil, Bool.and_true] at nonnumeric
    rcases isOperation_binary operation with ⟨test, rfl⟩ | arithmetic
    · rw [binaryRule?, orderValue?_nonnumeric nonnumeric]
      rfl
    · rw [binaryRule?_identity arithmetic nonnumeric]
      cases op <;> simp_all [identityRule?, meetsIdentity, BinaryOp.isStatement]
  | _ => cases operation

theorem evaluateNode_undefined (operation : self.isOperation = true)
    (undefined : Succeeds (condition? c self parts) (· = some false)) :
    Succeeds (evaluateNode c evaluate self parts) (·.isNaN = true) := by
  rw [evaluateNode_ruled (isOperation_ruled operation)]
  refine undefined.bind ?_
  rintro _ rfl
  exact .pure rfl

/-- An operation over NaN and something that is no number is NaN. -/
theorem evaluateNode_beside (operation : self.isOperation = true) (size : parts.length = self.children.length)
    (bare : ∀ part ∈ parts, part.condition = none) (asked : Succeeds (condition? c self parts) fun _ => True)
    (undefined : parts.any isNaN = true) (nonnumeric : parts.all isNumber = false)
    (unmet : meetsIdentity self parts = false) :
    Succeeds (evaluateNode c evaluate self parts) (·.isNaN = true) := by
  obtain ⟨h, headed⟩ := isOperation_headed operation
  rw [evaluateNode_bare (isOperation_ruled operation) bare, evaluationRule_unmet operation size nonnumeric unmet]
  refine asked.bind fun d _ => Judgment.succeeds.ite (fun _ => .pure rfl) fun _ => ?_
  rw [pure_bind, Option.getD_none, confine, (withChildren_head headed size).2, if_pos undefined]
  exact .pure rfl

/-- No identity asks for NaN or for what is no number. -/
theorem meetsIdentity_beside (undefined : parts.any isNaN = true) (nonnumeric : parts.all isNumber = false) :
    meetsIdentity self parts = false := by
  have nan {a : Expr} (undefined : a.isNaN = true) : a.isNumber = true ∧ a.isZero = false ∧ a.isOne = false := by
    rw [eq_nan undefined]
    decide
  have other {a : Expr} (other : a.isNumber = false) : a.isZero = false ∧ a.isOne = false := by
    cases a <;> first | exact ⟨rfl, rfl⟩ | cases other
  have both {x y : Expr} (undefined : [x, y].any isNaN = true) (nonnumeric : [x, y].all isNumber = false) :
      (x.isZero = false ∧ x.isOne = false) ∧ y.isZero = false ∧ y.isOne = false := by
    simp only [List.any_cons, List.any_nil, Bool.or_false, Bool.or_eq_true] at undefined
    simp only [List.all_cons, List.all_nil, Bool.and_true] at nonnumeric
    rcases undefined with undefined | undefined
    · obtain ⟨number, inert⟩ := nan undefined
      exact ⟨inert, other (by simpa [number] using nonnumeric)⟩
    · obtain ⟨number, inert⟩ := nan undefined
      exact ⟨other (by simpa [number] using nonnumeric), inert⟩
  unfold meetsIdentity
  split
  case h_4 => rfl
  all_goals
    obtain ⟨⟨zero, one⟩, zero', one'⟩ := both undefined nonnumeric
    simp [zero, one, zero', one']

theorem numericValue?_numbers {z : Number} (value : Succeeds (numericValue? c self) (· = some z)) :
    self.children.all isNumber = true := by
  obtain ⟨_, _, returned, rfl⟩ := value ⟨0⟩
  unfold numericValue? at returned
  split at returned
  · rfl
  · rfl
  · cases returned

/-- The rule of an operation on numbers gives its value. -/
theorem evaluationRule_numeric (operation : self.isOperation = true) (size : parts.length = self.children.length)
    {z : Number} (value : Succeeds (numericValue? c (self.withChildren parts)) (· = some z)) :
    Succeeds (evaluationRule c evaluate self parts) (· = some (.num z)) := by
  have numbers := numericValue?_numbers value
  have mapped {m : Computation (Option Number)} (value : Succeeds m (· = some z)) :
      Succeeds (do return (← m).map Expr.num) (· = some (.num z)) := by
    refine value.bind ?_
    rintro _ rfl
    exact .pure rfl
  cases self with
  | unary op a =>
    obtain ⟨x, rfl⟩ := List.length_eq_one_iff.mp size
    cases x with
    | num x =>
      have rule : evaluationRule c evaluate (.unary op a) [.num x] = do return (← op.compute? c x).map .num := by
        cases op <;> rfl
      rw [rule]
      exact mapped value
    | _ => cases numbers
  | binary op a b =>
    obtain ⟨x, y, rfl⟩ := List.length_eq_two.mp size
    cases x with
    | num x =>
      cases y with
      | num y =>
        rcases isOperation_binary operation with ⟨test, rfl⟩ | arithmetic
        · obtain ⟨_, _, returned, rfl⟩ := value ⟨0⟩
          cases returned
        · have rule : evaluationRule c evaluate (.binary op a b) [.num x, .num y]
              = do return (← op.compute? c x y).map .num := by
            cases op <;> first | rfl | cases arithmetic
          rw [rule]
          exact mapped value
      | _ => cases numbers
    | _ => cases numbers
  | _ => cases operation

/-- Whether a node without sets is defined is known at once. -/
theorem condition?_pure (c : Config) (self : Expr) {parts : List Expr} (plain : ∀ part ∈ parts, part.isSet = false) :
    ∃ d, condition? c self parts = pure d := by
  unfold condition?
  split
  · simp only [List.forall_mem_cons] at plain
    rw [plain.2.1]
    split <;> exact ⟨_, rfl⟩
  all_goals first
    | exact ⟨_, rfl⟩
    | (split <;> exact ⟨_, rfl⟩)

/-- An operation on numbers is NaN when that is its value. -/
theorem evaluateNode_numeric (operation : self.isOperation = true) (size : parts.length = self.children.length)
    (value : Succeeds (numericValue? c (self.withChildren parts)) (· = some .nan)) :
    Succeeds (evaluateNode c evaluate self parts) (·.isNaN = true) := by
  obtain ⟨h, headed⟩ := isOperation_headed operation
  have numbers := numericValue?_numbers value
  rw [(withChildren_head headed size).2, List.all_eq_true] at numbers
  have plain : ∀ part ∈ parts, part.condition = none ∧ part.isSet = false := fun part member => by
    have number := numbers part member
    cases part <;> first | exact ⟨rfl, rfl⟩ | cases number
  obtain ⟨d, known⟩ := condition?_pure c self fun part member => (plain part member).2
  rw [evaluateNode_bare (isOperation_ruled operation) fun part member => (plain part member).1, known, pure_bind]
  refine Judgment.succeeds.ite (fun _ => .pure rfl) fun _ => ?_
  refine (evaluationRule_numeric operation size value).bind ?_
  rintro _ rfl
  rw [Option.getD_some, confine_nan]
  exact .pure rfl

/-- An operation is NaN when it has a condition around an operand and NaN as its value below the conditions. -/
theorem evaluateNode_lifted (operation : self.isOperation = true) (size : parts.length = self.children.length)
    (value : Succeeds (numericValue? c (self.withChildren (parts.map unconditioned))) (· = some .nan))
    (conditioned : ∃ part ∈ parts, part.condition ≠ none) (unmet : meetsIdentity self parts = false) :
    Succeeds (evaluateNode c evaluate self parts) (·.isNaN = true) := by
  have size' : (parts.map unconditioned).length = self.children.length := by rw [List.length_map, size]
  obtain ⟨h, headed⟩ := isOperation_headed operation
  have numbers : ∀ part ∈ parts, part.unconditioned.isNumber = true := by
    have numbers := numericValue?_numbers value
    rw [(withChildren_head headed size').2, List.all_map, List.all_eq_true] at numbers
    exact numbers
  have plain : ∀ part ∈ parts, part.isSet = false := fun part member => by
    have number := numbers part member
    cases part <;> first | rfl | cases number
  obtain ⟨d, known⟩ := condition?_pure c self plain
  have nonnumeric : parts.all isNumber = false := by
    obtain ⟨part, member, conditioned⟩ := conditioned
    refine List.all_eq_false.mpr ⟨part, member, ?_⟩
    cases part <;> first | exact absurd rfl conditioned | simp [isNumber, number?]
  have unruled : Succeeds (evaluationRule c evaluate self parts) (· = none) := by
    rw [evaluationRule_unmet operation size nonnumeric unmet]
    exact .pure rfl
  have movable : ∀ p body, self ≠ .lam p body := fun p body same => by
    rw [same] at operation
    cases operation
  rw [evaluateNode_ruled (isOperation_ruled operation), known, pure_bind]
  refine Judgment.succeeds.ite (fun _ => .pure rfl) fun _ => ?_
  refine (liftConditions_lifted movable conditioned unruled (evaluationRule_numeric operation size' value)).bind ?_
  rintro _ ⟨p, rfl⟩
  exact .pure rfl

end Nodes

section Values
variable {c : Config} {node : Expr} {values : List Expr}

theorem conditioned_values {operands : List Expr} (given : List.Forall₂ (Conditioned c) values operands) :
    ∀ a ∈ values, IsValue c a := by
  refine forall_related given.flip fun w _ a conditioned => ?_
  cases conditioned with
  | bare value => exact value
  | under value => exact value

theorem evaluate_values (all : ∀ a ∈ values, IsValue c a) : Succeeds (values.mapM (evaluate c)) (· = values) := by
  induction values with
  | nil => exact .pure rfl
  | cons a values ih =>
    rw [List.forall_mem_cons] at all
    rw [List.mapM_cons]
    refine (evaluate_of_evaled all.1.same).bind ?_
    rintro _ rfl
    refine (ih all.2).bind ?_
    rintro _ rfl
    exact .pure rfl

theorem evaluate_numbers (numbers : values.all isNumber = true) : values.mapM (evaluate c) = pure values := by
  induction values with
  | nil => rfl
  | cons a values ih =>
    rw [List.all_cons, Bool.and_eq_true] at numbers
    have first : evaluate c a = pure a := by
      cases a <;> first | rfl | cases numbers.1
    rw [List.mapM_cons, first, ih numbers.2]
    rfl

section Undefined
variable (operation : node.isOperation = true) (size : values.length = node.children.length)
  (all : ∀ a ∈ values, IsValue c a) (undefined : Succeeds ((node.withChildren values).evaled c) (·.isNaN = true))
include operation size all undefined

/-- An operation on numbers that evaluates to NaN does so with whatever digits its operands are evaluated. -/
theorem undefined_numbers (numbers : values.all isNumber = true) :
    Succeeds (evaluateNode c (evaluateWithin c 999) node values) (·.isNaN = true) := by
  obtain ⟨h, headed⟩ := isOperation_headed operation
  have walk := evaluate_of_evaled undefined
  rwa [evaluate_eq, (withChildren_head headed size).2, evaluate_numbers numbers, pure_bind,
    evaluateNode_rebuilt operation size fun a member => (all a member).bare] at walk

/-- Whether an operation is defined can be asked when it evaluates to something. -/
theorem undefined_asked : Succeeds (condition? c node values) fun _ => True := by
  obtain ⟨h, headed⟩ := isOperation_headed operation
  obtain ⟨_, _, run, -⟩ := evaluate_of_evaled undefined ⟨0⟩
  rw [evaluate_eq, (withChildren_head headed size).2] at run
  obtain ⟨parts, v, first, rest⟩ := Computation.of_bind_ok run
  obtain ⟨_, _, again, same⟩ := evaluate_values all ⟨0⟩
  rw [first] at again
  cases again
  rw [same, evaluateNode_rebuilt operation size fun a member => (all a member).bare,
    evaluateNode_ruled (isOperation_ruled operation)] at rest
  obtain ⟨d, _, asked, -⟩ := Computation.of_bind_ok rest
  exact ((condition?_steady node values).succeeds asked).mono fun _ _ => trivial

end Undefined

/-- An operation that is undefined for some values stays undefined when some of the values have conditions, where
these conditions do not hide why. -/
theorem undefined_lifted (operation : node.isOperation = true)
    (given : List.Forall₂ (Conditioned c) values node.children) (shallow : node.checkDepth c = .ok ())
    (undefined : Succeeds ((node.withChildren values).evaled c) (·.isNaN = true))
    (stays : StaysUndefined c node values (node.children.map withoutNaN)) :
    Succeeds (node.evaled c) (·.isNaN = true) := by
  have size : values.length = node.children.length := given.length_eq
  have all := conditioned_values given
  have eq_values {parts : List Expr} (bare : ∀ part ∈ parts, part.condition = none)
      (below : parts.map unconditioned = values) : parts = values := by
    rw [← below, List.map_congr_left fun part member => unconditioned_bare (bare part member), List.map_id']
  have lifted (node_undefined : ∀ parts, List.Forall₂ Resembles (node.children.map withoutNaN) parts →
      parts.map unconditioned = values →
      Succeeds (evaluateNode c (evaluateWithin c 999) node parts) (·.isNaN = true)) :
      Succeeds (node.evaled c) (·.isNaN = true) := by
    rw [evaled_eq shallow, evaluate_eq]
    exact (evaluate_operands given).bind fun parts related =>
      node_undefined parts related (unconditioned_operands given related)
  have asked {parts : List Expr} (related : List.Forall₂ Resembles (node.children.map withoutNaN) parts) :=
    resembles_node (c := c) operation (List.length_map _) related
  cases stays with
  | bare open_ =>
    rcases operands_bare given open_ with same | nan
    · rwa [← same, isRuled_withChildren (isOperation_ruled operation)] at undefined
    · refine lifted fun parts related below => ?_
      have bare := resembles_bare related open_
      obtain rfl := eq_values bare below
      cases numbers : parts.all isNumber with
      | true => exact undefined_numbers operation size all undefined numbers
      | false =>
        exact evaluateNode_beside operation size bare (undefined_asked operation size all undefined) nan numbers
          (meetsIdentity_beside nan numbers)
  | condition fails =>
    exact lifted fun parts related _ => evaluateNode_undefined operation ((asked related).1 ▸ fails)
  | value nan unmet =>
    refine lifted fun parts related below => ?_
    have size' : parts.length = node.children.length := by rw [← size, ← below, List.length_map]
    by_cases conditioned : ∃ part ∈ parts, part.condition ≠ none
    · exact evaluateNode_lifted operation size' (below ▸ nan) conditioned ((asked related).2 ▸ unmet)
    · simp only [not_exists, not_and, not_not] at conditioned
      obtain rfl := eq_values conditioned below
      exact evaluateNode_numeric operation size nan

end Values

private theorem undecided_positive :
    Succeeds ((binary (.order .greater) (.var "x") 0).evaled .default) Undecided := by
  have node : evaluateNode .default (evaluateWithin .default 999) (.binary (.order .greater) (.var "x") 0) [.var "x", 0]
      = pure (.binary (.order .greater) (.var "x") 0) := by
    rw [evaluateNode_bare rfl (by simp [condition])]
    rfl
  rw [evaled_eq (by decide +kernel), evaluate_eq]
  exact fun u => ⟨_, u, congrFun node u, by simp, rfl, rfl⟩

/-- The difference of two infinities, one of which has a condition. -/
theorem undefined_lifted_infinities :
    ∃ infinity node : Expr, infinity = .num .positiveInfinity ∧
      node = .binary .minus infinity (.provided infinity (.binary (.order .greater) (.var "x") 0)) ∧
      node.isOperation = true ∧ List.Forall₂ (Conditioned .default) [infinity, infinity] node.children ∧
      node.checkDepth .default = .ok () ∧
      Succeeds ((node.withChildren [infinity, infinity]).evaled .default) (·.isNaN = true) ∧
      StaysUndefined .default node [infinity, infinity] (node.children.map withoutNaN) ∧
      Succeeds (node.evaled .default) (·.isNaN = true) := by
  let infinity : Expr := .num .positiveInfinity
  let node : Expr := .binary .minus infinity (.provided infinity (.binary (.order .greater) (.var "x") 0))
  have same : IsValue .default infinity := ⟨fun u => ⟨infinity, u, rfl, rfl⟩, rfl⟩
  have given : List.Forall₂ (Conditioned .default) [infinity, infinity] node.children :=
    .cons (.bare same) (.cons (.under same undecided_positive) .nil)
  have shallow : node.checkDepth .default = .ok () := by decide +kernel
  have value : Succeeds (numericValue? .default (.binary .minus infinity infinity)) (· = some .nan) := by
    have difference : Succeeds (Number.sub .default .positiveInfinity .positiveInfinity) (· = .nan) :=
      Uniform.succeeds (Number.sub_uniform .default rfl rfl) (u := ⟨100⟩) (w := ⟨100⟩) (by decide +kernel)
    refine difference.bind ?_
    rintro _ rfl
    exact .pure rfl
  have undefined : Succeeds ((node.withChildren [infinity, infinity]).evaled .default) (·.isNaN = true) := by
    rw [evaled_eq (by decide +kernel), evaluate_eq]
    exact evaluateNode_numeric (show (binary .minus infinity infinity).isOperation = true from rfl) rfl value
  have stays : StaysUndefined .default node [infinity, infinity] (node.children.map withoutNaN) := .value value rfl
  exact ⟨infinity, node, rfl, rfl, rfl, given, shallow, undefined, stays,
    undefined_lifted rfl given shallow undefined stays⟩

/-- Division by zero is undefined, but not when the zero has a condition: it is then no zero where the quotient is
asked whether it is defined. -/
theorem division_hidden_zero :
    ∃ node : Expr, node = .binary .div 1 (.provided 0 (.binary (.order .greater) (.var "x") 0)) ∧
      node.isOperation = true ∧ List.Forall₂ (Conditioned .default) [1, 0] node.children ∧
      node.checkDepth .default = .ok () ∧
      Succeeds ((node.withChildren [1, 0]).evaled .default) (·.isNaN = true) ∧
      node.evaled .default ⟨50⟩
        = .ok (.provided (.num .positiveInfinity) (.binary (.order .greater) (.var "x") 0)) ⟨50⟩ ∧
      ¬ Succeeds (node.evaled .default) (·.isNaN = true) := by
  have value (n : Nat) : IsValue .default (OfNat.ofNat n : Expr) := ⟨fun u => ⟨OfNat.ofNat n, u, rfl, rfl⟩, rfl⟩
  have returned : (binary .div 1 (.provided 0 (.binary (.order .greater) (.var "x") 0))).evaled .default ⟨50⟩
      = .ok (.provided (.num .positiveInfinity) (.binary (.order .greater) (.var "x") 0)) ⟨50⟩ := by decide +kernel
  refine ⟨_, rfl, rfl, .cons (.bare (value 1)) (.cons (.under (value 0) undecided_positive) .nil), by decide +kernel,
    fun u => ⟨.num .nan, u, rfl, rfl⟩, returned, fun impossible => ?_⟩
  obtain ⟨_, _, run, undefined⟩ := impossible ⟨50⟩
  rw [returned] at run
  cases run
  cases undefined

end ComputerAlgebra.Expr

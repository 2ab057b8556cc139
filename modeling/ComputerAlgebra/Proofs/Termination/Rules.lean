import ComputerAlgebra.Proofs.Termination.Weight
import ComputerAlgebra.Proofs.Scope.Compositional
import ComputerAlgebra.Proofs.Variant

/-!
No rule of evaluation or simplification makes more of a node than there was, by any count that adds up over
the parts: it picks a part, puts a number or truth value in its place, or moves operators and conditions
around. Only a function that takes in an argument can copy.
-/

namespace ComputerAlgebra

theorem Head.unary_weight (op : UnaryOp) : (Head.unary op).weight ≤ 10 := by
  cases op <;> simp [weight]

namespace Expr

/-- An expression that comes to no more than another by any additive count, and that nests no more evaluations when
a power counts for `i` of them or more. -/
structure Within (i : Nat) (e r : Expr) : Prop where
  le : ∀ {k m : Nat} {count : Expr → Nat}, Additive k m count → count r ≤ count e
  nested : ∀ {j : Nat}, i ≤ j → r.nesting j ≤ e.nesting j

namespace Within
variable {i : Nat} {a b e r s : Expr}

theorem refl : Within i e e := ⟨fun _ => le_refl _, fun _ => le_refl _⟩

theorem trans (first : Within i e r) (second : Within i r s) : Within i e s :=
  ⟨fun additive => (second.le additive).trans (first.le additive),
    fun least => (second.nested least).trans (first.nested least)⟩

theorem number (z : Number) : Within i e (.num z) where
  le additive := by
    rw [additive.num]
    exact additive.least e
  nested _ := Nat.zero_le _

theorem truth (b : Bool) : Within i e (.bool b) where
  le additive := by
    rw [additive.bool]
    exact additive.least e
  nested _ := Nat.zero_le _

theorem part {h : Head} (headed : e.head? = some h) (member : a ∈ e.children) : Within i e a :=
  ⟨fun additive => additive.part_le headed member, fun _ => nesting_part member⟩

theorem operand {op : UnaryOp} : Within i (.unary op a) a := part rfl (by simp [children])

theorem left {op : BinaryOp} : Within i (.binary op a b) a := part rfl (by simp [children])

theorem right {op : BinaryOp} : Within i (.binary op a b) b := part rfl (by simp [children])

end Within

section Evaluation
variable {i : Nat} {c : Config} {a b e p : Expr} {same : Expr → Expr → Prop} [DecidableRel same]

theorem within_numbers (r : Option Number) : Offers (Within i e) (r.map .num) :=
  .map (Q := fun _ => True) (fun _ _ => trivial) fun z _ => .number z

theorem within_truths (r : Option Bool) : Offers (Within i e) (r.map .bool) :=
  .map (Q := fun _ => True) (fun _ _ => trivial) fun t _ => .truth t

theorem within_connectiveRule? (op : BinaryOp) : Offers (Within i (.binary op a b)) (connectiveRule? op a b) := by
  have negated_left : Within i (.binary op a b) (.unary .not a) := ⟨fun additive => by
    have := additive.least b
    simp only [additive.binary, additive.unary, Head.weight]
    omega, fun _ => by simp⟩
  have negated_right : Within i (.binary op a b) (.unary .not b) := ⟨fun additive => by
    have := additive.least a
    simp only [additive.binary, additive.unary, Head.weight]
    omega, fun _ => by simp⟩
  unfold connectiveRule?
  split <;> first
    | exact .some (.truth _)
    | exact .some .left
    | exact .some .right
    | exact .some negated_left
    | exact .some negated_right
    | exact .none

theorem within_unaryRule? (op : UnaryOp) : Returns (unaryRule? c op a) (Offers (Within i (.unary op a))) := by
  unfold unaryRule?
  split
  · exact .pure (.some (.truth _))
  · exact .bind .trivial fun r _ => .pure (within_numbers r)
  · exact .pure .none

theorem within_identityRule? (evaluate : Expr → Computation Expr) (op : BinaryOp) :
    Returns (identityRule? c evaluate op a b) (Offers (Within i (.binary op a b))) := by
  have number {n : Nat} : Within i (.binary op a b) (OfNat.ofNat n : Expr) := .number _
  unfold identityRule?
  split
  · exact .pure (.ite (fun _ => .some number) fun _ =>
      .ite (fun _ => .some .right) fun _ => .ite (fun _ => .some .left) fun _ => .none)
  · refine Judgment.returns.ite (fun _ => .pure (.some .left)) fun _ => ?_
    refine Judgment.returns.ite (fun _ => ?_) fun _ => .pure .none
    exact .bind .trivial fun _ _ => .pure (.ite (fun _ => .some number) fun _ => .none)
  · exact .pure (.ite (fun _ => .some number) fun _ => .ite (fun _ => .some .left) fun _ => .none)
  · exact .pure .none

theorem within_binaryRule? (evaluate : Expr → Computation Expr) (op : BinaryOp) :
    Returns (Variant.binaryRule? same c evaluate op a b) (Offers (Within i (.binary op a b))) := by
  have truths {m : Computation (Option Bool)} :
      Returns (do return (← m).map .bool) (Offers (Within i (.binary op a b))) :=
    .bind .trivial fun r _ => .pure (within_truths r)
  unfold Variant.binaryRule?
  refine Judgment.returns.ite (fun _ => truths) fun _ => ?_
  unfold binaryRule?
  split
  case h_5 | h_6 | h_7 => exact truths
  case h_8 =>
    split
    · exact .bind .trivial fun r _ => .pure (within_numbers r)
    · exact within_identityRule? evaluate op
  all_goals exact .pure (within_connectiveRule? _)

theorem within_providedRule? : Offers (Within i (.provided e p)) (providedRule? e p) := by
  unfold providedRule?
  split
  · split
    · exact .some (.part rfl (by simp [children]))
    · exact .some (.number _)
  · refine .some ⟨fun additive => ?_, fun _ => ?_⟩
    · simp only [additive.provided, additive.binary]
      omega
    · simp
  · exact .none

/-- A built-in function comes to no more than the application of its name. -/
theorem within_builtin? (name : String) (args : List Expr) :
    Offers (Within i (.app (.var name) args)) (builtin? name args) := by
  have euler : isConstantName "e" = true := by decide
  have known {op : UnaryOp} {x a : Expr} : Within i (.app x [a]) (.unary op a) := ⟨fun {k m count} additive => by
    have own : k * (Head.unary op).weight ≤ k * 12 := Nat.mul_le_mul_left k ((Head.unary_weight op).trans (by omega))
    simp only [additive.unary, additive.app, List.map_cons, List.map_nil, List.sum_cons, List.sum_nil]
    omega, fun _ => by
    simp only [nesting_unary, nesting_app, List.map_cons, List.map_nil, List.foldl_cons, List.foldl_nil]
    split <;> omega⟩
  unfold builtin?
  split
  case h_13 =>
    refine .some ⟨fun additive => ?_, fun _ => ?_⟩
    · simp only [sqrt, additive.binary, half, additive.num, additive.app, List.map_cons, List.map_nil, List.sum_cons,
        List.sum_nil]
      omega
    · simp only [sqrt, half, nesting_binary, nesting_num, nesting_app, List.map_cons, List.map_nil, List.foldl_cons,
        List.foldl_nil]
      split <;> simp
  case h_14 =>
    refine .some ⟨fun additive => ?_, fun _ => ?_⟩
    · simp only [ln, additive.binary, additive.constant euler, additive.app, List.map_cons, List.map_nil, List.sum_cons,
        List.sum_nil]
      omega
    · simp [ln, nesting_app]
  case h_15 =>
    refine .some ⟨fun additive => ?_, fun _ => ?_⟩
    · simp only [exp, additive.binary, additive.constant euler, additive.app, List.map_cons, List.map_nil,
        List.sum_cons, List.sum_nil]
      omega
    · simp only [exp, nesting_binary, nesting_var, nesting_app, List.map_cons, List.map_nil, List.foldl_cons,
        List.foldl_nil]
      split <;> simp
      omega
  case h_16 =>
    refine .some ⟨fun additive => ?_, fun _ => ?_⟩
    · simp only [additive.binary, additive.app, List.map_cons, List.map_nil, List.sum_cons,
        List.sum_nil]
      omega
    · simp [nesting_app]
  case h_21 => exact .none
  all_goals exact .some known

theorem weight_builtin? {name : String} {args : List Expr} {r : Expr} (known : builtin? name args = some r) :
    r.weight < (Expr.app (.var name) args).weight := by
  have light {op : UnaryOp} {a : Expr} : (Expr.unary op a).weight < (Expr.app (.var name) [a]).weight := by
    have := Head.unary_weight op
    simp only [weight_additive.unary, weight_additive.app, List.map_cons, List.map_nil, List.sum_cons, List.sum_nil]
    omega
  have euler : (Expr.var "e").weight = 1 := weight_additive.constant (by decide)
  unfold builtin? at known
  split at known <;> cases known <;> first
    | exact light
    | simp only [sqrt, half, ln, exp, euler, weight_additive.binary, weight_additive.num, weight_additive.app,
        List.map_cons, List.map_nil, List.sum_cons, List.sum_nil]
      omega

section Cases

theorem openCases_sublist (evaluate : Expr → Computation Expr) (cases : List (Expr × Expr)) :
    Returns (openCases evaluate cases) fun r => r.1.Sublist cases := by
  induction cases with
  | nil => exact .pure .slnil
  | cons entry rest ih =>
    obtain ⟨e, p⟩ := entry
    unfold openCases
    refine .bind .trivial fun truth _ => ?_
    split
    · exact .pure (.cons_cons _ (List.nil_sublist rest))
    · exact ih.mono fun _ kept => kept.cons _
    · exact .bind ih fun r kept => .pure (.cons_cons _ kept)

theorem within_sublist {cases kept : List (Expr × Expr)} (sub : kept.Sublist cases) :
    Within i (.piecewise cases) (.piecewise kept) where
  le additive := by
    rw [additive.piecewise, additive.piecewise]
    exact Nat.add_le_add_left ((sub.map _).sum_le_sum fun _ _ => Nat.zero_le _) _
  nested _ := by
    rw [nesting_piecewise, nesting_piecewise]
    refine Nat.add_le_add_right ((foldl_max_le_iff _ 0).mpr ⟨Nat.zero_le _, List.forall_mem_map.mpr ?_⟩) 1
    intro part member
    obtain ⟨s, inside, among⟩ := List.mem_flatMap.mp member
    refine (le_foldl_max _ 0).2 _ (List.mem_map_of_mem ?_)
    exact List.mem_flatMap.mpr ⟨s, sub.subset inside, among⟩

theorem within_decideCases (evaluate : Expr → Computation Expr) (cases : List (Expr × Expr)) :
    Returns (decideCases evaluate cases) (Within i (.piecewise cases)) := by
  unfold decideCases
  refine .bind (openCases_sublist evaluate cases) fun r kept => ?_
  split
  · exact .pure (.number _)
  · next e p _ =>
    refine .pure (.part rfl (List.mem_flatMap.mpr ⟨(e, p), ?_, by simp⟩))
    exact kept.subset List.mem_cons_self
  · exact .pure (within_sublist kept)

end Cases

theorem within_confine {self result outside e : Expr} (inner : Within i e result) (instead : Within i e outside) :
    Within i e (confine c self result outside) := by
  unfold confine
  split
  · exact .number _
  split
  · exact inner
  · exact instead

end Evaluation

section Application

/-- A reduction of an application, with any test for what is the application again. -/
theorem variant_reduceOnce?_cases {same : Expr → Expr → Prop} [DecidableRel same] {self f r : Expr}
    {args : List Expr} (reduced : Variant.reduceOnce? same self f args = .ok (some r)) :
    (∃ name, f = .var name ∧ builtin? name args = some r) ∨ beta? f args = .ok (some r) := by
  unfold Variant.reduceOnce? at reduced
  extract_lets builtin at reduced
  cases known : builtin with
  | some e =>
    rw [known] at reduced
    cases reduced
    left
    unfold builtin at known
    split at known
    · next name => exact ⟨name, rfl, known⟩
    · cases known
  | none =>
    rw [known] at reduced
    right
    cases taken : beta? f args with
    | error f =>
      rw [taken] at reduced
      cases reduced
    | ok next =>
      rw [taken] at reduced
      cases next with
      | none => cases reduced
      | some r' =>
        change Except.ok (if r'.isRedex && same r' self then none else some r') = _ at reduced
        have chosen := Except.ok.inj reduced
        split at chosen
        · cases chosen
        · rw [chosen]

/-- A function that takes its first argument in: its body with the argument, applied to the others. -/
theorem beta?_cases {f r : Expr} {args : List Expr} (reduced : beta? f args = .ok (some r)) :
    ∃ p body a rest s, f = .lam p body ∧ args = a :: rest ∧ body.substitute (.var p) a = .ok s ∧
      r = if rest.isEmpty then s else .app s rest := by
  unfold beta? at reduced
  split at reduced
  · next p body a rest =>
    cases answer : body.substitute (.var p) a with
    | error f =>
      rw [answer] at reduced
      cases reduced
    | ok s =>
      rw [answer] at reduced
      cases reduced
      exact ⟨p, body, a, rest, s, rfl, rfl, answer, rfl⟩
  · cases reduced

end Application

section Simplification
variable {i : Nat} {c : Config} {a b e : Expr} {same : Expr → Expr → Prop} [DecidableRel same]

theorem within_exactValue? (self value : Expr) : Offers (Within i e) (exactValue? self value) := by
  unfold exactValue?
  split
  · exact .ite (fun _ => .some (.number _)) fun _ => .none
  · exact .none

theorem within_whenExact (r : Option Number) : Offers (Within i e) (whenExact r) := by
  unfold whenExact
  split
  · exact .ite (fun _ => .some (.number _)) fun _ => .none
  · exact .none

section Angles

/-- An expression that comes to `n` numbers at most and nests no more than `d` evaluations beside a power. -/
structure Small (n d : Nat) (r : Expr) : Prop where
  le : ∀ {k m : Nat} {count : Expr → Nat}, Additive k m count → count r ≤ k * n
  nested : ∀ j : Nat, r.nesting j ≤ j + d

theorem small_number (z : Number) {n d : Nat} (one : 1 ≤ n) : Small n d (.num z) where
  le additive := by
    rw [additive.num]
    exact Nat.le_mul_of_pos_right _ one
  nested _ := Nat.zero_le _

theorem small_rootOver (radicand denominator : Nat) : Small 5 1 (rootOver radicand denominator) where
  le additive := by
    unfold rootOver
    dsimp only
    split <;> simp only [sqrt, half, additive.binary, additive.num] <;> omega
  nested _ := by
    unfold rootOver
    dsimp only
    split <;> simp only [sqrt, half, nesting_binary, nesting_num] <;> split <;> simp

theorem small_sineTable? (n : Nat) : Offers (Small 5 1) (sineTable? n) := by
  unfold sineTable?
  split <;> first
    | exact .some (small_number _ (by omega))
    | exact .some (small_rootOver _ _)
    | exact .none

theorem small_tangentTable? (n : Nat) : Offers (Small 5 1) (tangentTable? n) := by
  unfold tangentTable?
  split <;> first
    | exact .some (small_number _ (by omega))
    | exact .some (small_rootOver _ _)
    | exact .none

theorem small_oppositeValue (small : Small 5 1 a) : Small 7 1 (oppositeValue a) := by
  unfold oppositeValue
  split
  · exact small_number _ (by omega)
  · refine ⟨fun additive => ?_, fun j => by simpa [minusOne] using small.nested j⟩
    have := small.le additive
    simp only [additive.binary, minusOne, additive.num]
    omega

theorem Small.weaken {n n' d d' : Nat} (small : Small n d a) (le : n ≤ n') (le' : d ≤ d') : Small n' d' a where
  le additive := (small.le additive).trans (Nat.mul_le_mul_left _ le)
  nested j := (small.nested j).trans (Nat.add_le_add_left le' _)

theorem small_shiftedSine? (shift : Int) : Offers (Small 7 1) (shiftedSine? a shift) := by
  unfold shiftedSine?
  intro e found
  obtain ⟨n, -, rest⟩ := Option.bind_eq_some_iff.mp found
  dsimp only at rest
  obtain ⟨value, entry, same⟩ := Option.bind_eq_some_iff.mp rest
  cases same
  have known := small_sineTable? _ value entry
  split
  · exact small_oppositeValue known
  · exact known.weaken (by omega) le_rfl

theorem small_tangentAt? (n : Nat) : Offers (Small 7 1) (tangentAt? n) := by
  unfold tangentAt?
  refine .ite (fun _ => .none) fun _ => .ite (fun _ => ?_) fun _ => ?_
  · exact .map (small_tangentTable? _) fun _ known => small_oppositeValue known
  · exact fun e found => (small_tangentTable? n e found).weaken (by omega) le_rfl

theorem small_reciprocal? (small : Small 7 1 a) : Offers (Small 9 2) (reciprocal? a) := by
  unfold reciprocal?
  split
  · intro e found
    obtain ⟨q, -, rest⟩ := Option.bind_eq_some_iff.mp found
    split at rest
    · cases rest
    · cases rest
      exact small_number _ (by omega)
  · refine .some ⟨fun additive => ?_, fun j => ?_⟩
    · have := small.le additive
      simp only [additive.binary, additive.whole]
      omega
    · simpa [OfNat.ofNat] using small.nested j

/-- An exact value of a circular function weighs no more than the function. -/
theorem within_exactCircular? (f : Circular) :
    Offers (Within i (.unary (.circular f) a)) (exactCircular? f a) := by
  have small {n d : Nat} {r : Option Expr} (offered : Offers (Small n d) r) (few : n ≤ 10) (low : d ≤ 2) :
      Offers (Within i (.unary (.circular f) a)) r := fun e found => by
    have known := (offered e found).weaken few low
    refine ⟨fun additive => ?_, fun _ => (known.nested _).trans ?_⟩
    · have := known.le additive
      simp only [additive.unary, Head.weight]
      omega
    · rw [nesting_unary]
      exact le_max_left _ _
  have reciprocal {r : Option Expr} (offered : Offers (Small 7 1) r) :
      Offers (Small 9 2) (r.bind Expr.reciprocal?) := by
    intro e found
    obtain ⟨value, entry, rest⟩ := Option.bind_eq_some_iff.mp found
    exact small_reciprocal? (offered value entry) e rest
  have tangent {r : Option Nat} {at_ : Nat → Nat} :
      Offers (Small 7 1) (r.bind fun n => Expr.tangentAt? (at_ n)) := by
    intro e found
    obtain ⟨n, -, rest⟩ := Option.bind_eq_some_iff.mp found
    exact small_tangentAt? _ e rest
  unfold exactCircular?
  split
  · exact small (small_shiftedSine? 0) (by omega) (by omega)
  · exact small (small_shiftedSine? 6) (by omega) (by omega)
  · exact small tangent (by omega) (by omega)
  · exact small tangent (by omega) (by omega)
  · exact small (reciprocal (small_shiftedSine? 6)) (by omega) le_rfl
  · exact small (reciprocal (small_shiftedSine? 0)) (by omega) le_rfl
  · exact .none

end Angles

theorem within_simplifyUnary? (op : UnaryOp) :
    Returns (simplifyUnary? c op a) (Offers (Within i (.unary op a))) := by
  unfold simplifyUnary?
  split
  case h_1 => exact .pure (.some (.truth _))
  case h_2 | h_3 => exact .pure .none
  case h_4 => exact .bind .trivial fun r _ => .pure (within_whenExact r)
  case h_5 | h_6 => exact .pure (.some .operand)
  case h_7 m x _ =>
    refine .pure (.ite (fun _ => .some ⟨fun additive => ?_, fun _ => by simp⟩) fun _ => .none)
    simp only [additive.unary, additive.binary]
    omega
  case h_8 => exact .pure (.ite (fun _ => .some (.trans .operand .operand)) fun _ => within_exactCircular? _)
  case h_9 => exact .pure (within_exactCircular? _)
  case h_10 => exact .pure .none

/-- The opposite of an operand comes to two more numbers at most. -/
theorem negate_bound : Returns (negate c a) fun r =>
    (∀ {k m : Nat} {count : Expr → Nat}, Additive k m count → count r ≤ k + (k + count a)) ∧
      ∀ j, r.nesting j ≤ a.nesting j := by
  unfold negate
  split
  · refine .bind .trivial fun z _ => .pure ⟨fun additive => ?_, fun _ => Nat.zero_le _⟩
    simp only [additive.num]
    omega
  · refine .pure ⟨fun additive => ?_, fun _ => by simp [minusOne]⟩
    simp only [additive.binary, minusOne, additive.num, le_refl]

theorem within_simplifyIdentity? (evaluate : Expr → Computation Expr) (op : BinaryOp) :
    Returns (Variant.simplifyIdentity? same c evaluate op a b) (Offers (Within 1 (.binary op a b))) := by
  have nothing : Returns (pure none) (Offers (Within 1 (.binary op a b))) := .pure .none
  have number {n : Nat} : Returns (pure (some (OfNat.ofNat n : Expr))) (Offers (Within 1 (.binary op a b))) :=
    .pure (.some (.number _))
  have first : Returns (pure (some a)) (Offers (Within 1 (.binary op a b))) := .pure (.some .left)
  have second : Returns (pure (some b)) (Offers (Within 1 (.binary op a b))) := .pure (.some .right)
  have opposite_left : Returns (do return some (← negate c a)) (Offers (Within 1 (.binary op a b))) := by
    refine .bind negate_bound fun r bound => .pure (.some ⟨fun additive => ?_, fun _ => ?_⟩)
    · have := bound.1 additive
      have := additive.least b
      simp only [additive.binary]
      omega
    · exact (bound.2 _).trans (nesting_part (by simp [children]))
  have opposite_right : Returns (do return some (← negate c b)) (Offers (Within 1 (.binary op a b))) := by
    refine .bind negate_bound fun r bound => .pure (.some ⟨fun additive => ?_, fun _ => ?_⟩)
    · have := bound.1 additive
      have := additive.least a
      simp only [additive.binary]
      omega
    · exact (bound.2 _).trans (nesting_part (by simp [children]))
  have guarded {m : Computation Bool} {yes no : Computation (Option Expr)}
      (taken : Returns yes (Offers (Within 1 (.binary op a b))))
      (left : Returns no (Offers (Within 1 (.binary op a b)))) :
      Returns (do if ← m then yes else no) (Offers (Within 1 (.binary op a b))) :=
    .bind .trivial fun _ _ => Judgment.returns.ite (fun _ => taken) fun _ => left
  unfold Variant.simplifyIdentity?
  cases op <;> dsimp only
  case sum => exact .pure (.ite (fun _ => .some .right) fun _ => .ite (fun _ => .some .left) fun _ => .none)
  case minus =>
    exact Judgment.returns.ite (fun _ => first) fun _ =>
      Judgment.returns.ite (fun _ => opposite_right) fun _ => nothing
  case mul =>
    have square : Offers (Within 1 (.binary .mul a b)) (if same a b then some (.binary .pow a 2) else none) := by
      refine .ite (fun _ => .some ⟨fun additive => ?_, fun _ => ?_⟩) fun _ => .none
      · have := additive.least b
        simp only [additive.binary, additive.whole]
        omega
      · simp [isNatural_whole 2, nesting_whole 2]
    refine Judgment.returns.ite (fun _ => number) fun _ => Judgment.returns.ite (fun _ => second) fun _ =>
      Judgment.returns.ite (fun _ => first) fun _ => ?_
    split
    · refine Judgment.returns.ite (fun _ => .pure (.some (.trans .right .right))) fun _ => .pure square
    · exact .pure square
  case div =>
    have one : Returns (if same a b then do
          if ← provablyNonzero c evaluate b then return some 1 else return none
        else return none) (Offers (Within 1 (.binary .div a b))) :=
      Judgment.returns.ite (fun _ => guarded number nothing) fun _ => nothing
    refine Judgment.returns.ite (fun _ => first) fun _ =>
      Judgment.returns.ite (fun _ => opposite_left) fun _ => ?_
    exact Judgment.returns.ite (fun _ => guarded number one) fun _ => one
  case pow =>
    have inverse (reciprocal : b.isMinusOne = true) : Within 1 (.binary .pow a b) (.binary .div 1 a) := by
      obtain rfl : b = minusOne := of_decide_eq_true reciprocal
      refine ⟨fun additive => ?_, fun least => ?_⟩
      · simp only [additive.binary, additive.whole, minusOne, additive.num]
        omega
      · have symbolic : isNatural minusOne = false := rfl
        simp [nesting_whole 1, symbolic]
        omega
    refine Judgment.returns.ite (fun _ => number) fun _ => Judgment.returns.ite (fun _ => first) fun _ => ?_
    refine Judgment.returns.ite (fun reciprocal => .pure (.some (inverse reciprocal))) fun _ => ?_
    exact Judgment.returns.ite (fun _ => guarded number nothing) fun _ => nothing
  case log =>
    exact Judgment.returns.ite (fun _ => number) fun _ =>
      Judgment.returns.ite (fun _ => guarded number nothing) fun _ => nothing
  all_goals exact nothing

theorem within_simplifyBinary? (evaluate : Expr → Computation Expr) (op : BinaryOp) :
    Returns (Variant.simplifyBinary? same c evaluate op a b) (Offers (Within 1 (.binary op a b))) := by
  have truths {m : Computation (Option Bool)} :
      Returns (do return (← m).map .bool) (Offers (Within 1 (.binary op a b))) :=
    .bind .trivial fun r _ => .pure (within_truths r)
  unfold Variant.simplifyBinary?
  refine Judgment.returns.ite (fun _ => .pure (within_truths _)) fun _ =>
    Judgment.returns.ite (fun plain => ?_) fun _ => within_simplifyIdentity? evaluate op
  unfold simplifyBinary?
  split
  case h_5 => exact .pure (within_truths _)
  case h_6 | h_7 => exact truths
  case h_8 =>
    split
    · exact Judgment.returns.ite (fun _ => .pure .none) fun _ => .bind .trivial fun r _ => .pure (within_whenExact r)
    · rw [← simplifyIdentity?_trees]
      exact within_simplifyIdentity? _ _
  all_goals exact .pure (within_connectiveRule? _)

end Simplification

end Expr
end ComputerAlgebra

import ComputerAlgebra.Proofs.Limit.Refusal
import ComputerAlgebra.Proofs.Rational.Confined
import ComputerAlgebra.Proofs.Rational.Reduction

/-!
Evaluation and one pass of simplification of arithmetic under any codomain. What they put in place of an
expression is arithmetic on the same variables, is not deeper, nests no more evaluations, and attains every value
that the expression attains: the rules of an operator make little of its operands, and all operations that they
leave have values that the operator or one of the operands has. Nothing but a guard refuses them.
-/

namespace ComputerAlgebra.Expr

variable {c : Config} {ρ : Assignment} {S : String → Prop} {op : BinaryOp} {a b r : Expr} {v x y : Rat}

/-- What the rules of an operator put in its place: a number, an operand or the second factor of one, or an
operation on what the operands are. -/
inductive Offshoot (op : BinaryOp) (a b : Expr) : Expr → Prop
  | number {z : Number} (exact : z.ExactReal) : Offshoot op a b (.num z)
  | whole : Offshoot op a b (.binary op a b)
  | left : Offshoot op a b a
  | right : Offshoot op a b b
  | inner {m x : Expr} (product : b = .binary .mul m x) : Offshoot op a b x
  | square : Offshoot op a b (.binary .pow a 2)
  | opposite {part : Expr} (member : part ∈ [a, b]) : Offshoot op a b (.binary .mul minusOne part)
  | reciprocal (power : op = .pow) (inverse : b.isNatural = false) : Offshoot op a b (.binary .div 1 a)

namespace Offshoot
variable (offshoot : Offshoot op a b r)
include offshoot

theorem arithmetic (original : IsArithmeticOver S (.binary op a b)) : IsArithmeticOver S r := by
  have whole (n : Int) : IsArithmeticOver S (.num (.ofInt n)) := .number (.real rfl)
  obtain ⟨left, right⟩ := original.operands
  cases offshoot with
  | number exact => exact .number exact
  | whole => exact original
  | left => exact left
  | right => exact right
  | inner product =>
    subst product
    exact right.operands.2
  | square => exact .operation (by decide) left (whole 2) fun _ => ⟨2, rfl⟩
  | opposite member =>
    rcases List.mem_pair.mp member with rfl | rfl
    · exact .operation (by decide) (whole (-1)) left nofun
    · exact .operation (by decide) (whole (-1)) right nofun
  | reciprocal => exact .operation (by decide) (whole 1) left nofun

theorem depth : r.depth ≤ (Expr.binary op a b).depth := by
  have operation {op' : BinaryOp} {x y : Expr} (first : x.depth < (Expr.binary op a b).depth)
      (second : y.depth < (Expr.binary op a b).depth) : (Expr.binary op' x y).depth ≤ (Expr.binary op a b).depth := by
    rw [depth_binary]
    omega
  cases offshoot with
  | number => exact depth_pos (.binary op a b)
  | whole => exact le_refl _
  | left => exact depth_left.le
  | right => exact depth_right.le
  | inner product =>
    subst product
    exact (depth_right.trans depth_right).le
  | square => exact operation depth_left (depth_num 2)
  | opposite member =>
    rcases List.mem_pair.mp member with rfl | rfl
    · exact operation (depth_num _) depth_left
    · exact operation (depth_num _) depth_right
  | reciprocal => exact operation (depth_num 1) depth_left

theorem shallower : r.nesting 1 ≤ (Expr.binary op a b).nesting 1 := by
  have left : a.nesting 1 ≤ (Expr.binary op a b).nesting 1 := nesting_part (by simp [children])
  have right : b.nesting 1 ≤ (Expr.binary op a b).nesting 1 := nesting_part (by simp [children])
  cases offshoot with
  | number => exact Nat.zero_le _
  | whole => exact le_rfl
  | left => exact left
  | right => exact right
  | inner product =>
    subst product
    exact (nesting_part (by simp [children])).trans right
  | square =>
    refine le_trans ?_ left
    simp [isNatural_whole 2, nesting_whole 2]
  | opposite member =>
    refine le_trans ?_ (nesting_part member)
    simp [minusOne]
  | reciprocal power inverse => simp [power, inverse, nesting_whole 1]

/-- What has the value of the operator attains it when the operands attain theirs. -/
theorem attains (left : Attains c ρ a x) (right : Attains c ρ b y) (value : valueAt? ρ r = some v)
    (inside : numberFits (.ofRat v) c.codomain = true) : Attains c ρ r v := by
  have same {e : Expr} {w : Rat} (attained : Attains c ρ e w) (value : valueAt? ρ e = some v) : Attains c ρ e v := by
    obtain rfl := Option.some.inj (attained.value.symm.trans value)
    exact attained
  cases offshoot with
  | number => exact attains_number value
  | whole => exact .operation left right value inside
  | left => exact same left value
  | right => exact same right value
  | inner product =>
    subst product
    obtain ⟨-, w, inner⟩ := right.operands
    exact same inner value
  | square => exact .operation left (.number 2) value inside
  | opposite member =>
    rcases List.mem_pair.mp member with rfl | rfl
    · exact .operation (.number (-1)) left value inside
    · exact .operation (.number (-1)) right value inside
  | reciprocal => exact .operation (.number 1) left value inside

end Offshoot

section Rules
variable {R : Fault → Prop} {Q : Expr → Prop} {evaluate : Expr → Computation Expr}

private theorem number_offshoot (n : Nat) : Offshoot op a b (OfNat.ofNat n : Expr) :=
  .number (z := .real (.rational n)) (.real rfl)

private theorem identityRule?_offshoot (asking : Asking (.permitted R) c evaluate Q) (asked : op = .div → Q b) :
    Permitted R (identityRule? c evaluate op a b) (Offers (Offshoot op a b)) := by
  unfold identityRule?
  split
  · refine .pure (.ite (fun _ => .some (number_offshoot 0)) fun _ => ?_)
    exact .ite (fun _ => .some .right) fun _ => .ite (fun _ => .some .left) fun _ => .none
  · split
    · exact .pure (.some .left)
    split
    · refine Permitted.bind (asking.provablyNonzero (asked rfl)) fun _ _ => .pure ?_
      exact .ite (fun _ => .some (number_offshoot 0)) fun _ => .none
    · exact .pure .none
  · refine .pure (.ite (fun _ => .some (number_offshoot 1)) fun _ => ?_)
    exact .ite (fun _ => .some .left) fun _ => .none
  · exact .pure .none

theorem negate_offshoot {part : Expr} (member : part ∈ [a, b]) (arithmetic : IsArithmeticOver S part) :
    Succeeds (negate c part) (Offshoot op a b) := by
  cases arithmetic with
  | number exact => exact exact.neg.bind fun _ exact => .pure (.number exact)
  | var | operation => exact .pure (.opposite member)

private theorem simplifyIdentity?_offshoot (asking : Asking (.permitted R) c (Expr.evaluate c) Q) (asked : Q b)
    (original : IsArithmeticOver S (.binary op a b)) :
    Permitted R (simplifyIdentity? c op a b) (Offers (Offshoot op a b)) := by
  obtain ⟨left, right⟩ := original.operands
  have opposite {part : Expr} (member : part ∈ [a, b]) (arithmetic : IsArithmeticOver S part) :
      Permitted R (do return some (← negate c part)) (Offers (Offshoot op a b)) :=
    (Permitted.of_succeeds (negate_offshoot member arithmetic)).bind fun _ offshoot => .pure (.some offshoot)
  have nonzero : Permitted R (nonzero c b) fun _ => True := asking.provablyNonzero asked
  rcases BinaryOp.arithmetic_cases original.known with rfl | rfl | rfl | rfl | rfl
  · exact .pure (.ite (fun _ => .some .right) fun _ => .ite (fun _ => .some .left) fun _ => .none)
  · simp only [simplifyIdentity?]
    split
    · exact .pure (.some .left)
    split
    · exact opposite (by simp) right
    · exact .pure .none
  · simp only [simplifyIdentity?]
    split
    · exact .pure (.some (number_offshoot 0))
    split
    · exact .pure (.some .right)
    split
    · exact .pure (.some .left)
    split
    · split
      · exact .pure (.some (.inner rfl))
      · exact .pure (.ite (fun _ => .some .square) fun _ => .none)
    · exact .pure (.ite (fun _ => .some .square) fun _ => .none)
  · have unit : Permitted R (do
        if a = b then
          if ← Expr.nonzero c b then return some 1
        return none) (Offers (Offshoot .div a b)) := by
      split
      · refine nonzero.bind fun _ _ => ?_
        split
        · exact .pure (.some (number_offshoot 1))
        · exact .pure .none
      · exact .pure .none
    simp only [simplifyIdentity?]
    split
    · exact .pure (.some .left)
    split
    · exact opposite (by simp) left
    split
    · refine nonzero.bind fun _ _ => ?_
      split
      · exact .pure (.some (number_offshoot 0))
      · exact unit
    · exact unit
  · simp only [simplifyIdentity?]
    split
    · exact .pure (.some (number_offshoot 1))
    split
    · exact .pure (.some .left)
    split
    · next inverse =>
      rw [isMinusOne_iff] at inverse
      exact .pure (.some (.reciprocal rfl (by rw [inverse]; rfl)))
    split
    · refine Permitted.bind (asking.provablyPositive asked) fun _ _ => ?_
      split
      · exact .pure (.some (number_offshoot 0))
      · exact .pure .none
    · exact .pure .none

variable (precise : c.precisionFault? = none)
include precise

private theorem folded_offshoot {x y : Number} (original : IsArithmeticOver S (.binary op (.num x) (.num y))) :
    Succeeds (op.compute? c x y) fun r => ∃ z : Number, r = some z ∧ z.ExactReal := by
  cases original with
  | operation known left right exponent =>
  cases left with
  | number left =>
  cases right with
  | number right =>
    exact compute?_exactReal precise known left right fun power => (exponent power).imp fun _ => Expr.num.inj

theorem binaryRule?_offshoot (asking : Asking (.permitted R) c evaluate Q) (asked : op = .div → Q b)
    (original : IsArithmeticOver S (.binary op a b)) :
    Permitted R (binaryRule? c evaluate op a b) (Offers (Offshoot op a b)) := by
  have numbers (x y : Number) (first : a = .num x) (second : b = .num y) :
      Permitted R (do return (← op.compute? c x y).map Expr.num) (Offers (Offshoot op a b)) := by
    subst first second
    refine (Permitted.of_succeeds (folded_offshoot precise original)).bind ?_
    rintro _ ⟨_, rfl, exact⟩
    exact .pure (.some (.number exact))
  have identity := identityRule?_offshoot (a := a) asking asked
  rcases BinaryOp.arithmetic_cases original.known with rfl | rfl | rfl | rfl | rfl
  all_goals
    simp only [binaryRule?]
    split
    · exact numbers _ _ rfl rfl
    · exact identity

theorem simplifyBinary?_offshoot (asking : Asking (.permitted R) c (Expr.evaluate c) Q) (asked : Q b)
    (original : IsArithmeticOver S (.binary op a b)) :
    Permitted R (simplifyBinary? c op a b) (Offers (Offshoot op a b)) := by
  have numbers (x y : Number) (first : a = .num x) (second : b = .num y) :
      Permitted R (if op = .div && y.isZero then return none else return whenExact (← op.compute? c x y))
        (Offers (Offshoot op a b)) := by
    subst first second
    split
    · exact .pure .none
    refine (Permitted.of_succeeds (folded_offshoot precise original)).bind ?_
    rintro _ ⟨_, rfl, exact⟩
    exact .pure (.ite (fun _ => .some (.number exact)) fun _ => .none)
  have identity := simplifyIdentity?_offshoot asking asked original
  rcases BinaryOp.arithmetic_cases original.known with rfl | rfl | rfl | rfl | rfl
  all_goals
    simp only [simplifyBinary?]
    split
    · exact numbers _ _ rfl rfl
    · exact identity

end Rules

/-- The second expression may stand in place of the first: it is arithmetic on the same variables, not deeper and
nests no more evaluations, attains every value of the first, and is the first when that is a number. -/
structure Replaces (c : Config) (S : String → Prop) (e r : Expr) : Prop where
  arithmetic : IsArithmeticOver S r
  literal : ∀ z, e = .num z → r = .num z
  depth : r.depth ≤ e.depth
  shallower : r.nesting 1 ≤ e.nesting 1
  attains : ∀ {ρ v}, Attains c ρ e v → Attains c ρ r v

namespace Replaces
variable {e a' b' : Expr}

theorem refl (arithmetic : IsArithmeticOver S e) : Replaces c S e e :=
  ⟨arithmetic, fun _ same => same, le_rfl, le_rfl, id⟩

variable (left : Replaces c S a a') (right : Replaces c S b b')
include left right

theorem value (attained : Attains c ρ (.binary op a b) v) : valueAt? ρ (.binary op a' b') = some v := by
  cases attained with
  | operation first second value =>
    rw [← value]
    refine valueAt?_operands (value_arithmetic value) ?_ ?_ fun power => ?_
    · rw [first.value, (left.attains first).value]
    · rw [second.value, (right.attains second).value]
    · subst power
      obtain ⟨n, rfl, -⟩ := valueAt?_pow.mp value
      exact right.literal _ rfl

theorem binary (original : IsArithmeticOver S (.binary op a b)) : Replaces c S (.binary op a b) (.binary op a' b') where
  arithmetic := by
    cases original with
    | operation known _ _ exponent =>
    refine .operation known left.arithmetic right.arithmetic fun power => ?_
    obtain ⟨n, same⟩ := exponent power
    exact ⟨n, right.literal _ same⟩
  literal z same := Expr.noConfusion same
  depth := by
    have first := left.depth
    have second := right.depth
    rw [depth_binary, depth_binary]
    omega
  shallower := by
    have parts : List.Forall₂ (fun e r => r.nesting 1 ≤ e.nesting 1 ∧ ∀ z, e = .num z → r = .num z) [a, b] [a', b'] :=
      .cons ⟨left.shallower, left.literal⟩ (.cons ⟨right.shallower, right.literal⟩ .nil)
    exact nesting_rebuilt (e := .binary op a b) rfl parts
  attains attained := by
    obtain ⟨⟨x, first⟩, y, second⟩ := attained.operands
    exact .operation (left.attains first) (right.attains second) (left.value right attained) attained.inside

/-- An offshoot of what replaces the operands replaces the operation if it has its value. -/
theorem offshoot (original : IsArithmeticOver S (.binary op a b)) (offshoot : Offshoot op a' b' r)
    (same : ∀ ρ v, valueAt? ρ (.binary op a' b') = some v → valueAt? ρ r = some v) :
    Replaces c S (.binary op a b) r where
  arithmetic := offshoot.arithmetic (left.binary right original).arithmetic
  literal z same := Expr.noConfusion same
  depth := offshoot.depth.trans (left.binary right original).depth
  shallower := offshoot.shallower.trans (left.binary right original).shallower
  attains := by
    intro ρ v attained
    obtain ⟨⟨x, first⟩, y, second⟩ := attained.operands
    exact offshoot.attains (left.attains first) (right.attains second) (same ρ v (left.value right attained))
      attained.inside

end Replaces

section Confined
variable {outside : Expr}

theorem Attains.fits {d : Domain} (attained : Attains c ρ r v) (inside : numberFits (.ofRat v) d = true) :
    fits d r = true := by
  cases attained with
  | number => exact inside
  | var | operation => rfl

/-- Anything may stand in place of an operation that attains nothing, and NaN is not deep. -/
theorem Replaces.undefined (nowhere : ∀ ρ v, ¬ Attains c ρ (.binary op a b) v) :
    Replaces c S (.binary op a b) (.num .nan) where
  arithmetic := .number (.real rfl)
  literal _ same := Expr.noConfusion same
  depth := depth_pos (.binary op a b)
  shallower := Nat.zero_le _
  attains attained := absurd attained (nowhere _ _)

/-- An operation that has an undefined part or is outside of the codomain attains nothing. -/
theorem Replaces.confined (known : op ∈ BinaryOp.arithmetic) (replaces : Replaces c S (.binary op a b) r)
    (instead : (∀ ρ v, ¬ Attains c ρ (.binary op a b) v) → Replaces c S (.binary op a b) outside) :
    Replaces c S (.binary op a b) (confine c (.binary op a b) r outside) := by
  unfold confine
  split
  · next undefined =>
    refine .undefined fun ρ v attained => ?_
    rw [value_parts_not_nan (replaces.attains attained).value] at undefined
    cases undefined
  split
  · exact replaces
  · next apart =>
    refine instead fun ρ v attained => apart ?_
    rw [arithmetic_codomain known]
    exact (replaces.attains attained).fits attained.inside

end Confined

section Nodes
variable {a' b' : Expr} {R : Fault → Prop} {Q : Expr → Prop} {evaluate : Expr → Computation Expr}
  (original : IsArithmeticOver S (.binary op a b)) (left : Replaces c S a a') (right : Replaces c S b b')
include left right

private theorem bare_operands : ∀ part ∈ [a', b'], part.condition = none := by
  simpa using ⟨left.arithmetic.condition, right.arithmetic.condition⟩

include original

/-- An operation over what replaces its operands becomes what its rule offers, or stays. -/
private theorem rule_replaces {rule : Computation (Option Expr)}
    (offered : Permitted R rule (Offers (Offshoot op a' b')))
    (same : ∀ ρ v, valueAt? ρ (.binary op a' b') = some v → Keeps ρ v rule) :
    Permitted R rule fun r => Replaces c S (.binary op a b) (r.getD (.binary op a' b')) := by
  have values := Returns.all fun ρ => Returns.all fun v => Returns.all fun value => same ρ v value
  refine (offered.and values).mono ?_
  rintro (_ | e) ⟨offshoot, value⟩
  · exact left.binary right original
  · exact left.offshoot right original (offshoot e rfl) fun ρ v given => value ρ v given e rfl

variable (precise : c.precisionFault? = none)
include precise

theorem evaluateBinary_replaces (asking : Asking (.permitted R) c evaluate Q) (asked : op = .div → Q b') :
    Permitted R (evaluateNode c evaluate (.binary op a b) [a', b']) (Replaces c S (.binary op a b)) := by
  rw [evaluateNode_bare rfl (bare_operands left right)]
  have single : b'.isSet = false := by cases right.arithmetic <;> rfl
  have defined : Returns (condition? c (.binary op a b) [a', b']) fun d =>
      ∀ ρ v, valueAt? ρ (.binary op a' b') = some v → d ≠ some false :=
    Returns.all fun ρ => Returns.all fun v => Returns.all fun value => condition?_value value
  refine ((Permitted.of_succeeds (condition?_succeeds single)).and defined).bind fun d defined => ?_
  split
  · next undefined =>
    exact .pure (.undefined fun ρ v attained => defined.2 ρ v (left.value right attained) undefined)
  · have rule := binaryRule?_offshoot precise asking asked (left.binary right original).arithmetic
    refine (rule_replaces original left right rule fun ρ v => binaryRule?_value).bind fun r replaces => ?_
    exact .pure (.confined original.known replaces .undefined)

theorem simplifyBinary_replaces {again : Expr → Computation Expr} {value : Computation Expr}
    (asking : Asking (.permitted R) c (Expr.evaluate c) Q) (asked : Q b')
    (evaluated : Permitted R value (Replaces c S (.binary op a b))) :
    Permitted R (simplifyNode c again (.binary op a b) value [a', b']) (Replaces c S (.binary op a b)) := by
  have kept {r : Expr} (replaces : Replaces c S (.binary op a b) r) :
      Replaces c S (.binary op a b) (confine c (.binary op a b) r (.binary op a b)) :=
    .confined original.known replaces fun _ => .refl original
  simp only [simplifyNode]
  refine evaluated.bind fun w replaces => ?_
  split
  · next exact same =>
    rw [exactValue?_eq same]
    exact .pure (kept replaces)
  · have rule := simplifyBinary?_offshoot precise asking asked (left.binary right original).arithmetic
    rw [liftConditions_bare (bare_operands left right), bind_assoc]
    refine (rule_replaces original left right rule fun ρ v => simplifyBinary?_value).bind fun r replaces => ?_
    exact .pure (kept replaces)

end Nodes

section Passes
variable {shallow : Nat → Prop} {nested : Prop} {fuel : Nat} {e : Expr} {parts : List Expr}
  {evaluate again : Expr → Computation Expr}

theorem arithmetic_sized : Sized (IsArithmeticOver S) depth where
  parts arithmetic := arithmetic.part _
  smaller member := (depth_child member).le
  deep _ := le_rfl

/-- What replaces an expression is ready where that is. -/
theorem Replaces.ready (replaces : Replaces c S e r)
    (ready : Ready (IsArithmeticOver S) Expr.depth shallow nested fuel e) :
    Ready (IsArithmeticOver S) Expr.depth shallow nested fuel r :=
  ready.next replaces.arithmetic replaces.depth replaces.shallower

variable (precise : c.precisionFault? = none)
include precise

theorem evaluateNode_replaces
    (deeper : ∀ e, Ready (IsArithmeticOver S) depth shallow nested fuel e →
      Permitted (Exceeds c shallow nested) (evaluate e) fun _ => True)
    (ready : Ready (IsArithmeticOver S) depth shallow nested (fuel + 1) e)
    (related : List.Forall₂ (Replaces c S) e.children parts) :
    Permitted (Exceeds c shallow nested) (evaluateNode c evaluate e parts) (Replaces c S e) := by
  cases e with
  | num z => exact .pure (.refl ready.kind)
  | var x =>
    cases ready.kind with
    | var plain member =>
    simp only [evaluateNode, plain, Bool.false_eq_true, if_false]
    exact .pure (.refl (.var plain member))
  | binary op a b =>
    obtain ⟨a', rest, left, others, rfl⟩ := List.forall₂_cons_left_iff.mp related
    obtain ⟨b', rest, right, none_left, rfl⟩ := List.forall₂_cons_left_iff.mp others
    obtain rfl := List.forall₂_nil_left_iff.mp none_left
    have asked := ((left.binary right ready.kind).ready ready).asked arithmetic_sized
    refine evaluateBinary_replaces ready.kind left right precise (Ready.asking arithmetic_sized deeper) ?_
    rintro rfl
    exact asked
  | _ => cases ready.kind

/-- What arithmetic evaluates to may stand in its place. -/
theorem evaluateWithin_replaces (fuel : Nat) : ∀ {e : Expr},
    Ready (IsArithmeticOver S) depth shallow nested fuel e →
    Permitted (Exceeds c shallow nested) (evaluateWithin c fuel e) (Replaces c S e) := by
  induction fuel with
  | zero => exact fun ready => .throw (.endless (ready.enough (Nat.zero_le _)))
  | succ fuel ih =>
    exact fun {e} => foldM_holds (.permitted _) (fun ready _ member => ready.part arithmetic_sized member)
      (evaluateNode_replaces precise fun e ready => (ih ready).mono fun _ _ => trivial)

theorem simplifyNode_replaces {value : Computation Expr}
    (ready : Ready (IsArithmeticOver S) depth shallow nested allowance e)
    (evaluated : Permitted (Exceeds c shallow nested) value (Replaces c S e))
    (related : List.Forall₂ (Replaces c S) e.children parts) :
    Permitted (Exceeds c shallow nested) (simplifyNode c again e value parts) (Replaces c S e) := by
  cases e with
  | num z => exact .pure (.refl ready.kind)
  | var x => exact .pure (.refl ready.kind)
  | binary op a b =>
    obtain ⟨a', rest, left, others, rfl⟩ := List.forall₂_cons_left_iff.mp related
    obtain ⟨b', rest, right, none_left, rfl⟩ := List.forall₂_cons_left_iff.mp others
    obtain rfl := List.forall₂_nil_left_iff.mp none_left
    have deeper (e : Expr) (ready : Ready (IsArithmeticOver S) depth shallow nested allowance e) :
        Permitted (Exceeds c shallow nested) (evaluate c e) fun _ => True :=
      (evaluateWithin_replaces precise allowance ready).mono fun _ _ => trivial
    have operand := ready.part arithmetic_sized (show b ∈ (Expr.binary op a b).children by simp [children])
    exact simplifyBinary_replaces ready.kind left right precise (Ready.asking arithmetic_sized deeper)
      (right.ready operand) evaluated
  | _ => cases ready.kind

/-- What one pass of simplification makes of arithmetic may stand in its place. -/
theorem simplifyWithin_replaces (fuel : Nat)
    (ready : Ready (IsArithmeticOver S) depth shallow nested allowance e) :
    Permitted (Exceeds c shallow nested) (simplifyWithin c (fuel + 1) e) (Replaces c S e) := by
  rw [simplifyWithin_foldM]
  refine foldM_holds (.permitted _) (fun ready _ member => ready.part arithmetic_sized member)
    (fun ready related => ?_) ready
  have more : Ready (IsArithmeticOver S) depth shallow nested (allowance + 1) _ :=
    ⟨ready.kind, ready.small, fun few => ready.enough (Nat.le_of_succ_le few)⟩
  exact simplifyNode_replaces precise ready (evaluateWithin_replaces precise _ more) related

end Passes
end ComputerAlgebra.Expr

import ComputerAlgebra.Proofs.Evaluation.Basic
import ComputerAlgebra.Proofs.Expr.Assignment
import ComputerAlgebra.Proofs.Expr.Measure
import ComputerAlgebra.Proofs.Simplification.Pass
import ComputerAlgebra.Simplification.Basic
import ComputerAlgebra.Simplification.Pass

/-!
Statements of propositional logic: truth values and variables under negation and the connectives.
Under an assignment each has the truth value of its table. A statement may stand for another one when
it has the same truth value under every assignment, has no other variables and is not deeper; the
rules of the connectives give statements that may stand for the node.
-/

namespace ComputerAlgebra

def BinaryOp.connectives : List BinaryOp := [.and, .or, .xor, .implies, .equals]

theorem BinaryOp.connectives_cases {op : BinaryOp} (known : op ∈ BinaryOp.connectives) :
    op = .and ∨ op = .or ∨ op = .xor ∨ op = .implies ∨ op = .equals := by
  simpa [BinaryOp.connectives] using known

def BinaryOp.table : BinaryOp → Bool → Bool → Bool
  | .and, x, y => x && y
  | .or, x, y => x || y
  | .xor, x, y => x ^^ y
  | .implies, x, y => !x || y
  | .equals, x, y => x == y
  | _, _, _ => false

namespace Expr

inductive IsPropositional : Expr → Prop
  | bool (b : Bool) : IsPropositional (.bool b)
  | var {x : String} (plain : isConstantName x = false) : IsPropositional (.var x)
  | not {a : Expr} (inner : IsPropositional a) : IsPropositional (.unary .not a)
  | connective {op : BinaryOp} {a b : Expr} (known : op ∈ BinaryOp.connectives)
    (left : IsPropositional a) (right : IsPropositional b) : IsPropositional (.binary op a b)

def truth (σ : String → Bool) : Expr → Bool
  | .bool b => b
  | .var x => σ x
  | .unary .not a => !truth σ a
  | .binary op a b => op.table (truth σ a) (truth σ b)
  | _ => false

namespace IsPropositional

variable {e : Expr}

theorem condition (propositional : IsPropositional e) : e.condition = none := by
  cases propositional <;> rfl

theorem regular (propositional : IsPropositional e) : e.isNaN = false := by
  cases propositional <;> rfl

theorem unvalued (propositional : IsPropositional e) (self : Expr) : exactValue? self e = none := by
  cases propositional <;> rfl

theorem children {part : Expr} (propositional : IsPropositional e) (member : part ∈ e.children) :
    IsPropositional part := by
  cases propositional with
  | bool | var => cases member
  | not inner =>
    obtain rfl := List.mem_singleton.mp member
    exact inner
  | connective known left right =>
    rcases List.mem_pair.mp member with rfl | rfl
    · exact left
    · exact right

theorem confine {c : Config} {self outside : Expr} (propositional : IsPropositional e)
    (statement : self.codomain c = .boolean) : Expr.confine c self e outside = e := by
  apply confine_eq
  · rw [List.any_eq_false]
    intro part member
    simpa using (propositional.children member).regular
  · rw [statement]
    cases propositional <;> rfl

end IsPropositional

theorem connective_codomain {c : Config} {op : BinaryOp} {a b : Expr}
    (known : op ∈ BinaryOp.connectives) : (Expr.binary op a b).codomain c = .boolean := by
  rcases BinaryOp.connectives_cases known with rfl | rfl | rfl | rfl | rfl <;> rfl

structure StandsFor (e r : Expr) : Prop where
  propositional : IsPropositional r
  truth : ∀ σ, truth σ r = truth σ e
  names : ∀ x ∈ r.names, x ∈ e.names
  depth : r.depth ≤ e.depth

namespace StandsFor

variable {e a b a' b' : Expr} {op : BinaryOp}

theorem refl (propositional : IsPropositional e) : StandsFor e e :=
  ⟨propositional, fun _ => rfl, fun _ named => named, le_refl _⟩

theorem trans {r s : Expr} (first : StandsFor e r) (second : StandsFor r s) : StandsFor e s where
  propositional := second.propositional
  truth σ := (second.truth σ).trans (first.truth σ)
  names x named := first.names x (second.names x named)
  depth := second.depth.trans first.depth

theorem bool {b : Bool} (value : ∀ σ, Expr.truth σ e = b) : StandsFor e (.bool b) where
  propositional := .bool b
  truth σ := (value σ).symm
  names x named := by simp [Expr.names, fold] at named
  depth := depth_pos e

theorem not (inner : StandsFor a a') : StandsFor (.unary .not a) (.unary .not a') where
  propositional := .not inner.propositional
  truth σ := by simp only [Expr.truth, inner.truth]
  names x named := by
    rw [mem_names (by simp)] at named ⊢
    simpa [children] using inner.names x (by simpa [children] using named)
  depth := by
    have le := inner.depth
    simpa [depth_eq (.unary .not _), children] using le

theorem connective (known : op ∈ BinaryOp.connectives) (left : StandsFor a a')
    (right : StandsFor b b') : StandsFor (.binary op a b) (.binary op a' b') where
  propositional := .connective known left.propositional right.propositional
  truth σ := by simp only [Expr.truth, left.truth, right.truth]
  names x named := by
    obtain ⟨part, member, inside⟩ := (mem_names (by simp)).mp named
    rcases List.mem_pair.mp member with rfl | rfl
    · exact names_child (by simp [children]) (left.names x inside)
    · exact names_child (by simp [children]) (right.names x inside)
  depth := by
    have first := left.depth
    have second := right.depth
    rw [depth_binary, depth_binary]
    omega

theorem part {part : Expr} (whole : IsPropositional e) (member : part ∈ e.children)
    (same : ∀ σ, Expr.truth σ part = Expr.truth σ e) : StandsFor e part where
  propositional := whole.children member
  truth := same
  names _ named := names_child member named
  depth := (depth_child member).le

theorem negated {part : Expr} (whole : IsPropositional e) (member : part ∈ e.children)
    (same : ∀ σ, (!Expr.truth σ part) = Expr.truth σ e) : StandsFor e (.unary .not part) where
  propositional := .not (whole.children member)
  truth := same
  names x named := by
    rw [mem_names (by simp)] at named
    exact names_child member (by simpa [Expr.children] using named)
  depth := by
    have below := depth_child member
    simp only [depth_eq (.unary .not part), Expr.children, List.map_cons, List.map_nil,
      List.foldl_cons, List.foldl_nil]
    omega

end StandsFor

section Rules
variable {c : Config} {op : BinaryOp} {a b r : Expr}

theorem connectiveRule?_truth (found : connectiveRule? op a b = some r) (σ : String → Bool) :
    truth σ r = op.table (truth σ a) (truth σ b) := by
  unfold connectiveRule? at found
  split at found <;> cases found <;> simp [truth, BinaryOp.table]

theorem connectiveRule?_shape (found : connectiveRule? op a b = some r) :
    (∃ v, r = .bool v) ∨ ∃ part ∈ [a, b], r = part ∨ r = .unary .not part := by
  unfold connectiveRule? at found
  split at found <;> cases found <;> simp

theorem equalsValue?_truth (left : IsPropositional a) (right : IsPropositional b) :
    ∃ v, equalsValue? c a b = pure v ∧ ∀ w, v = some w → ∀ σ, (truth σ a == truth σ b) = w := by
  unfold equalsValue?
  split
  · next same => exact ⟨some true, rfl, by simp [same]⟩
  · next apart =>
    split
    · cases left
    · next x y =>
      refine ⟨some false, rfl, ?_⟩
      rintro _ ⟨rfl⟩ σ
      simpa [truth] using apart
    · exact ⟨none, rfl, by simp⟩

theorem exactEquals?_truth {v : Bool} (left : IsPropositional a) (found : exactEquals? a b = some v)
    (σ : String → Bool) : (truth σ a == truth σ b) = v := by
  unfold exactEquals? at found
  split at found
  · next same =>
    cases found
    simp [same]
  · next apart =>
    split at found
    · cases left
    · cases found
      simpa [truth] using apart
    · cases found

/-- What a rule gives for a connective between statements. -/
theorem connectiveRule?_stands (known : op ∈ BinaryOp.connectives) (left : IsPropositional a)
    (right : IsPropositional b) (found : connectiveRule? op a b = some r) :
    StandsFor (.binary op a b) r := by
  have same := connectiveRule?_truth found
  have whole : IsPropositional (.binary op a b) := .connective known left right
  rcases connectiveRule?_shape found with ⟨v, rfl⟩ | ⟨part, member, rfl | rfl⟩
  · exact .bool fun σ => (same σ).symm
  · exact .part whole member same
  · exact .negated whole member same

theorem binaryRule?_stands (evaluate : Expr → Computation Expr) (known : op ∈ BinaryOp.connectives)
    (left : IsPropositional a) (right : IsPropositional b) :
    ∃ r, binaryRule? c evaluate op a b = pure r ∧
      ∀ e, r = some e → StandsFor (.binary op a b) e := by
  obtain ⟨v, equal, same⟩ := equalsValue?_truth (c := c) left right
  rcases BinaryOp.connectives_cases known with rfl | rfl | rfl | rfl | rfl
  · exact ⟨_, rfl, fun e found => connectiveRule?_stands known left right found⟩
  · exact ⟨_, rfl, fun e found => connectiveRule?_stands known left right found⟩
  · exact ⟨_, rfl, fun e found => connectiveRule?_stands known left right found⟩
  · exact ⟨_, rfl, fun e found => connectiveRule?_stands known left right found⟩
  · refine ⟨v.map .bool, by simp [binaryRule?, equal], fun e found => ?_⟩
    obtain ⟨w, rfl, rfl⟩ := Option.map_eq_some_iff.mp found
    exact .bool (same w rfl)

theorem simplifyBinary?_stands (known : op ∈ BinaryOp.connectives) (left : IsPropositional a)
    (right : IsPropositional b) :
    ∃ r, simplifyBinary? c op a b = pure r ∧ ∀ e, r = some e → StandsFor (.binary op a b) e := by
  rcases BinaryOp.connectives_cases known with rfl | rfl | rfl | rfl | rfl
  · exact ⟨_, rfl, fun e found => connectiveRule?_stands known left right found⟩
  · exact ⟨_, rfl, fun e found => connectiveRule?_stands known left right found⟩
  · exact ⟨_, rfl, fun e found => connectiveRule?_stands known left right found⟩
  · exact ⟨_, rfl, fun e found => connectiveRule?_stands known left right found⟩
  · refine ⟨_, rfl, fun e found => ?_⟩
    obtain ⟨w, equal, rfl⟩ := Option.map_eq_some_iff.mp found
    exact .bool (exactEquals?_truth left equal)

theorem notRule_stands (rule : Expr → Computation (Option Expr)) (inner : IsPropositional a)
    (bool : ∀ v, rule (.bool v) = pure (some (.bool !v)))
    (other : ∀ e, IsPropositional e → (∀ v, e ≠ .bool v) → rule e = pure none) :
    ∃ r, rule a = pure r ∧ ∀ e, r = some e → StandsFor (.unary .not a) e := by
  by_cases known : ∃ v, a = .bool v
  · obtain ⟨v, rfl⟩ := known
    refine ⟨_, bool v, ?_⟩
    rintro _ ⟨rfl⟩
    exact .bool fun σ => rfl
  · exact ⟨none, other a inner fun v same => known ⟨v, same⟩, by simp⟩

end Rules

section Passes
variable {c : Config} {op dual : BinaryOp} {a b e : Expr}

/-- De Morgan's laws. -/
theorem deMorgan_stands {x y : Expr} (known : dual ∈ BinaryOp.connectives)
    (whole : IsPropositional (.binary op (.unary .not x) (.unary .not y)))
    (law : ∀ v w, (!dual.table v w) = op.table (!v) (!w)) :
    StandsFor (.binary op (.unary .not x) (.unary .not y)) (.unary .not (.binary dual x y)) := by
  have first : IsPropositional (.unary .not x) := whole.children (by simp [children])
  have second : IsPropositional (.unary .not y) := whole.children (by simp [children])
  have left : IsPropositional x := first.children (by simp [children])
  have right : IsPropositional y := second.children (by simp [children])
  refine ⟨.not (.connective known left right), fun σ => law _ _, fun z named => ?_, ?_⟩
  · rw [mem_names (by simp)] at named ⊢
    simpa [children, mem_names] using named
  · simp only [depth_eq (.unary .not _), depth_binary, children, List.map_cons, List.map_nil,
      List.foldl_cons, List.foldl_nil]
    omega

/-- Idempotence, complements and De Morgan's law for conjunction and disjunction. -/
theorem latticeNode_stands {zero : Bool} (whole : IsPropositional (.binary op a b))
    (known : dual ∈ BinaryOp.connectives) (idempotent : ∀ v, op.table v v = v)
    (complement : ∀ v, op.table v (!v) = zero ∧ op.table (!v) v = zero)
    (law : ∀ v w, (!dual.table v w) = op.table (!v) (!w)) :
    StandsFor (.binary op a b) (latticeNode op dual zero a b) := by
  unfold latticeNode
  split
  · next same =>
    subst same
    exact .part whole (by simp [children]) fun σ => (idempotent _).symm
  split
  · next opposite =>
    refine .bool fun σ => ?_
    rcases (Bool.or_eq_true _ _).mp opposite with second | first
    · obtain rfl := negated?_eq_some.mp (by simpa using second)
      exact (complement _).1
    · obtain rfl := negated?_eq_some.mp (by simpa using first)
      exact (complement _).2
  split
  · next x y first second =>
    obtain rfl := negated?_eq_some.mp first
    obtain rfl := negated?_eq_some.mp second
    exact deMorgan_stands known whole law
  · exact .refl whole

theorem doubleNegation_stands (whole : IsPropositional (.unary .not (.unary .not a))) :
    StandsFor (.unary .not (.unary .not a)) a := by
  have inner : IsPropositional (.unary .not a) := whole.children (by simp [children])
  have outer : (Expr.unary .not a) ∈ (Expr.unary .not (.unary .not a)).children := by simp [children]
  have nested : a ∈ (Expr.unary .not a).children := by simp [children]
  exact ⟨inner.children nested, fun σ => (Bool.not_not _).symm,
    fun x named => names_child outer (names_child nested named),
    (depth_child nested).le.trans (depth_child outer).le⟩

theorem booleanNode_stands (whole : IsPropositional e) : StandsFor e (booleanNode e) := by
  unfold booleanNode
  split
  · exact doubleNegation_stands whole
  · exact latticeNode_stands whole (by decide) (by decide) (by decide) (by decide)
  · exact latticeNode_stands whole (by decide) (by decide) (by decide) (by decide)
  · exact .refl whole

/-- A pass leaves a statement alone or applies a law of logic to it. -/
theorem atNode_stands (pass : Pass) (whole : IsPropositional e) :
    ∃ r, pass.atNode c e = pure r ∧ StandsFor e r := by
  have unchanged {m : Computation Expr} (same : m = pure e) : ∃ r, m = pure r ∧ StandsFor e r :=
    ⟨e, same, .refl whole⟩
  cases pass with
  | boolean => exact ⟨_, rfl, booleanNode_stands whole⟩
  | sort | common | power | circular =>
    apply unchanged
    cases whole with
    | bool | var | not => rfl
    | connective known =>
      rcases BinaryOp.connectives_cases known with rfl | rfl | rfl | rfl | rfl <;> rfl

end Passes
end Expr
end ComputerAlgebra

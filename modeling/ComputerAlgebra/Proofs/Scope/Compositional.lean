import ComputerAlgebra.Proofs.Evaluation.Basic
import ComputerAlgebra.Polynomial.Conversion
import ComputerAlgebra.Proofs.Expr.Walk

/-!
Properties that a node without a parameter of its own has exactly when its parts have them, and that
truth values and constants always have; of numbers those have it that are admitted. Whatever the rules of
evaluation make of the parts of such a node has every such property that the parts have. The results are
judged by any judgment of computations that arithmetic on admitted numbers obeys.
-/

namespace ComputerAlgebra.Expr

/-- What a judgment has to say of the functions of numbers, from admitted numbers to admitted ones. -/
structure Numeric (J : Judgment) (c : Config) (N : Number → Prop) : Prop where
  exact : ∀ {z : Number}, z.isExact = true → N z
  neg : ∀ {z}, N z → J.Holds (z.neg c) N
  opposite : ∀ {r}, N (.real r) → J.Holds r.neg fun s => N (.real s)
  add : ∀ {z w}, N z → N w → J.Holds (z.add c w) N
  sub : ∀ {z w}, N z → N w → J.Holds (z.sub c w) N
  mul : ∀ {z w}, N z → N w → J.Holds (z.mul c w) N
  div : ∀ {z w}, N z → N w → J.Holds (z.div c w) N
  pow : ∀ {z w}, N z → N w → J.Holds (z.pow c w) N
  log : ∀ {z w}, N z → N w → J.Holds (z.log c w) N
  factorial : ∀ {z}, N z → J.Holds (z.factorial c) N
  signum : ∀ {z}, N z → J.Holds (z.signum c) N
  abs : ∀ {z}, N z → J.Holds (z.abs c) N
  circular : ∀ f {z}, N z → J.Holds (Circular.compute c f z) N
  constant : ∀ {x}, isConstantName x = true → J.Holds (Number.constant c x) N
  holds : ∀ test {x y}, N (.real x) → N (.real y) → J.Holds (x.holds c test y) fun _ => True
  close : ∀ {z w}, N z → N w →
    J.Holds (Number.closeWithin c c.equalityBound z w) fun _ => True

def Offers {α : Type} (P : α → Prop) (r : Option α) : Prop := ∀ a, r = some a → P a

namespace Offers
variable {α β : Type} {P : α → Prop} {Q : β → Prop}

theorem none : Offers P none := fun _ impossible => by cases impossible

theorem some {a : α} (holds : P a) : Offers P (some a) := fun _ same => by
  cases same
  exact holds

theorem map {f : β → α} {r : Option β} (offered : Offers Q r) (holds : ∀ b, Q b → P (f b)) :
    Offers P (r.map f) := by
  cases r with
  | none => exact none
  | some b => exact some (holds b (offered b rfl))

theorem ite {p : Prop} [Decidable p] {r r' : Option α} (yes : p → Offers P r)
    (no : ¬p → Offers P r') : Offers P (if p then r else r') := by
  split
  · next holds => exact yes holds
  · next fails => exact no fails

end Offers

namespace Numeric

variable {J : Judgment} {c : Config} {N : Number → Prop} (numeric : Numeric J c N)
include numeric

theorem nan : N .nan := numeric.exact rfl

theorem unary {op : UnaryOp} {z : Number} (given : N z) : J.Holds (op.compute? c z) (Offers N) := by
  have value {m : Computation Number} (known : J.Holds m N) :
      J.Holds (do return some (← m)) (Offers N) := J.bind known fun _ holds => J.pure (.some holds)
  cases op with
  | factorial => exact value (numeric.factorial given)
  | signum => exact value (numeric.signum given)
  | abs => exact value (numeric.abs given)
  | circular f => exact value (numeric.circular f given)
  | not => exact J.pure .none
  | phi =>
    refine J.pure ?_
    unfold Number.phi?
    split
    · exact .some numeric.nan
    · refine .ite (fun _ => .some (numeric.exact rfl)) fun _ => ?_
      exact .map (Q := fun _ => True) (fun _ _ => trivial) fun _ _ => numeric.exact rfl

theorem binary {op : BinaryOp} {z w : Number} (left : N z) (right : N w) :
    J.Holds (op.compute? c z w) (Offers N) := by
  have value {m : Computation Number} (known : J.Holds m N) :
      J.Holds (do return some (← m)) (Offers N) := J.bind known fun _ holds => J.pure (.some holds)
  cases op with
  | sum => exact value (numeric.add left right)
  | minus => exact value (numeric.sub left right)
  | mul => exact value (numeric.mul left right)
  | div => exact value (numeric.div left right)
  | pow => exact value (numeric.pow left right)
  | log => exact value (numeric.log left right)
  | _ => exact J.pure .none

end Numeric

/-- A property of results that all numbers have is kept by whatever is done to numbers. -/
theorem Numeric.ofAll {c : Config} {N : Number → Prop} (all : ∀ z, N z) : Numeric .returns c N where
  exact _ := all _
  neg _ := Returns.trivial.mono fun _ _ => all _
  opposite _ := Returns.trivial.mono fun _ _ => all _
  add _ _ := Returns.trivial.mono fun _ _ => all _
  sub _ _ := Returns.trivial.mono fun _ _ => all _
  mul _ _ := Returns.trivial.mono fun _ _ => all _
  div _ _ := Returns.trivial.mono fun _ _ => all _
  pow _ _ := Returns.trivial.mono fun _ _ => all _
  log _ _ := Returns.trivial.mono fun _ _ => all _
  factorial _ := Returns.trivial.mono fun _ _ => all _
  signum _ := Returns.trivial.mono fun _ _ => all _
  abs _ := Returns.trivial.mono fun _ _ => all _
  circular _ _ _ := Returns.trivial.mono fun _ _ => all _
  constant _ := Returns.trivial.mono fun _ _ => all _
  holds _ _ _ _ _ := Returns.trivial
  close _ _ := Returns.trivial

/-- Expressions whose values may be asked for, with their parts. The guard on their depth is judged, and their
evaluation as far as it is looked at. -/
structure Asking (J : Judgment) (c : Config) (evaluate : Expr → Computation Expr) (Q : Expr → Prop) : Prop where
  parts : ∀ {e h}, e.head? = some h → Q e → ∀ part ∈ e.children, Q part
  checked : ∀ {e : Expr}, Q e → J.Holds (liftM (e.checkDepth c) : Computation Unit) fun _ => True
  evaluated : ∀ {e : Expr}, Q e → J.Holds (evaluate e) fun _ => True

namespace Asking
variable {J : Judgment} {c : Config} {evaluate : Expr → Computation Expr} {Q : Expr → Prop}
  (asking : Asking J c evaluate Q) {e : Expr}
include asking

theorem binary {op : BinaryOp} {a b : Expr} (asked : Q (.binary op a b)) : Q a ∧ Q b :=
  ⟨asking.parts rfl asked a (by simp [children]), asking.parts rfl asked b (by simp [children])⟩

theorem provablyNonzero (asked : Q e) : J.Holds (provablyNonzero c evaluate e) fun _ => True := by
  unfold Expr.provablyNonzero
  refine J.bind (asking.checked asked) fun _ _ => J.bind (asking.evaluated asked) fun _ _ => ?_
  split <;> exact J.pure trivial

theorem provablyPositive (asked : Q e) : J.Holds (provablyPositive c evaluate e) fun _ => True := by
  unfold Expr.provablyPositive
  refine J.bind (asking.checked asked) fun _ _ => J.bind (asking.evaluated asked) fun _ _ => ?_
  split <;> exact J.pure trivial

end Asking

/-- What evaluation asks for at a node: its divisor, or the predicates of its cases. -/
def Asked (Q : Expr → Prop) : Expr → Prop
  | .binary .div _ b => Q b
  | .piecewise cases => ∀ entry ∈ cases, Q entry.2
  | _ => True

theorem Asked.of_parts {Q : Expr → Prop} {e : Expr} (all : ∀ part ∈ e.children, Q part) : Asked Q e := by
  unfold Asked
  split
  · exact all _ (by simp [children])
  · exact fun entry member => all _ (List.mem_flatMap.mpr ⟨entry, member, by simp⟩)
  · exact trivial

/-- An invariant of the parts of a node, which stays while their conditions are taken out. -/
structure Carried (P : Expr → Prop) (e : Expr) (I : List Expr → Prop) : Prop where
  size : ∀ {parts}, I parts → parts.length = e.children.length
  all : ∀ {parts}, I parts → ∀ part ∈ parts, P part
  bare : ∀ {parts}, I parts → I (parts.map Expr.unconditioned)

/-- A property of expressions that goes by their parts wherever no parameter is bound. Operations have it
when their parts do, and other nodes of a sort that can have it. The float unit is read for the keys of
expressions that have the property, and for nothing else. -/
structure Compositional (J : Judgment) (c : Config) (P : Expr → Prop) : Prop where
  numeric : Numeric J c fun z => P (.num z)
  bool : ∀ b, P (.bool b)
  constant : ∀ {x}, isConstantName x = true → P (.var x)
  parts : ∀ {e h}, e.head? = some h → P e → ∀ part ∈ e.children, P part
  operation : ∀ {e h}, e.head? = some h → h.isOperation = true → (∀ part ∈ e.children, P part) → P e
  rebuilt : ∀ {e e' h}, e.head? = some h → e'.head? = some h → P e → (∀ part ∈ e'.children, P part) → P e'
  reading : ∀ {β : Type} {Q : β → Prop} {F : FloatUnit → Computation β},
    (∀ u v, (∀ e, P e → e.canonicalKey u = e.canonicalKey v) → F u = F v) →
    (∀ u, J.Holds (F u) Q) → J.Holds (get >>= F) Q

namespace Compositional

variable {J : Judgment} {c : Config} {P Q : Expr → Prop} {evaluate : Expr → Computation Expr} {a b : Expr}
  (asking : Asking J c evaluate Q) (comp : Compositional J c P)

section Nodes
include comp

theorem unary {op : UnaryOp} : P (.unary op a) ↔ P a := by
  constructor
  · exact fun holds => comp.parts rfl holds a (by simp [children])
  · exact fun holds => comp.operation rfl rfl (by simpa [children] using holds)

theorem binary {op : BinaryOp} : P (.binary op a b) ↔ P a ∧ P b := by
  constructor
  · exact fun holds => ⟨comp.parts rfl holds a (by simp [children]), comp.parts rfl holds b (by simp [children])⟩
  · exact fun holds => comp.operation rfl rfl (by simpa [children] using holds)

theorem application {f : Expr} {args : List Expr} (holds : P (.app f args)) : P f ∧ ∀ arg ∈ args, P arg := by
  simpa [children] using comp.parts rfl holds

theorem provided (holds : P (.provided a b)) : P a ∧ P b := by
  simpa [children] using comp.parts rfl holds

theorem interval (holds : P (.interval a b)) : P a ∧ P b := by
  simpa [children] using comp.parts rfl holds

theorem reprovided {e p : Expr} (some_ : P (.provided a b)) (first : P e) (second : P p) :
    P (.provided e p) :=
  comp.rebuilt (h := .provided) rfl rfl some_ (by simpa [children] using ⟨first, second⟩)

theorem repiecewise {cases kept : List (Expr × Expr)} (whole : P (.piecewise cases))
    (all : ∀ entry ∈ kept, P entry.1 ∧ P entry.2) : P (.piecewise kept) := by
  refine comp.rebuilt (h := .piecewise) rfl rfl whole fun part member => ?_
  obtain ⟨entry, inside, found⟩ := List.mem_flatMap.mp member
  rcases List.mem_pair.mp found with rfl | rfl
  · exact (all entry inside).1
  · exact (all entry inside).2

theorem reapplied {f g : Expr} {args args' : List Expr} (whole : P (.app f args))
    (all : ∀ part ∈ g :: args', P part) : P (.app g args') :=
  comp.rebuilt (h := .app) rfl rfl whole all

theorem withChildren {e : Expr} {h : Head} (headed : e.head? = some h) (whole : P e) {parts : List Expr}
    (size : parts.length = e.children.length) (all : ∀ part ∈ parts, P part) :
    P (e.withChildren parts) := by
  obtain ⟨still, same⟩ := withChildren_head headed size
  exact comp.rebuilt headed still whole (by rwa [same])

omit comp in
theorem ofNumber {r : Option Number} (known : Offers (fun z => P (.num z)) r) :
    Offers P (r.map .num) :=
  known.map fun _ holds => holds

theorem ofTruth (r : Option Bool) : Offers P (r.map .bool) :=
  .map (Q := fun _ => True) (fun _ _ => trivial) fun b _ => comp.bool b

omit comp in
theorem real? {r : RealNumber} (holds : P a) (found : a.real? = some r) : P (.num (.real r)) := by
  cases a with
  | num z =>
    cases z with
    | real s =>
      cases found
      exact holds
    | complex => cases found
  | _ => cases found

end Nodes

section Conditions
include comp

theorem exact {z : Number} (known : z.isExact = true) : P (.num z) :=
  comp.numeric.exact known

theorem nan : P (.num .nan) := comp.numeric.nan

theorem inInterval? {low high : Expr} (element : P a) (below : P low) (above : P high) :
    J.Holds (inInterval? c a low high) fun _ => True := by
  unfold Expr.inInterval?
  split
  · next x l h first second third =>
    have known := real? element first
    refine J.ite (fun _ => J.pure trivial) fun _ => ?_
    refine J.bind (comp.numeric.holds _ (real? below second) known) fun _ _ => ?_
    refine J.ite (fun _ => ?_) fun _ => J.pure trivial
    exact J.bind (comp.numeric.holds _ known (real? above third)) fun _ _ => J.pure trivial
  · exact J.pure trivial

theorem contains? (element : P b) (collection : P a) :
    J.Holds (contains? c a b) fun _ => True := by
  unfold Expr.contains?
  split
  · obtain ⟨below, above⟩ := comp.interval collection
    exact comp.inInterval? element below above
  · exact J.pure trivial

theorem condition? {self : Expr} {parts : List Expr} (all : ∀ part ∈ parts, P part) :
    J.Holds (condition? c self parts) fun _ => True := by
  unfold Expr.condition?
  split <;> try simp only [List.forall_mem_cons] at all
  · refine J.ite (fun _ => J.pure trivial) fun _ => J.ite (fun _ => ?_) fun _ => J.pure trivial
    exact J.bind (comp.contains? (comp.exact rfl) all.2.1) fun _ _ => J.pure trivial
  · exact J.pure trivial
  · split <;> exact J.pure trivial
  · exact J.pure trivial
  · exact J.pure trivial
  · split <;> exact J.pure trivial
  · exact J.pure trivial

end Conditions

section Rules
include comp

theorem connectiveRule? {op : BinaryOp} (left : P a) (right : P b) :
    Offers P (connectiveRule? op a b) := by
  unfold Expr.connectiveRule?
  split <;> first
    | exact .some (comp.bool _)
    | exact .some left
    | exact .some right
    | exact .some (comp.unary.mpr left)
    | exact .some (comp.unary.mpr right)
    | exact .none

theorem unaryRule? {op : UnaryOp} (holds : P a) : J.Holds (unaryRule? c op a) (Offers P) := by
  unfold Expr.unaryRule?
  split
  · exact J.pure (.some (comp.bool _))
  · exact J.bind (comp.numeric.unary holds) fun r known => J.pure (ofNumber known)
  · exact J.pure .none

theorem equalsValue? (left : P a) (right : P b) :
    J.Holds (equalsValue? c a b) fun _ => True := by
  unfold Expr.equalsValue?
  refine J.ite (fun _ => J.pure trivial) fun _ => ?_
  split
  · exact J.bind (comp.numeric.close left right) fun _ _ => J.pure trivial
  · exact J.pure trivial
  · exact J.pure trivial

theorem orderValue? {test : Comparison} (left : P a) (right : P b) :
    J.Holds (orderValue? c test a b) fun _ => True := by
  unfold Expr.orderValue?
  split
  · next x y first second =>
    refine J.bind (comp.numeric.holds _ (real? left first) (real? right second)) fun _ _ => ?_
    exact J.pure trivial
  · exact J.pure trivial

include asking in
theorem identityRule? {op : BinaryOp} (asked : op = .div → Q b) (left : P a) (right : P b) :
    J.Holds (identityRule? c evaluate op a b) (Offers P) := by
  have number {n : Nat} : P (OfNat.ofNat n : Expr) := comp.exact rfl
  unfold Expr.identityRule?
  split
  · refine J.pure ?_
    refine .ite (fun _ => .some number) fun _ => ?_
    exact .ite (fun _ => .some right) fun _ => .ite (fun _ => .some left) fun _ => .none
  · refine J.ite (fun _ => J.pure (.some left)) fun _ => J.ite (fun _ => ?_) fun _ => J.pure .none
    refine J.bind (asking.provablyNonzero (asked rfl)) fun nonzero _ => J.pure ?_
    exact .ite (fun _ => .some number) fun _ => .none
  · refine J.pure ?_
    exact .ite (fun _ => .some number) fun _ => .ite (fun _ => .some left) fun _ => .none
  · exact J.pure .none

include asking in
theorem binaryRule? {op : BinaryOp} (asked : op = .div → Q b) (left : P a) (right : P b) :
    J.Holds (binaryRule? c evaluate op a b) (Offers P) := by
  unfold Expr.binaryRule?
  split
  case h_5 =>
    exact J.bind (comp.equalsValue? left right) fun r _ => J.pure (comp.ofTruth r)
  case h_6 =>
    exact J.bind (comp.orderValue? left right) fun r _ => J.pure (comp.ofTruth r)
  case h_7 =>
    exact J.bind (comp.contains? left right) fun r _ => J.pure (comp.ofTruth r)
  case h_8 =>
    split
    · refine J.bind (comp.numeric.binary left right) fun r given => ?_
      exact J.pure (ofNumber given)
    · exact comp.identityRule? asking asked left right
  all_goals exact J.pure (comp.connectiveRule? left right)

theorem providedRule? (left : P a) (right : P b) : Offers P (providedRule? a b) := by
  unfold Expr.providedRule?
  split
  · split
    · exact .some left
    · exact .some (comp.nan)
  · have inner := comp.provided left
    exact .some (comp.reprovided left inner.1 (comp.binary.mpr ⟨inner.2, right⟩))
  · exact .none

theorem builtin? {name : String} {args : List Expr} (all : ∀ arg ∈ args, P arg) :
    Offers P (builtin? name args) := by
  have euler : P (.var "e") := comp.constant (by decide)
  unfold Expr.builtin?
  split <;> try simp only [List.forall_mem_cons] at all
  case h_13 => exact .some (comp.binary.mpr ⟨all.1, comp.exact rfl⟩)
  case h_14 | h_15 => exact .some (comp.binary.mpr ⟨euler, all.1⟩)
  case h_16 => exact .some (comp.binary.mpr ⟨all.1, all.2.1⟩)
  case h_21 => exact .none
  all_goals exact .some (comp.unary.mpr all.1)

end Rules

section Lifting
include comp

theorem unconditioned (holds : P a) : P a.unconditioned := by
  cases a with
  | provided e p => exact (comp.provided holds).1
  | _ => exact holds

theorem condition (holds : P a) : Offers P a.condition := by
  cases a with
  | provided e p => exact .some (comp.provided holds).2
  | _ => exact .none

theorem joined {op : BinaryOp} {ps : List Expr} (all : ∀ p ∈ ps, P p) :
    ∀ {p : Expr}, P p → P (ps.foldl (.binary op) p) := by
  induction ps with
  | nil => exact fun holds => holds
  | cons q ps ih =>
    intro p holds
    rw [List.forall_mem_cons] at all
    exact ih all.2 (comp.binary.mpr ⟨holds, all.1⟩)

/-- Taking the conditions out of a node without a parameter keeps a property that its rule keeps. -/
theorem liftConditions {settle : Expr → Computation (Option Expr)}
    {rule : List Expr → Computation (Option Expr)} {self : Expr} {h : Head} {I : List Expr → Prop}
    (headed : self.head? = some h) (itself : P self) (carried : Carried P self I)
    (settled : ∀ parts, I parts → J.Holds (settle (self.withChildren parts)) (Offers P))
    (ruled : ∀ parts, I parts → J.Holds (rule parts) (Offers P)) (fuel : Nat) {parts : List Expr}
    (invariant : I parts) : J.Holds (liftConditions settle rule self fuel parts) P := by
  refine liftConditions_holds J settled ruled (fun parts invariant => ?_) (fun _ => carried.bare)
    (fun parts invariant => ?_) fuel invariant
  · exact comp.withChildren headed itself (carried.size invariant) (carried.all invariant)
  intro p ps found inner holds
  have all := carried.all invariant
  have conditions : ∀ q ∈ p :: ps, P q := by
    rw [← found]
    intro q member
    obtain ⟨part, inside, conditioned⟩ := List.mem_filterMap.mp member
    exact comp.condition (all part inside) q conditioned
  obtain ⟨part, inside, conditioned⟩ := List.mem_filterMap.mp (found ▸ List.mem_cons_self)
  rw [List.forall_mem_cons] at conditions
  cases part with
  | provided => exact comp.reprovided (all _ inside) holds (comp.joined conditions.2 conditions.1)
  | _ => cases conditioned

omit comp in
theorem openCases {cases : List (Expr × Expr)}
    (known : ∀ entry ∈ cases, J.Holds (evaluate entry.2) fun _ => True) :
    (∀ entry ∈ cases, P entry.1 ∧ P entry.2) →
    J.Holds (openCases evaluate cases) fun r => ∀ entry ∈ r.1, P entry.1 ∧ P entry.2 := by
  induction cases with
  | nil => exact fun _ => J.pure (by simp)
  | cons entry rest ih =>
    intro all
    rw [List.forall_mem_cons] at known all
    obtain ⟨e, p⟩ := entry
    unfold Expr.openCases
    refine J.bind known.1 fun truth _ => ?_
    split
    · exact J.pure (by simpa using all.1)
    · exact ih known.2 all.2
    · refine J.bind (ih known.2 all.2) fun r kept => J.pure ?_
      exact List.forall_mem_cons.mpr ⟨all.1, kept⟩

omit comp in
theorem pairUp {parts : List Expr} (all : ∀ part ∈ parts, P part) :
    ∀ entry ∈ pairUp parts, P entry.1 ∧ P entry.2 := by
  induction parts using pairUp.induct with
  | case1 e p rest ih =>
    simp only [List.forall_mem_cons] at all
    rw [Expr.pairUp, List.forall_mem_cons]
    exact ⟨⟨all.1, all.2.1⟩, ih all.2.2⟩
  | case2 parts short =>
    rw [Expr.pairUp]
    · simp
    · exact short

theorem confine {self outside : Expr} (holds : P a) (instead : P outside) :
    P (confine c self a outside) := by
  unfold Expr.confine
  split
  · exact comp.nan
  split
  · exact holds
  · exact instead

theorem decideCases {given cases : List (Expr × Expr)}
    (known : ∀ entry ∈ cases, J.Holds (evaluate entry.2) fun _ => True) (whole : P (.piecewise given))
    (all : ∀ entry ∈ cases, P entry.1 ∧ P entry.2) : J.Holds (decideCases evaluate cases) P := by
  unfold Expr.decideCases
  refine J.bind (openCases known all) fun r kept => ?_
  split
  · exact J.pure (comp.nan)
  · exact J.pure (kept _ List.mem_cons_self).1
  · exact J.pure (comp.repiecewise whole kept)

end Lifting

end Compositional
end ComputerAlgebra.Expr

import ComputerAlgebra.Proofs.Simplification.Pass
import ComputerAlgebra.Proofs.Stable.Node

/-!
What evaluation returns is stable, where nothing stands in the way. A condition does: what is moved out of a
node is joined and not evaluated again, and neither is the node without it. An application that the test for
reduction without end has kept may be reduced where it stands now.
-/

namespace ComputerAlgebra

theorem Returns.run {α : Type} (m : Computation α) : Returns m fun a => ∃ u w, m u = .ok a w :=
  fun u _ w result => ⟨u, w, result⟩

namespace Expr

section Conditions
variable {c : Config}

theorem inInterval?_steady (element low high : Expr) :
    Uniform (fun _ => True) (inInterval? c element low high) := by
  unfold inInterval?
  split
  · split
    · exact Uniform.pure trivial
    refine Uniform.bind (RealNumber.holds_uniform c _ _) fun below _ => ?_
    split
    · exact Uniform.bind (RealNumber.holds_uniform c _ _) fun _ _ => Uniform.pure trivial
    · exact Uniform.pure trivial
  · exact Uniform.pure trivial

theorem contains?_steady (collection element : Expr) :
    Uniform (fun _ => True) (contains? c collection element) := by
  unfold contains?
  split
  · exact inInterval?_steady _ _ _
  · exact Uniform.pure trivial

theorem condition?_steady (self : Expr) (parts : List Expr) :
    Uniform (fun _ => True) (condition? c self parts) := by
  unfold condition?
  split
  · split
    · exact Uniform.pure trivial
    split
    · exact Uniform.bind (contains?_steady _ _) fun _ _ => Uniform.pure trivial
    · exact Uniform.pure trivial
  all_goals first
    | exact Uniform.pure trivial
    | (split <;> exact Uniform.pure trivial)

/-- The condition of a node is that of any node of its sort over the same parts. -/
theorem condition?_withChildren {self : Expr} {parts : List Expr} (size : parts.length = self.children.length) :
    condition? c (self.withChildren parts) parts = condition? c self parts := by
  cases self with
  | num | var | bool | piecewise => rfl
  | unary op =>
    obtain ⟨x, rfl⟩ := List.length_eq_one_iff.mp size
    cases op <;> rfl
  | binary op =>
    obtain ⟨x, y, rfl⟩ := List.length_eq_two.mp size
    cases op <;> rfl
  | provided | interval =>
    obtain ⟨x, y, rfl⟩ := List.length_eq_two.mp size
    rfl
  | lam =>
    obtain ⟨x, y, rfl⟩ := List.length_eq_two.mp size
    cases x <;> rfl
  | app =>
    cases parts with
    | nil => cases size
    | cons => rfl

end Conditions

def isOrdinary : Expr → Bool
  | .provided _ _ => false
  | .lam p _ => !isConstantName p
  | _ => true

def isReducible (n : Expr) : Bool :=
  match n with
  | .app f args =>
    match reduceOnce? n f args with
    | .ok none => false
    | _ => true
  | _ => false

/-- A stable node whose rule can evaluate what it evaluates once more. -/
def SettledNode (c : Config) (fuel : Nat) (n : Expr) : Prop :=
  StableNode c n ∧ ∀ part ∈ questioned n, Succeeds (evaluateWithin c fuel part) (· = part)

/-- The nodes of an expression of ordinary nodes are settled, those below which nothing can be reduced. -/
def Kept (c : Config) (fuel : Nat) (r : Expr) : Prop :=
  Throughout (isOrdinary · = true) r →
    Throughout (fun n => Throughout (isReducible · = false) n → SettledNode c fuel n) r

section Kept
variable {c : Config} {fuel : Nat}

theorem kept_leaf {r : Expr} (leaf : r.children = []) (stable : StableNode c r)
    (unasked : questioned r = []) : Kept c fuel r := by
  intro _
  rw [throughout_iff, leaf]
  exact ⟨fun _ => ⟨stable, by simp [unasked]⟩, by simp⟩

theorem kept_num (z : Number) : Kept c fuel (.num z) := kept_leaf rfl trivial rfl

theorem kept_bool (b : Bool) : Kept c fuel (.bool b) := kept_leaf rfl trivial rfl

theorem kept_var {x : String} (plain : isConstantName x = false) : Kept c fuel (.var x) :=
  kept_leaf rfl plain rfl

/-- What is put around a condition is no value yet. -/
theorem kept_provided (e p : Expr) : Kept c fuel (.provided e p) := by
  intro ordinary
  cases ordinary.root

/-- A node over kept parts is kept when it is settled as far as its parts are. -/
theorem kept_node {n : Expr} (parts : ∀ part ∈ n.children, Kept c fuel part)
    (node : isOrdinary n = true → Throughout (isReducible · = false) n →
      (∀ part ∈ n.children, Throughout (isOrdinary · = true) part) →
      (∀ part ∈ n.children, Throughout (SettledNode c fuel) part) → SettledNode c fuel n) :
    Kept c fuel n := by
  intro ordinary
  refine throughout_iff.mpr ⟨fun irreducible => ?_, fun part member => parts part member (ordinary.part member)⟩
  refine node ordinary.root irreducible (fun part member => ordinary.part member) fun part member m inside => ?_
  exact parts part member (ordinary.part member) m inside ((irreducible.part member).within inside)

theorem kept_confine {self r : Expr} (kept : r.children.any isNaN = false → Kept c fuel r) :
    Kept c fuel (confine c self r (.num .nan)) := by
  unfold confine
  split
  · exact kept_num _
  · next unspoilt =>
    split
    · exact kept (by simpa using unspoilt)
    · exact kept_num _

theorem settled_stable {e : Expr} (settled : Throughout (SettledNode c fuel) e) : Throughout (StableNode c) e :=
  settled.mono fun _ both => both.1

/-- With one more reduction allowed, what is settled is evaluated to itself. -/
theorem settled_succeeds {e : Expr} (settled : Throughout (SettledNode c fuel) e) :
    Succeeds (evaluateWithin c (fuel + 1) e) (· = e) :=
  foldM_stable Judgment.succeeds_admits (settled_stable settled) fun n inside part member =>
    (settled n inside).2 part member

theorem settled_returns {e : Expr} (settled : Throughout (SettledNode c fuel) e) (fuel' : Nat) :
    Returns (evaluateWithin c fuel' e) (· = e) :=
  evaluateWithin_stable Judgment.returns_admits ⟨Returns.throw⟩ fuel' (settled_stable settled)

/-- Where evaluation returns once, what is settled is always evaluated to itself. -/
theorem settled_again {e r : Expr} (settled : Throughout (SettledNode c fuel) e) {fuel' : Nat} {u w : FloatUnit}
    (run : evaluateWithin c fuel' e u = .ok r w) : Succeeds (evaluateWithin c fuel' e) (· = e) := by
  obtain rfl := settled_returns settled fuel' u r w run
  have steady : Uniform (· = r) (evaluateWithin c fuel' r) :=
    evaluateWithin_stable Judgment.uniform_admits ⟨Uniform.throw⟩ fuel' (settled_stable settled)
  exact steady.succeeds run

theorem Kept.deeper {r : Expr} (kept : Kept c fuel r) : Kept c (fuel + 1) r := by
  intro ordinary n inside irreducible
  obtain ⟨stable, answers⟩ := kept ordinary n inside irreducible
  refine ⟨stable, fun part member => settled_succeeds fun m inner => ?_⟩
  have below := nodes_part (questioned_part member) inner
  exact kept ordinary m (nodes_trans below inside) (irreducible.within below)

end Kept

end Expr
end ComputerAlgebra

import ComputerAlgebra.Proofs.Expr.Measure
import ComputerAlgebra.Proofs.Number.Complete
import ComputerAlgebra.Proofs.Scope.Compositional

/-!
Computations that come to a result unless a guard refuses them, for a tree that is too deep or for evaluations
that are nested too deep inside each other. Under settings that can be used the functions of numbers always come
to a result.
-/

namespace ComputerAlgebra

/-- The faults of the guards: a tree of a depth in question is deeper than the limit, or more evaluations are
nested than may be, where that is possible. -/
inductive Exceeds (c : Config) (shallow : Nat → Prop) (nested : Prop) : Fault → Prop
  | tooDeep {depth : Nat} (within : shallow depth) (deeper : c.isTooDeep depth = true) :
    Exceeds c shallow nested (.treeTooDeep depth c.maxTreeDepth.plainText)
  | endless (many : nested) : Exceeds c shallow nested .endlessReduction

theorem not_exceeds {c : Config} {shallow : Nat → Prop} {nested : Prop}
    (passes : ∀ d, shallow d → c.isTooDeep d = false) (few : ¬ nested) (f : Fault) : ¬ Exceeds c shallow nested f := by
  rintro (⟨within, deeper⟩ | ⟨many⟩)
  · rw [passes _ within] at deeper
    cases deeper
  · exact few many

variable {c : Config} {α β : Type} {R : Fault → Prop} {m : Computation α} {P : α → Prop} {Q : β → Prop}

/-- Whatever digits the float unit starts with, the computation has a result with the property, or one of the
faults that are allowed. -/
def Permitted (R : Fault → Prop) (m : Computation α) (P : α → Prop) : Prop :=
  ∀ u, (∃ a w, m u = .ok a w ∧ P a) ∨ ∃ f w, m u = .error f w ∧ R f

namespace Permitted

theorem of_succeeds (given : Succeeds m P) : Permitted R m P := fun u => .inl (given u)

theorem pure {a : α} (holds : P a) : Permitted R (pure a) P := of_succeeds (.pure holds)

theorem bind {f : α → Computation β} (first : Permitted R m P) (next : ∀ a, P a → Permitted R (f a) Q) :
    Permitted R (m >>= f) Q := by
  intro u
  rcases first u with ⟨a, v, computed, holds⟩ | ⟨f, w, failed, allowed⟩
  · rw [Computation.bind_ok computed]
    exact next a holds v
  · exact .inr ⟨f, w, Computation.bind_error failed, allowed⟩

theorem mono {P' : α → Prop} (given : Permitted R m P) (weaker : ∀ a, P a → P' a) : Permitted R m P' :=
  fun u => (given u).imp_left fun ⟨a, w, result, holds⟩ => ⟨a, w, result, weaker a holds⟩

theorem throw {f : Fault} (allowed : R f) : Permitted R (throw f : Computation α) P :=
  fun u => .inr ⟨f, u, rfl, allowed⟩

theorem returns (given : Permitted R m P) : Returns m P := by
  intro u a w result
  rcases given u with ⟨b, w', other, holds⟩ | ⟨f, w', failed, -⟩
  · rw [result] at other
    cases other
    exact holds
  · rw [result] at failed
    cases failed

/-- Where all results have a property, those that are permitted have it too. -/
theorem and {P' : α → Prop} (given : Permitted R m P) (returns : Returns m P') :
    Permitted R m fun a => P a ∧ P' a :=
  fun u => (given u).imp_left fun ⟨a, w, result, holds⟩ => ⟨a, w, result, holds, returns u a w result⟩

/-- Where all faults are allowed, nothing is asked but of results. -/
theorem of_returns (given : Returns m P) : Permitted (fun _ => True) m P := by
  intro u
  cases run : m u with
  | ok a w => exact .inl ⟨a, w, rfl, given u a w run⟩
  | error f w => exact .inr ⟨f, w, rfl, trivial⟩

theorem succeeds (given : Permitted R m P) (none : ∀ f, ¬ R f) : Succeeds m P :=
  fun u => (given u).resolve_right fun ⟨f, _, _, allowed⟩ => none f allowed

theorem weaken {R' : Fault → Prop} (given : Permitted R m P) (weaker : ∀ f, R f → R' f) : Permitted R' m P :=
  fun u => (given u).imp_right fun ⟨f, w, failed, allowed⟩ => ⟨f, w, failed, weaker f allowed⟩

theorem checkDepth {e : Expr}
    (allowed : c.isTooDeep e.depth = true → R (.treeTooDeep e.depth c.maxTreeDepth.plainText)) :
    Permitted R (liftM (e.checkDepth c) : Computation Unit) fun _ => True := by
  unfold Expr.checkDepth
  dsimp only
  split
  · next deeper => exact throw (allowed deeper)
  · exact of_succeeds (Succeeds.pure trivial)

end Permitted

def Judgment.permitted (R : Fault → Prop) : Judgment := ⟨Permitted R, .pure, .bind⟩

namespace Expr

/-- A kind of expressions that goes over to their parts, with a size that is no less than the depth. -/
structure Sized (kind : Expr → Prop) (size : Expr → Nat) : Prop where
  parts : ∀ {e part}, kind e → part ∈ e.children → kind part
  smaller : ∀ {e part : Expr}, part ∈ e.children → size part ≤ size e
  deep : ∀ e : Expr, e.depth ≤ size e

/-- An expression of a kind whose evaluation is refused for no other trees than those in question, if there are so
many steps left. -/
structure Ready (kind : Expr → Prop) (size : Expr → Nat) (shallow : Nat → Prop) (nested : Prop) (fuel : Nat)
    (e : Expr) : Prop where
  kind : kind e
  small : ∀ d ≤ size e, shallow d
  enough : fuel ≤ e.nesting 1 → nested

namespace Ready

variable {kind : Expr → Prop} {size : Expr → Nat} {shallow : Nat → Prop} {nested : Prop} {fuel : Nat} {e r : Expr}
  (ready : Ready kind size shallow nested fuel e)
include ready

theorem next (same : kind r) (smaller : size r ≤ size e) (shallower : r.nesting 1 ≤ e.nesting 1) :
    Ready kind size shallow nested fuel r :=
  ⟨same, fun d low => ready.small d (low.trans smaller), fun few => ready.enough (few.trans shallower)⟩

variable (sized : Sized kind size)
include sized

theorem part (member : r ∈ e.children) : Ready kind size shallow nested fuel r :=
  ready.next (sized.parts ready.kind member) (sized.smaller member) (nesting_part member)

omit ready in
/-- What a node asks for may take one step less. -/
theorem asked (ready : Ready kind size shallow nested (fuel + 1) e) :
    Asked (Ready kind size shallow nested fuel) e := by
  cases e with
  | binary op a b =>
    cases op with
    | div =>
      have divisor := ready.part sized (show b ∈ (Expr.binary .div a b).children by simp [children])
      refine ⟨divisor.kind, divisor.small, fun few => ready.enough ?_⟩
      rw [nesting_binary]
      exact (Nat.succ_le_succ few).trans (le_max_right _ _)
    | _ => trivial
  | piecewise cases =>
    intro entry member
    have inside : entry.2 ∈ (Expr.piecewise cases).children := List.mem_flatMap.mpr ⟨entry, member, by simp⟩
    have predicate := ready.part sized inside
    exact ⟨predicate.kind, predicate.small, fun few => ready.enough (few.trans_lt (nesting_case inside))⟩
  | _ => trivial

omit ready in
/-- Where evaluation is refused by the guards only, expressions that are ready may be asked about. -/
theorem asking {c : Config} {evaluate : Expr → Computation Expr}
    (deeper : ∀ e, Ready kind size shallow nested fuel e →
      Permitted (Exceeds c shallow nested) (evaluate e) fun _ => True) :
    Asking (.permitted (Exceeds c shallow nested)) c evaluate (Ready kind size shallow nested fuel) where
  parts _ ready _ member := ready.part sized member
  checked {e} ready := Permitted.checkDepth (.tooDeep (ready.small _ (sized.deep e)))
  evaluated ready := deeper _ ready

end Ready
end Expr

theorem Expr.Numeric.permitted (complete : c.Complete) : Numeric (.permitted R) c Number.Regular := by
  have usable := complete.toUsable
  have readable := usable.toReadable
  have closed := RealNumber.regular_closed usable
  exact
    { exact := Number.regular_of_exact
      neg := fun regular => .of_succeeds (Number.neg_succeeds readable regular)
      opposite := fun regular => .of_succeeds
        ((RealNumber.neg_succeeds regular.1).mono fun _ regular => ⟨regular, trivial⟩)
      add := fun left right => .of_succeeds (Number.add_succeeds closed left right)
      sub := fun left right => .of_succeeds (Number.sub_succeeds closed left right)
      mul := fun left right => .of_succeeds (Number.mul_succeeds closed left right)
      div := fun left right => .of_succeeds (Number.div_succeeds closed left right)
      pow := fun _ _ => .of_succeeds (Number.pow_succeeds readable _ _)
      log := fun _ _ => .of_succeeds (Number.log_succeeds usable _ _)
      factorial := fun _ => .of_succeeds (Number.factorial_succeeds readable _)
      signum := fun regular => .of_succeeds (Number.signum_succeeds usable regular)
      abs := fun regular => .of_succeeds (Number.abs_succeeds closed regular)
      circular := fun f _ regular => .of_succeeds (Number.circular_succeeds usable f regular)
      constant := fun known => .of_succeeds (Number.constant_succeeds usable known)
      holds := fun _ _ _ _ _ => .of_succeeds (RealNumber.holds_succeeds readable _ _)
      close := fun left right => .of_succeeds (Number.closeWithin_succeeds usable complete.equality left right) }

end ComputerAlgebra

import ComputerAlgebra.Proofs.Computation
import ComputerAlgebra.Proofs.Expr.Measure

/-!
Work under a limit on the depth of trees. The limit is asked for by guards alone, so a computation that is given
under every limit has one outcome, and the depth of the deepest tree that it guards: limits that let this tree pass
have the outcome, and under every other limit a tree is refused. That goes through sequencing.
-/

namespace ComputerAlgebra

/-- A limit on the depth that the settings accept in the place of theirs. -/
structure Config.DepthLimit (c : Config) where
  limit : Literal
  sound : { c.toSettings with maxTreeDepth := limit }.fault? = none

def Config.limited (c : Config) (l : c.DepthLimit) : Config :=
  { c.toSettings with maxTreeDepth := l.limit, sound := l.sound }

namespace Config

variable {c : Config}

theorem isTooDeep_max (m n : Nat) : c.isTooDeep (max m n) = (c.isTooDeep m || c.isTooDeep n) := by
  rcases le_total m n with le | le
  · rw [max_eq_right le]
    cases first : c.isTooDeep m with
    | true => rw [Expr.isTooDeep_mono le first, Bool.true_or]
    | false => rw [Bool.false_or]
  · rw [max_eq_left le]
    cases second : c.isTooDeep n with
    | true => rw [Expr.isTooDeep_mono le second, Bool.or_true]
    | false => rw [Bool.or_false]

private theorem check_step {n : Int} {l : Literal} {f : Fault} {rest : Except Fault Unit} :
    (do
      if ← Settings.isBelow n l then throw f
      rest) = .ok () ↔ l.below? n = some false ∧ rest = .ok () := by
  unfold Settings.isBelow
  cases l.below? n with
  | none => simp [bind, Except.bind]
  | some below => cases below <;> simp [bind, Except.bind, throw, throwThe, MonadExceptOf.throw]

theorem sound_iff {s : Settings} : s.fault? = none ↔ s.precision.below? 15 = some false ∧
    s.zeroTolerance.below? 0 = some false ∧ s.equalityTolerance.below? 0 = some false ∧
    s.maxTreeDepth.below? 1 = some false := by
  have checked : s.fault? = none ↔ s.check = .ok () := by
    unfold Settings.fault?
    cases s.check with
    | ok => simp
    | error f => simp
  have last : (do if ← Settings.isBelow 1 s.maxTreeDepth then throw Fault.depthNotPositive) = .ok () ↔
      s.maxTreeDepth.below? 1 = some false := by
    unfold Settings.isBelow
    cases s.maxTreeDepth.below? 1 with
    | none => simp [bind, Except.bind]
    | some below => cases below <;> simp [bind, Except.bind, pure, Except.pure, throw, throwThe, MonadExceptOf.throw]
  rw [checked, Settings.check, check_step, check_step, check_step, last]

end Config

section Guarded
variable {c : Config} {α β : Type}

/-- Under the limits that let a tree of the given depth pass the computation has the given outcome, and under
the others a tree is refused that is not deeper. -/
structure GuardedBy (depth : Nat) (outcome : EStateM.Result Fault FloatUnit α)
    (m : c.DepthLimit → Computation α) (u : FloatUnit) : Prop where
  passed : ∀ l, (c.limited l).isTooDeep depth = false → m l u = outcome
  refused : ∀ l, (c.limited l).isTooDeep depth = true →
    ∃ d w, d ≤ depth ∧ (c.limited l).isTooDeep d = true ∧ m l u = .error (.treeTooDeep d l.limit.plainText) w

/-- The limit decides whether there is an outcome, and which one there is does not depend on it. -/
def Guarded (m : c.DepthLimit → Computation α) : Prop := ∀ u, ∃ depth outcome, GuardedBy depth outcome m u

theorem Config.DepthLimit.isTooDeep_zero (l : c.DepthLimit) : (c.limited l).isTooDeep 0 = false := by
  obtain ⟨-, -, -, positive⟩ := Config.sound_iff.mp l.sound
  rw [← Bool.not_eq_true]
  intro deep
  rw [Config.isTooDeep, decide_eq_true_iff] at deep
  have wider := Expr.below?_mono (show (0 : Nat) ≤ (1 : Int) by decide) deep
  exact absurd (positive.symm.trans wider) (by simp)

namespace Guarded

theorem fixed (m : Computation α) : Guarded fun _ : c.DepthLimit => m := fun u =>
  ⟨0, m u, fun _ _ => rfl, fun l deep => by rw [l.isTooDeep_zero] at deep; cases deep⟩

theorem pure (a : α) : Guarded fun _ : c.DepthLimit => (pure a : Computation α) := fixed _

end Guarded

theorem GuardedBy.bind {m : c.DepthLimit → Computation α} {f : c.DepthLimit → α → Computation β}
    {u v : FloatUnit} {a : α} {depth depth' : Nat} {outcome : EStateM.Result Fault FloatUnit β}
    (first : GuardedBy depth (.ok a v) m u)
    (next : GuardedBy depth' outcome (fun l => f l a) v) :
    GuardedBy (max depth depth') outcome (fun l => m l >>= f l) u where
  passed l shallow := by
    rw [Config.isTooDeep_max, Bool.or_eq_false_iff] at shallow
    rw [Computation.bind_ok (first.passed l shallow.1)]
    exact next.passed l shallow.2
  refused l deep := by
    cases early : (c.limited l).isTooDeep depth with
    | true =>
      obtain ⟨d, w, le, deeper, refused⟩ := first.refused l early
      exact ⟨d, w, le.trans (le_max_left _ _), deeper, Computation.bind_error refused⟩
    | false =>
      rw [Config.isTooDeep_max, early, Bool.false_or] at deep
      obtain ⟨d, w, le, deeper, refused⟩ := next.refused l deep
      refine ⟨d, w, le.trans (le_max_right _ _), deeper, ?_⟩
      rw [Computation.bind_ok (first.passed l early)]
      exact refused

namespace Guarded

theorem bind {m : c.DepthLimit → Computation α} {f : c.DepthLimit → α → Computation β} (first : Guarded m)
    (next : ∀ a, Guarded fun l => f l a) : Guarded fun l => m l >>= f l := by
  intro u
  obtain ⟨depth, outcome, guarded⟩ := first u
  cases outcome with
  | ok a v =>
    obtain ⟨depth', outcome, guarded'⟩ := next a v
    exact ⟨_, outcome, guarded.bind guarded'⟩
  | error f v =>
    refine ⟨depth, .error f v, fun l shallow => Computation.bind_error (guarded.passed l shallow), fun l deep => ?_⟩
    obtain ⟨d, w, le, deeper, refused⟩ := guarded.refused l deep
    exact ⟨d, w, le, deeper, Computation.bind_error refused⟩

theorem map {m : c.DepthLimit → Computation α} (f : α → β) (given : Guarded m) : Guarded fun l => f <$> m l := by
  simp only [map_eq_pure_bind]
  exact bind given fun a => pure (f a)

theorem after {f : c.DepthLimit → α → Computation β} (m : Computation α) (next : ∀ a, Guarded fun l => f l a) :
    Guarded fun l => m >>= f l :=
  bind (fixed m) next

theorem ite {p : Prop} [Decidable p] {m m' : c.DepthLimit → Computation α} (yes : Guarded m) (no : Guarded m') :
    Guarded fun l => if p then m l else m' l := by
  split
  · exact yes
  · exact no

theorem mapM {f : c.DepthLimit → α → Computation β} {as : List α} (each : ∀ a ∈ as, Guarded fun l => f l a) :
    Guarded fun l => as.mapM (f l) := by
  induction as with
  | nil => exact pure []
  | cons a as ih =>
    rw [List.forall_mem_cons] at each
    simp only [List.mapM_cons]
    exact bind each.1 fun b => bind (ih each.2) fun bs => pure (b :: bs)

end Guarded

theorem GuardedBy.checkDepth (e : Expr) (u : FloatUnit) :
    GuardedBy e.depth (.ok () u) (fun l => liftM (e.checkDepth (c.limited l))) u where
  passed l shallow := by
    rw [Expr.checkDepth, if_neg (by simpa using shallow)]
    rfl
  refused l deep := by
    refine ⟨e.depth, u, le_rfl, deep, ?_⟩
    rw [Expr.checkDepth, if_pos deep]
    rfl

theorem Guarded.checkDepth (e : Expr) :
    Guarded fun l => (liftM (e.checkDepth (c.limited l)) : Computation Unit) :=
  fun u => ⟨_, _, .checkDepth e u⟩

end Guarded
end ComputerAlgebra

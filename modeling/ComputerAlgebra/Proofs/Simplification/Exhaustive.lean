import ComputerAlgebra.Proofs.Number.Settled
import ComputerAlgebra.Proofs.Scope.FloatFree
import ComputerAlgebra.Proofs.Simplification.History
import ComputerAlgebra.Proofs.Simplification.Sorting

/-!
Simplification that goes through all its rounds. It keeps its history and goes on when a round has changed
nothing. Once the float unit has the digits of the settings, every step leaves it so; then a round that
has changed nothing is the same round again, and the simplest of its candidates stays. Expressions without
floats are simplified alike whatever digits the unit has. What is left are floats whose keys are read with
other digits than those of the settings: there the round that changes nothing may be followed by one that
does.
-/

namespace ComputerAlgebra

theorem Uniform.answer_eq {α : Type} {E : α → Prop} {m : Computation α} (given : Uniform E m)
    (u v : FloatUnit) : m.answer u = m.answer v := by
  have agree := given u v
  unfold Computation.answer
  cases left : m u <;> cases right : m v <;> rw [left, right] at agree <;> cases agree <;> rfl

namespace Expr

namespace Exhaustive
variable (c : Config)

def rounds : Nat → History → Computation History
  | 0, h => return h
  | n + 1, h => do rounds n (h.add (← candidates c h.best))

def settledOrBest (level : Int) (e : Expr) : Computation (History × Bool) := do
  if e.children.isEmpty then return (.start e, true)
  let first ← e.innerSimplified c
  if first.children.isEmpty then return (.start first, true)
  return (← rounds c level.natAbs (.start first), false)

def simplifyCompact (level : Int) (e : Expr) : Computation Expr := do
  checkDepth c e
  return (← settledOrBest c level e).1.best

/-- Simplification with all its rounds, also in the simplification of the expanded form. -/
def simplify (level : Int) (e : Expr) : Computation Expr := do
  checkDepth c e
  let (h, settled) ← settledOrBest c level e
  if settled || level ≤ 0 then return h.best
  let expanded ← h.best.expand c
  if expanded = h.best then return h.best
  return (h.add [← simplifyCompact c level expanded]).best

end Exhaustive

section Loops
variable (c : Config)

/-- One round, which ends with the simplest of the best expression and its candidates. -/
def round (best : Expr) : Computation Expr := return simplest best (← candidates c best)

def everyRound : Nat → Expr → Computation Expr
  | 0, best => return best
  | n + 1, best => do everyRound n (← round c best)

/-- The call with a negative level, with a loop of one's own. -/
def compactBy (loop : Nat → Expr → Computation Expr) (level : Int) (e : Expr) : Computation Expr := do
  checkDepth c e
  if e.children.isEmpty then return e
  let first ← e.innerSimplified c
  if first.children.isEmpty then return first
  loop level.natAbs first

def afterFirst (loop : Nat → Expr → Computation Expr) (level : Int) (first : Expr) :
    Computation Expr := do
  if first.children.isEmpty then return first
  let best ← loop level.natAbs first
  if level ≤ 0 then return best
  let expanded ← best.expand c
  if expanded = best then return best
  return simplest best [← compactBy c loop level expanded]

variable {c}

theorem rounds_succ (n : Nat) (best : Expr) :
    rounds c (n + 1) best = (do
      let simpler ← round c best
      if simpler = best then return best else rounds c n simpler) := by
  simp only [rounds, round, bind_assoc, pure_bind]

/-- The history is needed for its best candidate only. -/
theorem exhaustive_rounds (n : Nat) : ∀ h : History,
    History.best <$> Exhaustive.rounds c n h = everyRound c n h.best := by
  induction n with
  | zero => exact fun h => map_pure _ _
  | succ n ih =>
    intro h
    simp only [Exhaustive.rounds, everyRound, round, map_bind, bind_assoc, pure_bind, ih,
      History.best_add]

theorem simplifyCompact_eq (level : Int) (e : Expr) :
    simplifyCompact c level e = compactBy c (rounds c) level e := by
  unfold simplifyCompact compactBy settledOrBest
  split
  · simp
  · simp only [bind_assoc]
    refine bind_congr fun _ => bind_congr fun first => ?_
    split <;> simp

theorem exhaustive_simplifyCompact (level : Int) (e : Expr) :
    Exhaustive.simplifyCompact c level e = compactBy c (everyRound c) level e := by
  unfold Exhaustive.simplifyCompact compactBy Exhaustive.settledOrBest
  split
  · simp
  · simp only [bind_assoc]
    refine bind_congr fun _ => bind_congr fun first => ?_
    split
    · simp
    · have loop := exhaustive_rounds (c := c) level.natAbs (.start first)
      rw [History.best_start] at loop
      simp [← loop]

/-- A call begins with its first pass, unless there is nothing to simplify. -/
theorem simplify_eq (level : Int) {e : Expr} (inner : e.children.isEmpty = false) :
    simplify c level e = (do
      checkDepth c e
      afterFirst c (rounds c) level (← e.innerSimplified c)) := by
  unfold simplify afterFirst settledOrBest
  simp only [inner, Bool.false_eq_true, if_false, bind_assoc, simplifyCompact_eq]
  refine bind_congr fun _ => bind_congr fun first => ?_
  split <;> simp

theorem exhaustive_simplify (level : Int) {e : Expr} (inner : e.children.isEmpty = false) :
    Exhaustive.simplify c level e = (do
      checkDepth c e
      afterFirst c (everyRound c) level (← e.innerSimplified c)) := by
  unfold Exhaustive.simplify afterFirst Exhaustive.settledOrBest
  simp only [inner, Bool.false_eq_true, if_false, bind_assoc, exhaustive_simplifyCompact]
  refine bind_congr fun _ => bind_congr fun first => ?_
  split
  · simp
  · have loop := exhaustive_rounds (c := c) level.natAbs (.start first)
    rw [History.best_start] at loop
    simp [← loop]

end Loops

namespace RoundRules
variable {J : Judgment} {c : Config} {P : Expr → Prop} (rules : RoundRules J c P)
include rules

theorem round {e : Expr} (given : P e) : J.Holds (round c e) P :=
  J.bind (rules.candidates given) fun _ all => J.pure (simplest_keeps given all)

theorem everyRound (n : Nat) : ∀ {e : Expr}, P e → J.Holds (everyRound c n e) P := by
  induction n with
  | zero => exact fun given => J.pure given
  | succ n ih => exact fun given => J.bind (rules.round given) fun _ kept => ih kept

/-- What the parts of a round and the loop keep, the call keeps. -/
theorem afterFirst {loop : Nat → Expr → Computation Expr}
    (looped : ∀ n {e}, P e → J.Holds (loop n e) P) (level : Int) {first : Expr} (given : P first) :
    J.Holds (afterFirst c loop level first) P := by
  have compact {e : Expr} (given : P e) : J.Holds (compactBy c loop level e) P := by
    refine J.bind (rules.shallow given) fun _ _ => J.ite (fun _ => J.pure given) fun _ => ?_
    refine J.bind (rules.reduce given) fun first reduced => ?_
    exact J.ite (fun _ => J.pure reduced) fun _ => looped _ reduced
  refine J.ite (fun _ => J.pure given) fun _ => J.bind (looped _ given) fun best kept => ?_
  refine J.ite (fun _ => J.pure kept) fun _ => J.bind (rules.expand kept) fun expanded wider => ?_
  refine J.ite (fun _ => J.pure kept) fun _ => J.bind (compact wider) fun r simplified => J.pure ?_
  exact simplest_keeps kept (by simpa using simplified)

end RoundRules

section Settled
variable (c : Config)

/-- Evaluation and simplification keep a unit with the digits of the settings. -/
theorem settled_scoping :
    Scoping (.settled c) c (fun (_ : Unit) _ => True) (fun _ => True) fun _ i => i where
  lenient := Judgment.settled_lenient c
  compositional _ :=
    { numeric := .settled c
      bool := fun _ => trivial
      constant := fun _ => trivial
      parts := fun _ _ _ _ => trivial
      operation := fun _ _ _ => trivial
      rebuilt := fun _ _ _ _ => trivial
      reading := fun _ next => next (.ofConfig c) }
  parameter := trivial
  lam := ⟨fun _ => ⟨trivial, trivial⟩, fun _ => trivial⟩
  eta _ _ := trivial
  reduced _ _ := (Judgment.settled_lenient c).lift fun _ step => step
  beta _ _ _ := trivial

theorem settled_rules : RoundRules (.settled c) c fun _ => True := (settled_scoping c).roundRules ()

variable {c} {α β : Type} {m : Computation α}

theorem settled_after {P : α → Prop} (steady : (Judgment.settled c).Holds m P) {a : α} {w : FloatUnit}
    (run : m (.ofConfig c) = .ok a w) : w = .ofConfig c :=
  (Works.result steady run).1.settled rfl

/-- Begun with the digits of the settings, what follows is begun with them too. -/
theorem bind_settled {f g : α → Computation β} {P : α → Prop}
    (steady : (Judgment.settled c).Holds m P)
    (next : ∀ a, m (.ofConfig c) = .ok a (.ofConfig c) → f a (.ofConfig c) = g a (.ofConfig c)) :
    (m >>= f) (.ofConfig c) = (m >>= g) (.ofConfig c) := by
  change EStateM.bind m f (.ofConfig c) = EStateM.bind m g (.ofConfig c)
  unfold EStateM.bind
  cases run : m (.ofConfig c) with
  | error f w => rfl
  | ok a w =>
    obtain rfl := settled_after steady run
    exact next a run

theorem bind_same {m' : Computation α} {f : α → Computation β} {u : FloatUnit} (same : m u = m' u) :
    (m >>= f) u = (m' >>= f) u := by
  change EStateM.bind m f u = EStateM.bind m' f u
  unfold EStateM.bind
  rw [same]

/-- A round that has changed nothing and has left the unit alone changes nothing when it is run again. -/
theorem everyRound_fixed {u : FloatUnit} {e : Expr} (same : round c e u = .ok e u) (n : Nat) :
    everyRound c n e u = .ok e u := by
  induction n with
  | zero => rfl
  | succ n ih => rw [everyRound, Computation.bind_ok same, ih]

/-- The loop with all its rounds ends with the expression with which the loop ends that stops at a round
without change. -/
theorem everyRound_settled (n : Nat) : ∀ e : Expr,
    everyRound c n e (.ofConfig c) = rounds c n e (.ofConfig c) := by
  induction n with
  | zero => exact fun e => rfl
  | succ n ih =>
    intro e
    rw [everyRound, rounds_succ]
    refine bind_settled ((settled_rules c).round trivial) fun simpler found => ?_
    split
    · next same =>
      rw [same] at found ⊢
      exact everyRound_fixed found n
    · exact ih simpler

theorem compactBy_settled (level : Int) (e : Expr) :
    compactBy c (everyRound c) level e (.ofConfig c)
      = compactBy c (rounds c) level e (.ofConfig c) := by
  refine bind_settled ((settled_rules c).shallow trivial) fun _ _ => ?_
  split
  · rfl
  refine bind_settled ((settled_rules c).reduce trivial) fun first _ => ?_
  split
  · rfl
  · exact everyRound_settled _ _

theorem afterFirst_settled (level : Int) (first : Expr) :
    afterFirst c (everyRound c) level first (.ofConfig c)
      = afterFirst c (rounds c) level first (.ofConfig c) := by
  unfold afterFirst
  split
  · rfl
  rw [bind_same (everyRound_settled level.natAbs first)]
  refine bind_settled ((settled_rules c).rounds _ trivial) fun best _ => ?_
  split
  · rfl
  refine bind_settled ((settled_rules c).expand trivial) fun expanded _ => ?_
  split
  · rfl
  · exact bind_same (compactBy_settled level expanded)

end Settled

/-- Stopping at a round that has changed nothing does not show: simplification that goes through all its
rounds answers the same at every level, unless the pass with which the call begins leaves floats and a
unit with other digits than those of the settings. -/
theorem simplify_exhaustive {c : Config} {e : Expr} {u : FloatUnit} (level : Int)
    (start : ∀ first w, e.innerSimplified c u = .ok first w →
      w = .ofConfig c ∨ first.hasInexact = false) :
    (e.simplify c level).answer u = (Exhaustive.simplify c level e).answer u := by
  cases leaf : e.children.isEmpty with
  | true =>
    have same : e.simplify c level = Exhaustive.simplify c level e := by
      simp [simplify, Exhaustive.simplify, settledOrBest, Exhaustive.settledOrBest, leaf]
    rw [same]
  | false =>
    rw [simplify_eq level leaf, exhaustive_simplify level leaf]
    refine Computation.answer_bind_congr fun _ v checked => ?_
    obtain rfl : v = u := by
      cases depth : e.checkDepth c with
      | ok =>
        rw [depth] at checked
        cases checked
        rfl
      | error f =>
        rw [depth] at checked
        cases checked
    refine Computation.answer_bind_congr fun first w reduced => ?_
    have settled : (afterFirst c (rounds c) level first).answer (.ofConfig c)
        = (afterFirst c (everyRound c) level first).answer (.ofConfig c) := by
      rw [Computation.answer, Computation.answer, afterFirst_settled]
    rcases start first w reduced with rfl | free
    · exact settled
    · have rules := (floatFree_scoping c).roundRules ()
      have stopping : Uniform FloatFree (afterFirst c (rounds c) level first) :=
        rules.afterFirst rules.rounds level free
      have exhaustive : Uniform FloatFree (afterFirst c (everyRound c) level first) :=
        rules.afterFirst rules.everyRound level free
      rw [stopping.answer_eq w (.ofConfig c), settled, exhaustive.answer_eq (.ofConfig c) w]

/-- A call with an expression without floats leaves its first pass without floats, or with the digits of
the settings. -/
theorem floatFree_start {c : Config} {e first : Expr} {u w : FloatUnit} (free : e.hasInexact = false)
    (reduced : e.innerSimplified c u = .ok first w) : w = .ofConfig c ∨ first.hasInexact = false := by
  have uniform : Uniform FloatFree (e.innerSimplified c) := (floatFree_scoping c).innerSimplified (i := ()) free
  have agree := uniform u (.ofConfig c)
  rw [reduced] at agree
  cases run : e.innerSimplified c (.ofConfig c) with
  | error f w' =>
    rw [run] at agree
    cases agree
  | ok first' w' =>
    have settled := settled_after ((settled_rules c).reduce (e := e) trivial) run
    rw [run] at agree
    cases agree with
    | same => exact .inl settled
    | exact kept => exact .inr kept

/-- One round changes nothing here, whichever digits the unit has. -/
theorem simplify_exhaustive_reciprocal :
    ∃ e : Expr, e = .binary .sum 1 (.binary .div 1 (.var "x")) ∧ e.hasInexact = false ∧
      (e.simplify .default 1000).answer ⟨30⟩
        = (Exhaustive.simplify .default 1000 e).answer ⟨30⟩ := by
  refine ⟨_, rfl, by decide +kernel, simplify_exhaustive 1000 fun first w reduced => ?_⟩
  exact floatFree_start (by decide +kernel) reduced

/-- Two floats near the root of two that thirty digits do not tell apart, and fifty do: the product with
the lower one comes to stand beside its double only once the unit has the digits of the settings. -/
theorem stale_digits_stop_early :
    ∃ low high e r : Expr,
      low = .num (.real (.float (.ofIntWithPrec 114734634956362014553563009489834 106))) ∧
      high = .num (.real (.float (.ofIntWithPrec 114734634956362014553563009489835 106))) ∧
      e = .binary .equals
        (.binary .sum (.binary .sum (.binary .mul high (.var "x")) (.binary .mul low (.var "y")))
          (.binary .mul low (.var "y")))
        (.binary .sum (.var "x") (.num .positiveInfinity)) ∧
      r = .binary .equals
        (.binary .sum (.binary .mul 2 (.binary .mul low (.var "y"))) (.binary .mul high (.var "x")))
        (.binary .sum (.var "x") (.num .positiveInfinity)) ∧
      (e.simplify .default (-2)).answer ⟨30⟩ = .ok e ∧
      (Exhaustive.simplify .default (-2) e).answer ⟨30⟩ = .ok r ∧ e ≠ r := by
  let low : Expr := .num (.real (.float (.ofIntWithPrec 114734634956362014553563009489834 106)))
  let high : Expr := .num (.real (.float (.ofIntWithPrec 114734634956362014553563009489835 106)))
  let e : Expr := .binary .equals
    (.binary .sum (.binary .sum (.binary .mul high (.var "x")) (.binary .mul low (.var "y")))
      (.binary .mul low (.var "y")))
    (.binary .sum (.var "x") (.num .positiveInfinity))
  let r : Expr := .binary .equals
    (.binary .sum (.binary .mul 2 (.binary .mul low (.var "y"))) (.binary .mul high (.var "x")))
    (.binary .sum (.var "x") (.num .positiveInfinity))
  have first : round .default e ⟨30⟩ = .ok e (.ofConfig .default) := by
    rw [round, candidates_eq_within]
    decide +kernel
  have second : round .default e (.ofConfig .default) = .ok r (.ofConfig .default) := by
    rw [round, candidates_eq_within]
    decide +kernel
  have reduced : e.innerSimplified .default ⟨30⟩ = .ok e ⟨30⟩ := by decide +kernel
  have shallow : e.checkDepth .default = .ok () := by decide +kernel
  have begun (loop : Nat → Expr → Computation Expr) : (do
      checkDepth .default e
      afterFirst .default loop (-2) (← e.innerSimplified .default) : Computation Expr) ⟨30⟩
        = loop 2 e ⟨30⟩ := by
    have checked : (liftM (.ok () : Except Fault Unit) : Computation Unit) ⟨30⟩ = .ok () ⟨30⟩ := rfl
    rw [shallow, Computation.bind_ok checked, Computation.bind_ok reduced]
    simp [afterFirst, e, children]
  have stopped : rounds .default 2 e ⟨30⟩ = .ok e (.ofConfig .default) := by
    rw [rounds_succ, Computation.bind_ok first, if_pos rfl]
    rfl
  have continued : everyRound .default 2 e ⟨30⟩ = .ok r (.ofConfig .default) := by
    rw [everyRound, Computation.bind_ok first, everyRound, Computation.bind_ok second]
    rfl
  refine ⟨low, high, e, r, rfl, rfl, rfl, rfl, ?_, ?_, by decide +kernel⟩
  · rw [Computation.answer, simplify_eq _ rfl, begun, stopped]
  · rw [Computation.answer, exhaustive_simplify _ rfl, begun, continued]

end Expr
end ComputerAlgebra

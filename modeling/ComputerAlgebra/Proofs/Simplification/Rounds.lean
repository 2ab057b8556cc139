import ComputerAlgebra.Proofs.Computation
import ComputerAlgebra.Simplification.Rounds

/-!
What every part of a round keeps, simplification keeps. A property that survives each pass, one pass
of reduction and the polynomial form holds of every candidate, and so of the one that is chosen.
-/

namespace ComputerAlgebra.Expr

private theorem foldl_simplest_mem (candidates : List Expr) : ∀ (best : Expr) (least : Nat),
    (candidates.foldl (fun (best, least) e =>
      let s := e.score
      if s < least then (e, s) else (best, least)) (best, least)).1 ∈ best :: candidates := by
  induction candidates with
  | nil => intro best least; simp
  | cons e candidates ih =>
    intro best least
    rw [List.foldl_cons]
    dsimp only
    split
    · exact List.mem_cons_of_mem best (ih e e.score)
    · rcases List.mem_cons.mp (ih best least) with same | inside
      · rw [same]
        simp
      · exact List.mem_cons_of_mem best (List.mem_cons_of_mem e inside)

theorem simplest_mem (first : Expr) (rest : List Expr) : simplest first rest ∈ first :: rest :=
  foldl_simplest_mem rest first first.score

/-- An expression that one pass of simplification turns into a leaf is simplified to that at every
level. -/
theorem simplify_settled {c : Config} {e r : Expr} {u w : FloatUnit}
    (reduced : e.innerSimplified c u = .ok r w) (inner : e.children ≠ []) (leaf : r.children = [])
    (level : Int) : e.simplify c level u = .ok r w := by
  have shallow : e.checkDepth c = .ok () := by
    cases depth : e.checkDepth c with
    | ok => rfl
    | error f =>
      rw [innerSimplified, depth] at reduced
      cases reduced
  have settled : e.settledOrBest c level u = .ok (r, true) w := by
    rw [settledOrBest, if_neg (by simpa using inner), Computation.bind_ok reduced,
      if_pos (by simp [leaf])]
    rfl
  rw [simplify, shallow]
  exact Computation.bind_ok settled

theorem simplify_leaf {c : Config} {e : Expr} (shallow : e.checkDepth c = .ok ())
    (leaf : e.children = []) (level : Int) (u : FloatUnit) : e.simplify c level u = .ok e u := by
  have settled : e.settledOrBest c level u = .ok (e, true) u := by
    rw [settledOrBest, if_pos (by simp [leaf])]
    rfl
  rw [simplify, shallow]
  exact Computation.bind_ok settled

/-- Under a judgment of computations, a property that no part of a round destroys; what has it is not
refused for its depth. -/
structure RoundRules (J : Judgment) (c : Config) (P : Expr → Prop) : Prop where
  shallow : ∀ {e : Expr}, P e → J.Holds (liftM (checkDepth c e) : Computation Unit) fun _ => True
  pass : ∀ (pass : Pass) {e : Expr}, P e → J.Holds (pass.run c e) P
  reduce : ∀ {e : Expr}, P e → J.Holds (innerSimplified c e) P
  collapse : ∀ {e : Expr}, P e → J.Holds (collapse? c e) fun r => ∀ e', r = some e' → P e'

theorem simplest_keeps {P : Expr → Prop} {first : Expr} {rest : List Expr} (head : P first)
    (all : ∀ e ∈ rest, P e) : P (simplest first rest) := by
  rcases List.mem_cons.mp (simplest_mem first rest) with same | inside
  · rw [same]
    exact head
  · exact all _ inside

/-- What each pass keeps together with the reduction after it, a run of passes keeps. -/
theorem runPasses_keeps {J : Judgment} {c : Config} {P : Expr → Prop} {passes : List Pass}
    (step : ∀ pass ∈ passes, ∀ {e : Expr}, P e → J.Holds (pass.run c e >>= innerSimplified c) P) :
    ∀ {e : Expr}, P e → J.Holds (runPasses c passes e) fun rs => ∀ r ∈ rs, P r := by
  induction passes with
  | nil => exact fun _ => J.pure (by simp)
  | cons pass passes ih =>
    intro e given
    rw [List.forall_mem_cons] at step
    unfold runPasses
    rw [← bind_assoc]
    refine J.bind (step.1 given) fun r reduced => J.bind (ih step.2 reduced) fun rs others => J.pure ?_
    exact List.forall_mem_cons.mpr ⟨reduced, others⟩

theorem getLastD_keeps {P : Expr → Prop} {e : Expr} {rs : List Expr} (given : P e) (all : ∀ r ∈ rs, P r) :
    P (rs.getLastD e) := by
  cases rs with
  | nil => exact given
  | cons r rs =>
    rw [List.getLastD_cons]
    exact all _ List.getLastD_mem_cons

namespace RoundRules
variable {J : Judgment} {c : Config} {P : Expr → Prop} (rules : RoundRules J c P)
include rules

theorem candidates {e : Expr} (given : P e) : J.Holds (candidates c e) fun rs => ∀ r ∈ rs, P r := by
  unfold Expr.candidates
  have step (pass : Pass) (_ : pass ∈ Pass.all) {e : Expr} (given : P e) : J.Holds (pass.run c e >>= innerSimplified c) P :=
    J.bind (rules.pass pass given) fun _ passed => rules.reduce passed
  refine J.bind (runPasses_keeps step given) fun passed all => ?_
  refine J.bind (rules.collapse (getLastD_keeps given all)) fun collapsed form => ?_
  split
  · next t =>
    refine J.bind (rules.reduce (form t rfl)) fun r reduced => J.pure ?_
    rw [List.forall_mem_append]
    exact ⟨all, by simpa using reduced⟩
  · exact J.pure all

theorem rounds (n : Nat) : ∀ {e : Expr}, P e → J.Holds (rounds c n e) P := by
  induction n with
  | zero => exact fun given => J.pure given
  | succ n ih =>
    intro e given
    unfold Expr.rounds
    refine J.bind (rules.candidates given) fun tried all => ?_
    dsimp only
    split
    · exact J.pure given
    · exact ih (simplest_keeps given all)

theorem settledOrBest (level : Int) {e : Expr} (given : P e) :
    J.Holds (settledOrBest c level e) fun r => P r.1 := by
  unfold Expr.settledOrBest
  split
  · exact J.pure given
  refine J.bind (rules.reduce given) fun first reduced => ?_
  split
  · exact J.pure reduced
  · exact J.bind (rules.rounds level.natAbs reduced) fun r best => J.pure best

theorem simplifyCompact (level : Int) {e : Expr} (given : P e) :
    J.Holds (simplifyCompact c level e) P := by
  refine J.bind (rules.shallow given) fun _ _ => ?_
  exact J.bind (rules.settledOrBest level given) fun r best => J.pure best

theorem expand {e : Expr} (given : P e) : J.Holds (expand c e) P := by
  refine J.bind (rules.collapse given) fun collapsed form => J.pure ?_
  cases collapsed with
  | none => exact given
  | some t => exact form t rfl

/-- What every part of a round keeps, simplification at any level keeps. -/
theorem simplify (level : Int) {e : Expr} (given : P e) : J.Holds (simplify c level e) P := by
  unfold Expr.simplify
  refine J.bind (rules.shallow given) fun _ _ => ?_
  refine J.bind (rules.settledOrBest level given) ?_
  rintro ⟨best, settled⟩ holds
  dsimp only
  split
  · exact J.pure holds
  refine J.bind (rules.expand holds) fun expanded wider => ?_
  split
  · exact J.pure holds
  refine J.bind (rules.simplifyCompact level wider) fun r compact => J.pure ?_
  exact simplest_keeps holds (by simpa using compact)

end RoundRules

structure KeptByRounds (c : Config) (P : Expr → Prop) : Prop where
  pass : ∀ (pass : Pass) {e : Expr}, P e → Returns (pass.run c e) P
  reduce : ∀ {e : Expr}, P e → Returns (innerSimplified c e) P
  collapse : ∀ {e : Expr}, P e → Returns (collapse? c e) fun r => ∀ e', r = some e' → P e'

theorem KeptByRounds.simplify {c : Config} {P : Expr → Prop} (kept : KeptByRounds c P) (level : Int)
    {e : Expr} (given : P e) : Returns (simplify c level e) P := by
  have rules : RoundRules .returns c P :=
    ⟨fun _ => Returns.trivial, kept.pass, kept.reduce, kept.collapse⟩
  exact rules.simplify level given

end ComputerAlgebra.Expr

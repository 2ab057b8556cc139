import ComputerAlgebra.Proofs.Limit.FunctionFree
import ComputerAlgebra.Proofs.Polynomial.Capacity
import ComputerAlgebra.Proofs.Scope.Passes
import ComputerAlgebra.Proofs.Simplification.History
import ComputerAlgebra.Proofs.Termination.Passes

/-!
How large the trees get that simplification without functions comes to. The best expression of a round never has a
higher score than the first one, and scores and weights bound each other. The passes make five times its weight of it
at most, since only sorting adds to a node, and the limit on terms bounds what that is multiplied out to.
-/

namespace ComputerAlgebra

namespace TermBound
variable (l : TermBound) {v w : Nat}

/-- How deep the trees get that rounds come to from an expression of a weight. -/
def growth (w : Nat) : Nat := l.room (540 * w)

theorem le_room (w : Nat) : w ≤ l.room w := by
  have cube : w + 1 ≤ (w + 1) ^ 3 := Nat.le_self_pow (by decide) _
  exact (Nat.le_succ w).trans (cube.trans (Nat.le_mul_of_pos_left _ (Nat.succ_pos _)))

theorem room_mono (le : v ≤ w) : l.room v ≤ l.room w :=
  Nat.mul_le_mul_left _ (Nat.pow_le_pow_left (Nat.succ_le_succ le) 3)

theorem le_growth (w : Nat) : w ≤ l.growth w := (Nat.le_mul_of_pos_left w (by decide)).trans (l.le_room _)

theorem growth_mono (le : v ≤ w) : l.growth v ≤ l.growth w := l.room_mono (Nat.mul_le_mul_left 540 le)

end TermBound

namespace Expr

section Scores

theorem ownScore_le (e : Expr) : e.ownScore ≤ 36 := by
  have real (r : RealNumber) : r.score ≤ 16 := by
    unfold RealNumber.score
    dsimp only
    split <;> split <;> (try split) <;> omega
  have number (z : Number) : z.score ≤ 36 := by
    cases z with
    | real r => exact (real r).trans (by omega)
    | complex re im =>
      have := real re
      have := real im
      rw [Number.score]
      omega
  unfold ownScore
  split
  · exact number _
  all_goals first | omega | (split <;> omega)

theorem score_le_weight (e : Expr) : e.score ≤ 36 * e.weight := by
  induction e using children_induction with
  | node e ih =>
    have own := ownScore_le e
    have parts : (e.children.map score).sum ≤ (e.children.map fun x => 36 * x.weight).sum := List.sum_le_sum ih
    rw [List.sum_map_mul_left] at parts
    have light : 1 ≤ e.ownWeight := ownWeight_pos e
    rw [score_eq, weight, tally_eq]
    change _ ≤ 36 * (e.ownWeight + (e.children.map weight).sum)
    omega

theorem weight_le_score (e : Expr) : e.weight ≤ 3 * e.score := by
  induction e using children_induction with
  | node e ih =>
    have own : e.ownWeight ≤ 12 := by
      unfold ownWeight Head.weight
      split
      · split <;> omega
      · omega
    have parts : (e.children.map weight).sum ≤ (e.children.map fun x => 3 * x.score).sum := List.sum_le_sum ih
    rw [List.sum_map_mul_left] at parts
    have := four_le_ownScore e
    rw [score_eq, weight, tally_eq]
    change e.ownWeight + (e.children.map weight).sum ≤ _
    omega

end Scores

variable {c : Config} {shallow : Nat → Prop} {nested : Prop} {e r : Expr}

section Passes

theorem functionFree_scaled (k : Nat) : Sized FunctionFree fun e => (k + 1) * e.weight where
  parts free := free.part
  smaller member := Nat.mul_le_mul_left _ (weight_part member).le
  deep e := (depth_le_weight e).trans (Nat.le_mul_of_pos_left _ k.succ_pos)

structure Passed (pass : Pass) (e r : Expr) : Prop where
  free : FunctionFree r
  heavier : r.weight ≤ (pass.extra + 1) * e.weight
  shallower : r.nesting 1 ≤ e.nesting 1
  number : ∀ z, e = .num z → r = .num z

theorem passed_rebuilt {pass : Pass} {h : Head} {parts : List Expr} (headed : e.head? = some h) (free : FunctionFree e)
    (related : List.Forall₂ (Passed pass) e.children parts) :
    FunctionFree (e.withChildren parts) ∧
      (e.withChildren parts).weight + pass.extra ≤ (pass.extra + 1) * e.weight ∧
      (e.withChildren parts).nesting 1 ≤ e.nesting 1 := by
  obtain ⟨still, same⟩ := withChildren_head headed related.length_eq.symm
  have heavier : List.Forall₂ (· ≤ ·) (parts.map weight)
      (e.children.map fun x => (pass.extra + 1) * x.weight) := by
    rw [List.forall₂_map_left_iff, List.forall₂_map_right_iff]
    exact (related.imp fun _ _ passed => passed.heavier).flip
  have sum := heavier.sum_le_sum
  rw [List.sum_map_mul_left] at sum
  refine ⟨(functionFree_head still).mpr ⟨((functionFree_head headed).mp free).1, ?_⟩, ?_, ?_⟩
  · rw [same]
    exact forall_related related fun _ _ _ passed => passed.free
  · have own := Nat.mul_le_mul_left pass.extra h.weight_pos
    rw [weight_additive.head still, weight_additive.head headed, same]
    simp only [Nat.one_mul, Nat.zero_mul, Nat.add_zero, Nat.mul_add, Nat.add_mul] at sum ⊢
    omega
  · exact nesting_rebuilt headed (related.imp fun _ _ passed => ⟨passed.shallower, passed.number⟩)

theorem Pass.run_ready (complete : c.Complete) (pass : Pass)
    (ready : Ready FunctionFree (fun e => (pass.extra + 1) * e.weight) shallow nested allowance e) :
    Permitted (Exceeds c shallow nested) (pass.run c e) (Passed pass e) := by
  have comp := functionFree_compositional complete (Exceeds c shallow nested)
  have atNode {e e' : Expr}
      (ready : Ready FunctionFree (fun e => (pass.extra + 1) * e.weight) shallow nested allowance e)
      (free : FunctionFree e') (heavier : e'.weight + pass.extra ≤ (pass.extra + 1) * e.weight)
      (shallower : e'.nesting 1 ≤ e.nesting 1) (other : e.number? = none) :
      Permitted (Exceeds c shallow nested) (pass.atNode c e') (Passed pass e) := by
    have asked : Ready FunctionFree weight shallow nested allowance e' :=
      ⟨free, fun d low => ready.small d (by omega), fun few => ready.enough (few.trans shallower)⟩
    refine Permitted.mono ((comp.atNode (evaluate_asking complete) pass asked free).and (pass.atNode_extends e')) ?_
    rintro r ⟨kept, extended⟩
    refine ⟨kept, (extended.heavier).trans heavier, extended.shallower.trans shallower, ?_⟩
    rintro z rfl
    cases other
  refine foldM_holds (.permitted _) (fun ready _ member => ready.part (functionFree_scaled _) member)
    (fun {e parts} ready related => ?_) ready
  have leaf : e.weight + pass.extra ≤ (pass.extra + 1) * e.weight := by
    have := Nat.le_mul_of_pos_right pass.extra (weight_pos e)
    rw [Nat.add_mul]
    omega
  rcases shape e with ⟨z, rfl⟩ | ⟨b, rfl⟩ | ⟨x, rfl⟩ | ⟨p, body, rfl⟩ | ⟨h, headed⟩
  · change Permitted _ (pass.atNode c (.num z)) _
    rw [pass.atNode_num]
    exact .pure ⟨ready.kind, by omega, le_rfl, fun _ same => same⟩
  · exact atNode ready ready.kind leaf le_rfl rfl
  · exact atNode ready ready.kind leaf le_rfl rfl
  · exact absurd ready.kind functionFree_lam
  · obtain ⟨free, heavier, shallower⟩ := passed_rebuilt headed ready.kind related
    split
    · cases headed
    · cases headed
    · refine atNode ready free heavier shallower ?_
      cases e <;> first | rfl | cases headed

end Passes

/-- An expression without functions of no more than some weight, which nests no more than so many evaluations. -/
structure Light (k w : Nat) (e : Expr) : Prop where
  free : FunctionFree e
  small : e.weight ≤ w
  flat : e.nesting 1 ≤ k

structure Scored (k s : Nat) (e : Expr) : Prop where
  free : FunctionFree e
  simple : e.score ≤ s
  flat : e.nesting 1 ≤ k

variable {k w s : Nat}

theorem Light.mono {w' : Nat} (light : Light k w e) (more : w ≤ w') : Light k w' e :=
  ⟨light.free, light.small.trans more, light.flat⟩

theorem Light.scored (light : Light k w e) : Scored k (36 * w) e :=
  ⟨light.free, (score_le_weight e).trans (Nat.mul_le_mul_left 36 light.small), light.flat⟩

theorem Scored.light (scored : Scored k s e) : Light k (3 * s) e :=
  ⟨scored.free, (weight_le_score e).trans (Nat.mul_le_mul_left 3 scored.simple), scored.flat⟩

theorem Scored.simplest {rs : List Expr} (scored : Scored k s e)
    (all : ∀ r ∈ rs, FunctionFree r ∧ r.nesting 1 ≤ k) :
    Scored k s (simplest e rs) := by
  have kept : FunctionFree (Expr.simplest e rs) ∧ (Expr.simplest e rs).nesting 1 ≤ k :=
    simplest_keeps (P := fun r => FunctionFree r ∧ r.nesting 1 ≤ k) ⟨scored.free, scored.flat⟩ all
  exact ⟨kept.1, (simplest_score_le List.mem_cons_self).trans scored.simple, kept.2⟩

/-- Trees of some weight and what is written for their polynomials are among those in question. -/
structure Room (c : Config) (shallow : Nat → Prop) (k w : Nat) : Prop where
  small : ∀ d ≤ w, shallow d
  collapsed : ∀ {e}, Light k w e → Returns (collapse? c e) (Offers fun t => ∀ d ≤ t.weight, shallow d)

/-- The trees that simplification at a level comes to from an expression of some weight are among those in question. -/
structure Reaches (c : Config) (shallow : Nat → Prop) (k : Nat) (level : Int) (w : Nat) : Prop where
  small : ∀ d ≤ w, shallow d
  rounds : level ≠ 0 → Room c shallow k (540 * w)
  expanded : 0 < level → ∀ {e}, Light k (540 * w) e →
    Returns (collapse? c e) (Offers fun t => Room c shallow k (540 * t.weight))

section Rounds

theorem Light.checked (small : ∀ d ≤ w, shallow d) (light : Light k w e) :
    Permitted (Exceeds c shallow nested) (liftM (e.checkDepth c) : Computation Unit) fun _ => True :=
  .checkDepth (.tooDeep (small _ ((depth_le_weight e).trans light.small)))

variable (enough : allowance ≤ k → nested)
include enough

theorem Light.ready (small : ∀ d ≤ w, shallow d) (light : Light k w e) :
    Ready FunctionFree weight shallow nested allowance e :=
  ⟨light.free, fun d low => small d (low.trans light.small), fun few => enough (few.trans light.flat)⟩

variable (complete : c.Complete)
include complete

theorem Light.innerSimplified (small : ∀ d ≤ w, shallow d) (light : Light k w e) :
    Permitted (Exceeds c shallow nested) (innerSimplified c e) (Light k w) := by
  refine (innerSimplified_ready complete (light.ready enough small)).mono fun r lightened => ?_
  have less := lightened.becomes.made
  exact ⟨lightened.free, less.lighter.trans light.small, less.shallower.trans light.flat⟩

theorem Light.pass (pass : Pass) (small : ∀ d ≤ (pass.extra + 1) * w, shallow d) (light : Light k w e) :
    Permitted (Exceeds c shallow nested) (pass.run c e >>= Expr.innerSimplified c)
      (Light k ((pass.extra + 1) * w)) := by
  have ready : Ready FunctionFree (fun e => (pass.extra + 1) * e.weight) shallow nested allowance e :=
    ⟨light.free, fun d low => small d (low.trans (Nat.mul_le_mul_left _ light.small)),
      fun few => enough (few.trans light.flat)⟩
  refine (pass.run_ready complete ready).bind fun r passed => ?_
  have after : Light k ((pass.extra + 1) * w) r :=
    ⟨passed.free, passed.heavier.trans (Nat.mul_le_mul_left _ light.small), passed.shallower.trans light.flat⟩
  exact after.innerSimplified enough complete small

/-- Only the first pass sorts. -/
theorem Light.runPasses (small : ∀ d ≤ 5 * w, shallow d) (light : Light k w e) :
    Permitted (Exceeds c shallow nested) (runPasses c Pass.all e) fun rs => ∀ r ∈ rs, Light k (5 * w) r := by
  have unsorted (pass : Pass) (later : pass ∈ Pass.all.tail) {e : Expr} (light : Light k (5 * w) e) :
      Permitted (Exceeds c shallow nested) (pass.run c e >>= Expr.innerSimplified c) (Light k (5 * w)) := by
    have none : pass.extra = 0 := by
      revert later
      cases pass <;> decide
    have kept := light.pass enough complete pass (by simpa [none] using small)
    rwa [none, Nat.zero_add, Nat.one_mul] at kept
  rw [Pass.all, Expr.runPasses, ← bind_assoc]
  refine (light.pass enough complete .sort small).bind fun r sorted => ?_
  refine (runPasses_keeps (J := .permitted _) unsorted sorted).bind fun rs others => .pure ?_
  exact List.forall_mem_cons.mpr ⟨sorted, others⟩

theorem Light.collapse? (small : ∀ d ≤ w, shallow d) (light : Light k w e) :
    Permitted (Exceeds c shallow nested) (collapse? c e) (Offers fun t => Light k t.weight t) := by
  have comp := functionFree_compositional complete (Exceeds c shallow nested)
  have limited : Permitted (Exceeds c shallow nested)
      (liftM c.expansionBound : Computation (Option TermBound)) fun _ => True := by
    obtain ⟨limit, same⟩ := complete.expansion
    rw [same]
    exact .pure trivial
  have free := comp.collapse? (evaluate_asking complete) limited (light.ready enough small) light.free
  refine (Permitted.and free (collapse?_nesting c e)).mono fun r offered t found => ?_
  exact ⟨offered.1 t found, le_rfl, (offered.2 t found).trans light.flat⟩

theorem Scored.candidates (room : Room c shallow k (15 * s)) (scored : Scored k s e) :
    Permitted (Exceeds c shallow nested) (candidates c e) fun rs =>
      ∀ r ∈ rs, FunctionFree r ∧ r.nesting 1 ≤ k := by
  have few : 5 * (3 * s) = 15 * s := by omega
  unfold Expr.candidates
  refine (scored.light.runPasses enough complete (few ▸ room.small)).bind fun passed all => ?_
  have last : Light k (15 * s) (passed.getLastD e) :=
    few ▸ getLastD_keeps (scored.light.mono (Nat.le_mul_of_pos_left _ (by decide))) all
  refine ((last.collapse? enough complete room.small).and (room.collapsed last)).bind fun r offered => ?_
  have flat : ∀ r ∈ passed, FunctionFree r ∧ r.nesting 1 ≤ k := fun r member =>
    ⟨(all r member).free, (all r member).flat⟩
  split
  · next t =>
    refine ((offered.1 t rfl).innerSimplified enough complete (offered.2 t rfl)).bind fun r reduced => .pure ?_
    rw [List.forall_mem_append]
    exact ⟨flat, by simpa using ⟨reduced.free, reduced.flat⟩⟩
  · exact .pure flat

theorem Scored.rounds (room : Room c shallow k (15 * s)) (n : Nat) : ∀ {e : Expr}, Scored k s e →
    Permitted (Exceeds c shallow nested) (rounds c n e) (Scored k s) := by
  induction n with
  | zero => exact fun scored => .pure scored
  | succ n ih =>
    intro e scored
    unfold Expr.rounds
    refine (scored.candidates enough complete room).bind fun tried all => ?_
    dsimp only
    split
    · exact .pure scored
    · exact ih (scored.simplest all)

theorem Light.settledOrBest {level : Int} (small : ∀ d ≤ w, shallow d)
    (room : level ≠ 0 → Room c shallow k (540 * w))
    (light : Light k w e) :
    Permitted (Exceeds c shallow nested) (settledOrBest c level e) fun r => Scored k (36 * w) r.1 := by
  unfold Expr.settledOrBest
  split
  · exact .pure light.scored
  refine (light.innerSimplified enough complete small).bind fun first reduced => ?_
  split
  · exact .pure reduced.scored
  by_cases still : level = 0
  · subst still
    exact .pure reduced.scored
  · have enough_room : Room c shallow k (15 * (36 * w)) := by
      rw [← Nat.mul_assoc]
      exact room still
    exact (reduced.scored.rounds enough complete enough_room _).bind fun best scored => .pure scored

theorem Light.simplifyCompact {level : Int} (small : ∀ d ≤ w, shallow d)
    (room : level ≠ 0 → Room c shallow k (540 * w)) (light : Light k w e) :
    Permitted (Exceeds c shallow nested) (simplifyCompact c level e) (Scored k (36 * w)) := by
  refine (light.checked small).bind fun _ _ => ?_
  exact (light.settledOrBest enough complete small room).bind fun _ scored => .pure scored

/-- Simplification is refused for no other trees than those that it reaches. -/
theorem Light.simplify {level : Int} (reaches : Reaches c shallow k level w) (light : Light k w e) :
    Permitted (Exceeds c shallow nested) (simplify c level e) (Scored k (36 * w)) := by
  unfold Expr.simplify
  refine (light.checked reaches.small).bind fun _ _ => ?_
  refine (light.settledOrBest enough complete reaches.small reaches.rounds).bind ?_
  rintro ⟨best, settled⟩ scored
  dsimp only at scored ⊢
  split
  · exact .pure scored
  next going =>
  have positive : 0 < level := by
    simp only [Bool.or_eq_true, decide_eq_true_eq, not_or, not_le] at going
    exact going.2
  have room := reaches.rounds positive.ne'
  have kept : Light k (540 * w) best := scored.light.mono (by omega)
  have known := (kept.collapse? enough complete room.small).and (reaches.expanded positive kept)
  simp only [expand, bind_assoc, pure_bind]
  refine known.bind fun r offered => ?_
  cases r with
  | none =>
    rw [Option.getD_none, if_pos rfl]
    exact .pure scored
  | some t =>
    have wider := offered.1 t rfl
    have wide : Room c shallow k (540 * t.weight) := offered.2 t rfl
    rw [Option.getD_some]
    split
    · exact .pure scored
    refine (wider.simplifyCompact enough complete (fun d low => wide.small d (by omega)) fun _ => wide).bind
      fun r compact => ?_
    exact .pure (scored.simplest (by simpa using ⟨compact.free, compact.flat⟩))

end Rounds

section Reach
variable {l : TermBound} {level : Int}

theorem reaches_all : Reaches c (fun _ => True) k level w where
  small _ _ := trivial
  rounds _ := ⟨fun _ _ => trivial, fun _ => Returns.trivial.mono fun _ _ _ _ _ _ => trivial⟩
  expanded _ _ _ := Returns.trivial.mono fun _ _ _ _ =>
    ⟨fun _ _ => trivial, fun _ => Returns.trivial.mono fun _ _ _ _ _ _ => trivial⟩

/-- At level zero nothing is added. -/
theorem reaches_reduced : Reaches c (· ≤ w) k 0 w where
  small _ low := low
  rounds other := absurd rfl other
  expanded positive := absurd positive (lt_irrefl 0)

theorem room_growth (bound : c.expansionBound = .ok (some l)) (w : Nat) : Room c (· ≤ l.growth w) k (540 * w) where
  small _ low := low.trans (l.le_room _)
  collapsed light := (collapse?_room bound _).mono fun _ small t found _ low =>
    low.trans ((small t found).trans (l.room_mono light.small))

theorem Room.mono {shallow' : Nat → Prop} (room : Room c shallow k w) (weaker : ∀ d, shallow d → shallow' d) :
    Room c shallow' k w where
  small d low := weaker d (room.small d low)
  collapsed light := (room.collapsed light).mono fun _ inside t found d low => weaker d (inside t found d low)

theorem reaches_growth (bound : c.expansionBound = .ok (some l)) (level : Int) (w : Nat) :
    Reaches c (· ≤ l.growth (l.growth w)) k level w where
  small _ low := low.trans ((l.le_growth w).trans (l.le_growth _))
  rounds _ := (room_growth bound w).mono fun _ low => low.trans (l.le_growth _)
  expanded _ _ light := (collapse?_room bound _).mono fun _ small t found =>
    (room_growth bound t.weight).mono fun _ low =>
      low.trans (l.growth_mono ((small t found).trans (l.room_mono light.small)))

end Reach

end Expr
end ComputerAlgebra

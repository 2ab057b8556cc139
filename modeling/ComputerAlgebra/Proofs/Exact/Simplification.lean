import ComputerAlgebra.Proofs.Exact.Total
import ComputerAlgebra.Proofs.Simplification.Rounds

/-!
Simplification of arithmetic on exact numbers without variables. The first pass comes to an end, and
where the value is an exact finite number it finds it at the outermost operator; there is nothing
left to rewrite.
-/

namespace ComputerAlgebra.Expr

variable {c : Config}

/-- A replacement that is the number of a closed expression wherever that is exact and finite. -/
structure Settles (c : Config) (e r : Expr) : Prop where
  shrinks : Shrinks e r
  exact : ∀ z : Number, z.Exact → z.isFinite = true → Returns (closedValue c e) (· = z) → r = .num z

/-- What the pass finds for a closed expression: its number, and what takes its place. -/
structure Settled (c : Config) (e : Expr) (r : Reduced) : Prop where
  value : r.value.run = .num <$> closedValue c e
  settles : Settles c e r.simplified

theorem exactValue?_num (self : Expr) (z : Number) :
    (∀ r, exactValue? self (.num z) = some r → r = .num z ∧ z.Exact) ∧
      (z.Exact → z.isFinite = true → exactValue? self (.num z) = some (.num z)) := by
  constructor
  · intro r found
    obtain ⟨holds, same⟩ := Option.ite_none_right_eq_some.mp found
    exact ⟨(Option.some.inj same).symm, ((Bool.and_eq_true _ _).mp holds).1⟩
  · intro exact finite
    have defined : z.isNaN = false := by
      rcases z with (q | x | s | _) | ⟨re, im⟩
      · rfl
      · rfl
      · rfl
      · cases finite
      · rfl
    have exact' : z.isExact = true := exact
    simp [exactValue?, exact', defined]

theorem closedValue_fits {op : BinaryOp} {a b : Expr} :
    Returns (closedValue c (.binary op a b)) fun z =>
      z.isFinite = true → numberFits z c.codomain = true := by
  refine Returns.bind Returns.trivial fun x _ => ?_
  exact Returns.bind Returns.trivial fun y _ => literalValue_fits

theorem confine_shrinks {e r : Expr} (closed : IsClosedArithmetic e) (shrinks : Shrinks e r) :
    Shrinks e (confine c e r e) := by
  unfold confine
  split
  · exact .num rfl
  split
  · exact shrinks
  · exact .refl closed

theorem closed_unconditioned {e : Expr} (closed : IsClosedArithmetic e) : e.condition = none := by
  cases closed <;> rfl

section Usable
variable (usable : c.Usable)
include usable

theorem simplifyNode_settles (again : Expr → Computation Expr) {op : BinaryOp} {a b a' b' : Expr}
    (closed : IsClosedArithmetic (.binary op a b))
    (shallow : (Expr.binary op a b).checkDepth c = .ok ()) (first : Shrinks a a')
    (second : Shrinks b b') :
    Succeeds (simplifyNode c again (.binary op a b)
      (.num <$> closedValue c (.binary op a b)) [a', b']) (Settles c (.binary op a b)) := by
  have known : op ∈ BinaryOp.arithmetic := by
    cases closed with
    | operation known => exact known
  have rebuilt : Shrinks (.binary op a b) (.binary op a' b') :=
    .operation known first.closed second.closed (first.depth.trans_lt depth_left)
      (second.depth.trans_lt depth_right)
  have only : Returns (closedValue c (.binary op a b)) fun y =>
      ∀ z, Returns (closedValue c (.binary op a b)) (· = z) → y = z :=
    fun u y w ran z computed => computed u y w ran
  have number := (closedValue_succeeds usable closed).of_returns (closedValue_fits.and only)
  have value : Succeeds (Expr.num <$> closedValue c (.binary op a b)) fun r => ∃ y, r = .num y ∧
      (y.isFinite = true → numberFits y c.codomain = true) ∧
      ∀ z, Returns (closedValue c (.binary op a b)) (· = z) → y = z :=
    Succeeds.map (number.mono fun y both => ⟨y, rfl, both.2⟩)
  simp only [simplifyNode]
  refine Succeeds.bind value ?_
  rintro _ ⟨y, rfl, inside, same⟩
  obtain ⟨some_number, found⟩ := exactValue?_num (.binary op a b) y
  cases answer : exactValue? (.binary op a b) (.num y) with
  | some r =>
    obtain ⟨rfl, exact⟩ := some_number r answer
    refine Succeeds.pure ⟨confine_shrinks closed (.num exact), fun z _ finite computed => ?_⟩
    obtain rfl := same z computed
    refine confine_eq rfl ?_
    rw [arithmetic_codomain known]
    exact inside finite
  | none =>
    have rule : Succeeds (simplificationRule c again (.binary op a b) [a', b'])
        fun r => ∀ e, r = some e → Shrinks (.binary op a b) e := by
      have reduces := simplifyBinary?_reduces usable known first.closed second.closed
        (checkDepth_mono shallow rebuilt.depth)
      exact reduces.mono fun r shrinks e result =>
        ⟨(shrinks e result).closed, (shrinks e result).depth.trans rebuilt.depth⟩
    have bare : ∀ part ∈ [a', b'], part.condition = none := by
      intro part member
      rcases List.mem_pair.mp member with rfl | rfl
      · exact closed_unconditioned first.closed
      · exact closed_unconditioned second.closed
    refine Succeeds.bind (liftConditions_plain .succeeds (.binary op a b) bare rule rebuilt _) ?_
    intro r shrinks
    refine Succeeds.pure ⟨confine_shrinks closed shrinks, fun z exact finite computed => ?_⟩
    obtain rfl := same z computed
    rw [found exact finite] at answer
    cases answer

theorem foldM_reduceNode {again : Expr → Computation Expr} {e : Expr}
    (closed : IsClosedArithmetic e) : e.checkDepth c = .ok () → Succeeds (foldM (reduceNode c again) e) (Settled c e) := by
  induction closed with
  | @num y exact =>
    intro _
    rw [foldM]
    refine Succeeds.get fun u => Succeeds.pure ⟨?_, .refl (.num exact), fun z _ _ computed => ?_⟩
    · rw [Tabulated.run_of]
      rfl
    · exact congrArg Expr.num (computed u y u rfl)
  | @operation op a b known left right iha ihb =>
    intro shallow
    rw [foldM]
    refine Succeeds.bind (iha (checkDepth_mono shallow depth_left.le)) fun p first => ?_
    refine Succeeds.bind (ihb (checkDepth_mono shallow depth_right.le)) fun q second => ?_
    have value : (do evaluateNode c (evaluate c) (.binary op a b) (← [p, q].mapM (·.value.run))) =
        .num <$> closedValue c (.binary op a b) := by
      simp only [List.mapM_cons, List.mapM_nil, first.value, second.value, closedValue,
        bind_assoc, pure_bind, bind_map_left, map_bind, evaluateNode_literal (evaluate c) known]
    unfold reduceNode
    refine Succeeds.get fun u => ?_
    simp only [Tabulated.run_of, value]
    have simplified := simplifyNode_settles usable again (.operation known left right) shallow
      first.settles.shrinks second.settles.shrinks
    exact Succeeds.bind simplified fun r settles => Succeeds.pure ⟨Tabulated.run_of c u _, settles⟩

theorem innerSimplified_exact {e : Expr} (closed : IsClosedArithmetic e)
    (shallow : e.checkDepth c = .ok ()) {z : Number} (exact : z.Exact) (finite : z.isFinite = true)
    (computed : Returns (closedValue c e) (· = z)) :
    Succeeds (innerSimplified c e) (· = .num z) := by
  refine Succeeds.bind (P := fun _ => True) (Succeeds.lift shallow trivial) fun _ _ => ?_
  refine Succeeds.bind (foldM_reduceNode usable closed shallow) fun r settled => Succeeds.pure ?_
  exact settled.settles.exact z exact finite computed

theorem simplify_exact {e : Expr} (closed : IsClosedArithmetic e) {z : Number} (exact : z.Exact)
    (finite : z.isFinite = true) {u w : FloatUnit} (value : e.evaled c u = .ok (.num z) w)
    (level : Int) : Succeeds (e.simplify c level) (· = .num z) := by
  have shallow := (evaled_ok value).1
  have computed := closedValue_of_evaled closed value
  intro v
  cases closed with
  | @num y _ =>
    exact ⟨.num y, v, simplify_leaf shallow rfl level v, congrArg Expr.num (computed v y v rfl)⟩
  | operation known left right =>
    obtain ⟨_, w', reduced, rfl⟩ :=
      innerSimplified_exact usable (.operation known left right) shallow exact finite computed v
    exact ⟨_, w', simplify_settled reduced (by simp [children]) rfl level, rfl⟩

end Usable

/-- Simplification keeps an exact value. Where arithmetic on exact numbers evaluates to an exact
finite number under the default settings, simplification at every level ends with that number, and
it evaluates to itself. -/
theorem exact_value_simplified {e : Expr} (closed : IsClosedArithmetic e) {z : Number}
    (exact : z.Exact) (finite : z.isFinite = true) {u w : FloatUnit}
    (value : e.evaled .default u = .ok (.num z) w) (level : Int) (v : FloatUnit) :
    ∃ v', e.simplify .default level v = .ok (.num z) v' ∧
      (Expr.num z).evaled .default v' = .ok (.num z) v' := by
  obtain ⟨_, v', simplified, rfl⟩ :=
    simplify_exact Config.default_usable closed exact finite value level v
  exact ⟨v', simplified, rfl⟩

/-- A quotient of a fractional power by a difference. -/
theorem exact_value_simplified_quotient :
    ∃ e : Expr, e = .binary .div (.binary .pow (.num (.ofInt 8)) (.num (.ofRat (2 / 3))))
        (.binary .minus (.num (.ofRat (1 / 3))) 1) ∧
      IsClosedArithmetic e ∧ (Number.ofInt (-6)).Exact ∧ (Number.ofInt (-6)).isFinite = true ∧
      e.evaled .default ⟨50⟩ = .ok (.num (.ofInt (-6))) ⟨50⟩ ∧
      ∀ level v, ∃ v', e.simplify .default level v = .ok (.num (.ofInt (-6))) v' ∧
        (Expr.num (.ofInt (-6))).evaled .default v' = .ok (.num (.ofInt (-6))) v' := by
  let e : Expr := .binary .div (.binary .pow (.num (.ofInt 8)) (.num (.ofRat (2 / 3))))
    (.binary .minus (.num (.ofRat (1 / 3))) 1)
  have closed : IsClosedArithmetic e :=
    .operation (by decide) (.operation (by decide) (.num rfl) (.num rfl))
      (.operation (by decide) (.num rfl) (.num rfl))
  have value : e.evaled .default ⟨50⟩ = .ok (.num (.ofInt (-6))) ⟨50⟩ := by decide +kernel
  exact ⟨e, rfl, closed, rfl, rfl, value, fun level =>
    exact_value_simplified closed rfl rfl value level⟩

/-- The product of two sixth roots of minus eight, which is `1 + √3 i` on the principal branch. -/
def sixthRootSquare : Expr :=
  .binary .mul (.binary .pow (.num (.ofInt (-8))) (.num (.ofRat (1 / 6))))
    (.binary .pow (.num (.ofInt (-8))) (.num (.ofRat (1 / 6))))

/-- Merging powers may leave the principal branch. The product of two sixth roots of minus eight and
what simplification makes of it are within three of zero, but not within two of each other. -/
theorem sixthRootSquare_changes_branch :
    IsClosedArithmetic sixthRootSquare ∧ Config.default.equalityBound = .ok (1 / 1000000) ∧
    ∀ level ∈ [1, 2, -1], (do
      let z ← sixthRootSquare.evalNumber .default
      let w ← (← sixthRootSquare.simplify .default level).evalNumber .default
      return [z.isFinite, w.isFinite, ← z.closeWithin .default (.ok 3) 0,
        ← w.closeWithin .default (.ok 3) 0, ← z.closeWithin .default (.ok 2) w]) ⟨100⟩ =
      .ok [true, true, true, true, false] ⟨100⟩ := by
  refine ⟨?_, by decide +kernel, by decide +kernel⟩
  have root : IsClosedArithmetic
      (.binary .pow (.num (.ofInt (-8))) (.num (.ofRat (1 / 6)))) :=
    .operation (by decide) (.num rfl) (.num rfl)
  exact .operation (by decide) root root

end ComputerAlgebra.Expr

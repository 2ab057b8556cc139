import ComputerAlgebra.Proofs.Complex.Rewrite
import ComputerAlgebra.Proofs.Limit.Refusal
import ComputerAlgebra.Proofs.Semantics.Sorting
import ComputerAlgebra.Proofs.Termination.Passes

/-!
The passes over elementary expressions. What the passes other than sorting do at a node is to leave it or to
rewrite it, and what holds of all rewritings holds of them. Only collection and the merging of powers ask
whether something is zero, and only of parts of the node.
-/

namespace ComputerAlgebra.Expr

variable {c : Config}

def Rewritten (e r : Expr) : Prop := r = e ∨ Rewrite e r

section Rules
variable {a b e : Expr}

theorem splitFactor_multiple (given : IsElementary e) :
    ∃ m, (splitFactor e).1 = .ofGaussian m ∧ Multiple e m (splitFactor e).2 := by
  have whole : ∃ m, (1 : Number) = .ofGaussian m ∧ Multiple e m e := ⟨1, rfl, .single e⟩
  unfold splitFactor
  split
  · next z x =>
    split
    · obtain ⟨m, rfl⟩ := isElementary_num.mp (elementary_binary.mp given).2.1
      exact ⟨m, rfl, .scaled m x⟩
    · exact whole
  · exact whole

theorem splitPower_powered (e : Expr) : Powered e (splitPower e).1 (splitPower e).2 := by
  unfold splitPower
  split
  · exact .pow _ _
  · exact .single e

def Rewrites (e : Expr) (rule : Computation (Option Expr)) : Prop :=
  Succeeds rule fun r => ∀ t, r = some t → Rewrite e t

theorem Rewrites.none : Rewrites e (pure Option.none) := Succeeds.pure (by simp)

theorem Rewrites.some {t : Expr} (rewrite : Rewrite e t) : Rewrites e (pure (Option.some t)) :=
  Succeeds.pure (by rintro _ ⟨rfl⟩; exact rewrite)

theorem likeTerms?_rewrites (given : IsElementary e) : Rewrites e (likeTerms? c e) := by
  have collected {combine : Number → Number → Computation Number} {f : Gaussian → Gaussian → Gaussian}
      (exact_on : ∀ m n, combine (.ofGaussian m) (.ofGaussian n) = pure (.ofGaussian (f m n))) {a b : Expr}
      (left : IsElementary a) (right : IsElementary b)
      (rewrite : ∀ {x m n}, Multiple a m x → Multiple b n x → Rewrite e (scaled (.ofGaussian (f m n)) x)) :
      Rewrites e (
        if a.isNumber || b.isNumber || (splitFactor a).2 ≠ (splitFactor b).2 then return none
        else return some (scaled (← combine (splitFactor a).1 (splitFactor b).1) (splitFactor a).2)) := by
    obtain ⟨m, first, multiple⟩ := splitFactor_multiple left
    obtain ⟨n, second, multiple'⟩ := splitFactor_multiple right
    split
    · exact .none
    · next alike =>
      have same : (splitFactor a).2 = (splitFactor b).2 := by
        by_contra different
        simp [different] at alike
      rw [← same] at multiple'
      rw [first, second, exact_on, pure_bind]
      exact .some (rewrite multiple multiple')
  unfold likeTerms?
  dsimp only
  split
  · obtain ⟨-, left, right⟩ := elementary_binary.mp given
    exact collected (Number.add_ofGaussian c) left right .collectSum
  · obtain ⟨-, left, right⟩ := elementary_binary.mp given
    exact collected (Number.sub_ofGaussian c) left right .collectMinus
  · exact .none

theorem opposite?_eq {e x : Expr} (found : opposite? e = some x) : e = opposite x := by
  unfold opposite? at found
  split at found
  · next m y =>
    simp only [Option.ite_none_right_eq_some, Option.some.injEq] at found
    rw [of_decide_eq_true found.1, found.2]
  · cases found

theorem negativeNumber?_eq (given : IsElementary e) {r : RealNumber} (found : negativeNumber? e = some r) :
    ∃ g : Gaussian, e = .num (.ofGaussian g) ∧ ∃ r' : RealNumber, r.neg = pure r' ∧ .real r' = Number.ofGaussian (-g) := by
  unfold negativeNumber? at found
  split at found
  · simp only [Option.ite_none_right_eq_some, Option.some.injEq] at found
    obtain ⟨-, rfl⟩ := found
    obtain ⟨g, same⟩ := isElementary_num.mp given
    by_cases real : g.im = 0
    · rw [Number.ofGaussian_real real] at same
      cases same
      refine ⟨g, by rw [Number.ofGaussian_real real, Number.ofRat], _, RealNumber.neg_rational g.re, ?_⟩
      rw [Number.ofGaussian_real (by simpa using real)]
      rfl
    · rw [Number.ofGaussian_complex real] at same
      cases same
  · cases found

theorem signs?_rewrites (given : IsElementary e) : Rewrites e (signs? e) := by
  unfold signs?
  split
  · next a b =>
    obtain ⟨-, -, right⟩ := elementary_binary.mp given
    split
    · next x found =>
      rw [opposite?_eq found]
      exact .some (.sumOpposite a x)
    · next r _ _ found =>
      obtain ⟨g, rfl, r', opposite, negated⟩ := negativeNumber?_eq right found
      rw [opposite, pure_bind, negated]
      exact .some (.sumNumber a g)
    · next x _ _ found =>
      rw [opposite?_eq found]
      exact .some (.oppositeSum x b)
    · exact .none
  · next a b =>
    obtain ⟨-, -, right⟩ := elementary_binary.mp given
    split
    · next x found =>
      rw [opposite?_eq found]
      exact .some (.minusOpposite a x)
    · next r _ found =>
      obtain ⟨g, rfl, r', opposite, negated⟩ := negativeNumber?_eq right found
      rw [opposite, pure_bind, negated]
      exact .some (.minusNumber a g)
    · exact .none
  · next m inner =>
    split
    · exact .none
    next unit =>
    obtain rfl : m = minusOne := of_decide_eq_true (by simpa [isMinusOne] using unit)
    split
    · next x found =>
      rw [opposite?_eq found]
      exact .some (.oppositeOpposite x)
    · next a b _ => exact .some (.oppositeMinus a b)
    · exact .none
  · exact .none

end Rules

section Guarded
variable {R : Fault → Prop} {G : Expr → Prop} {a b e : Expr}

/-- Asking whether expressions of a kind are zero has no other faults. They are elementary, and their parts are of
the kind as well. -/
structure Asks (c : Config) (R : Fault → Prop) (G : Expr → Prop) : Prop where
  elementary : ∀ {e}, G e → IsElementary e
  part : ∀ {e part}, G e → part ∈ e.children → G part
  permitted : ∀ {e}, G e → Permitted R (nonzero c e) fun _ => True

theorem Powered.kept {x p : Expr} (powered : Powered a x p) (part : ∀ {e part}, G e → part ∈ e.children → G part)
    (given : G a) : G x := by
  cases powered with
  | single => exact given
  | pow => exact part given (by simp [children])

/-- Rules that ask give rewritings of the node, or nothing. -/
def Proposes (R : Fault → Prop) (e : Expr) (rule : Computation (Option Expr)) : Prop :=
  Permitted R rule fun r => ∀ t, r = some t → Rewrite e t

theorem Proposes.of_rewrites {rule : Computation (Option Expr)} (rewrites : Rewrites e rule) :
    Proposes R e rule :=
  .of_succeeds rewrites

theorem Proposes.none : Proposes R e (pure Option.none) := .of_rewrites .none

theorem Proposes.some {t : Expr} (rewrite : Rewrite e t) : Proposes R e (pure (Option.some t)) :=
  .of_rewrites (.some rewrite)

/-- Exponents are combined, numbers at once and all others in a node, and put to use. -/
theorem combined_succeeds {op : BinaryOp} {f : Gaussian → Gaussian → Gaussian}
    {combine : Number → Number → Computation Number}
    (exact_on : ∀ m n, combine (.ofGaussian m) (.ofGaussian n) = pure (.ofGaussian (f m n))) {p q : Expr}
    (left : IsElementary p) (right : IsElementary q) (use : Expr → Expr) :
    Succeeds (match p, q with
      | .num x, .num y => do return use (.num (← combine x y))
      | p, q => return use (.binary op p q)) fun r => ∃ t, Combined op f p q t ∧ r = use t := by
  split
  · obtain ⟨m, rfl⟩ := isElementary_num.mp left
    obtain ⟨n, rfl⟩ := isElementary_num.mp right
    rw [exact_on, pure_bind]
    exact .pure ⟨_, .numbers m n, rfl⟩
  · next symbolic =>
    refine .pure ⟨_, .node ?_, rfl⟩
    cases p <;> cases q <;> first | rfl | exact absurd rfl (symbolic _ _ rfl)

theorem product_succeeds (k : Int) {p : Expr} (given : IsElementary p) :
    Succeeds (match p with
      | .num x => do return .num (← x.mul c (Number.ofInt k))
      | p => return .binary .mul (.num (.ofInt k)) p) (Combined .mul (· * ·) (.num (.ofInt k)) p) := by
  split
  · obtain ⟨g, rfl⟩ := isElementary_num.mp given
    rw [← Number.ofGaussian_intCast, Number.mul_ofGaussian, pure_bind, mul_comm]
    exact .pure (.numbers _ g)
  · next symbolic =>
    refine .pure (.node ?_)
    cases p <;> first | rfl | exact absurd rfl (symbolic _)

variable (asks : Asks c R G)
include asks

theorem guardedPower?_proposes {safe : Bool} {base : Expr} {exponent : Computation Expr} (given : G base)
    (combined : Succeeds exponent fun r => Rewrite e (.binary .pow base r)) :
    Proposes R e (guardedPower? c safe base exponent) := by
  have power : Proposes R e (do return some (.binary .pow base (← exponent))) :=
    .of_succeeds (combined.bind fun r rewrite => .pure (by rintro _ ⟨rfl⟩; exact rewrite))
  unfold guardedPower?
  cases safe with
  | true => exact power
  | false =>
    rw [if_neg (by simp)]
    refine (asks.permitted given).bind fun found _ => ?_
    dsimp only
    split
    · exact power
    · exact Proposes.none

theorem mergePowers?_proposes (given : G e) : Proposes R e (mergePowers? c e) := by
  unfold mergePowers?
  split
  · next a b =>
    obtain ⟨-, left, right⟩ := elementary_binary.mp (asks.elementary given)
    have powered := splitPower_powered a
    have powered' := splitPower_powered b
    obtain ⟨-, exponent⟩ := powered.elementary left
    obtain ⟨-, exponent'⟩ := powered'.elementary right
    dsimp only
    split
    · exact Proposes.none
    · next alike =>
      have same : (splitPower a).1 = (splitPower b).1 := by
        by_contra different
        simp [different] at alike
      rw [← same] at powered'
      refine guardedPower?_proposes asks (powered.kept asks.part (asks.part given (by simp [children]))) ?_
      refine (combined_succeeds (Number.add_ofGaussian c) exponent exponent' id).mono ?_
      rintro _ ⟨t, combined, rfl⟩
      exact .mergePowers powered powered' combined
  · next base p m =>
    split
    · next k whole =>
      rw [integer?_eq_some.mp whole] at given ⊢
      have inner : G (.binary .pow base p) := asks.part given (by simp [children])
      have exponent := (elementary_binary.mp (asks.elementary inner)).2.2
      refine guardedPower?_proposes asks (asks.part inner (by simp [children])) ?_
      exact (product_succeeds k exponent).mono fun r combined => .powerOfPower base combined
    · exact Proposes.none
  · exact Proposes.none

theorem flattenDivision?_proposes (given : G e) : Proposes R e (flattenDivision? c e) := by
  unfold flattenDivision?
  split
  · next x y b => exact Proposes.some (.quotientOver x y b)
  · next a b _ =>
    have divisor : G b := asks.part given (by simp [children])
    have inverted : Proposes R (.binary .div a b) (invertedQuotient? c a b) := by
      unfold invertedQuotient?
      split
      · next x y =>
        refine (asks.permitted (asks.part divisor (by simp [children]))).bind fun found _ => ?_
        split
        · exact Proposes.some (.overQuotient a x y)
        · exact Proposes.none
      · exact Proposes.none
    have cancelled : Proposes R (.binary .div a b) (cancelled? c b a) := by
      unfold cancelled?
      split
      · next x y _ =>
        refine (asks.permitted divisor).bind fun found _ => ?_
        split
        · exact Proposes.none
        split
        · next same => exact same ▸ Proposes.some (.cancelFirst x y)
        split
        · next same => exact same ▸ Proposes.some (.cancelSecond x y)
        · exact Proposes.none
      · exact Proposes.none
    refine inverted.bind fun r holds => ?_
    split
    · next flat => exact Proposes.some (holds flat rfl)
    · exact cancelled
  · exact Proposes.none

theorem commonNode_rewritten (given : G e) : Permitted R (commonNode c e) (Rewritten e) := by
  have first {rule : Computation (Option Expr)} {others : Computation Expr} (proposes : Proposes R e rule)
      (rest : Permitted R others (Rewritten e)) :=
    firstOf_holds (.permitted R) (Permitted.mono proposes fun _ holds t found => .inr (holds t found)) rest
  unfold commonNode
  refine first (.of_rewrites (likeTerms?_rewrites (asks.elementary given))) ?_
  refine first (.of_rewrites (signs?_rewrites (asks.elementary given))) ?_
  refine first (mergePowers?_proposes asks given) ?_
  refine first (flattenDivision?_proposes asks given) ?_
  exact .of_succeeds (.pure (.inl rfl))

theorem powerNode_rewritten (given : G e) : Permitted R (powerNode c e) (Rewritten e) := by
  have stays : Permitted R (pure e) (Rewritten e) := .of_succeeds (.pure (.inl rfl))
  unfold powerNode
  split
  · next a m b n =>
    refine .of_succeeds (.pure ?_)
    split
    · next same =>
      simp only [Bool.and_eq_true, decide_eq_true_eq] at same
      obtain ⟨whole, rfl⟩ := same
      obtain ⟨k, found⟩ := Option.isSome_iff_exists.mp whole
      rw [integer?_eq_some.mp found]
      exact .inr (.productOfPowers a b k)
    · exact .inl rfl
  · next a b =>
    obtain ⟨-, left, right⟩ := elementary_binary.mp (asks.elementary given)
    have powered := splitPower_powered a
    have powered' := splitPower_powered b
    obtain ⟨-, exponent⟩ := powered.elementary left
    obtain ⟨-, exponent'⟩ := powered'.elementary right
    have base := powered.kept asks.part (asks.part given (by simp [children]))
    dsimp only
    split
    · next alike =>
      simp only [Bool.and_eq_true, decide_eq_true_eq] at alike
      have same := alike.1.2
      rw [← same] at powered'
      refine (asks.permitted base).bind fun found _ => ?_
      split
      · refine .of_succeeds ((combined_succeeds (Number.sub_ofGaussian c) exponent exponent'
          (.binary .pow (splitPower a).1)).mono ?_)
        rintro _ ⟨t, combined, rfl⟩
        exact .inr (.quotientOfPowers powered powered' combined)
      · exact stays
    · exact stays
  · exact stays

end Guarded

section Unguarded
variable {e : Expr}

theorem squareOf?_eq {f : Circular} {a x : Expr} (found : squareOf? f a = some x) :
    a = .binary .pow (.unary (.circular f) x) 2 := by
  unfold squareOf? at found
  split at found
  · simp only [Option.ite_none_right_eq_some, Option.some.injEq] at found
    obtain ⟨⟨rfl, rfl⟩, rfl⟩ := found
    rfl
  · cases found

theorem isPythagorean_eq {a b : Expr} (found : isPythagorean a b = true) :
    ∃ x, a = .binary .pow (sine x) 2 ∧ b = .binary .pow (cosine x) 2 := by
  unfold isPythagorean at found
  split at found
  · next x y first second =>
    obtain rfl : x = y := of_decide_eq_true found
    exact ⟨x, squareOf?_eq first, squareOf?_eq second⟩
  · cases found

theorem circularNode_rewritten (e : Expr) : Rewritten e (circularNode e) := by
  unfold circularNode
  split
  · next a b =>
    split
    · next found =>
      rcases (Bool.or_eq_true _ _).mp found with found | found
      · obtain ⟨x, rfl, rfl⟩ := isPythagorean_eq found
        exact .inr (.pythagoras x)
      · obtain ⟨x, rfl, rfl⟩ := isPythagorean_eq found
        exact .inr (.pythagorasTurned x)
    · exact .inl rfl
  · next x y =>
    split
    · next same => exact same ▸ .inr (.tangent x)
    · exact .inl rfl
  · next x y =>
    split
    · next same => exact same ▸ .inr (.cotangent x)
    · exact .inl rfl
  · next a x _ =>
    split
    · next one => exact of_decide_eq_true one ▸ .inr (.secant x)
    · exact .inl rfl
  · next a x _ =>
    split
    · next one => exact of_decide_eq_true one ▸ .inr (.cosecant x)
    · exact .inl rfl
  · next m x =>
    split
    · next unit =>
      obtain rfl : m = minusOne := of_decide_eq_true unit
      exact .inr (.sineOdd x)
    · exact .inl rfl
  · next m x =>
    split
    · next unit =>
      obtain rfl : m = minusOne := of_decide_eq_true unit
      exact .inr (.cosineEven x)
    · exact .inl rfl
  · exact .inl rfl

theorem booleanNode_eq (given : IsElementary e) : booleanNode e = e := by
  cases given with
  | num | var | circular => rfl
  | binary arithmetic =>
    simp only [List.mem_cons, List.not_mem_nil, or_false] at arithmetic
    rcases arithmetic with rfl | rfl | rfl | rfl | rfl <;> rfl

end Unguarded

/-- The second expression is elementary when the first is, and means the same wherever the first means anything. -/
structure Refines (e r : Expr) : Prop where
  elementary : IsElementary e → IsElementary r
  meaning : ∀ s v, meaning? s e = some v → meaning? s r = some v

structure Congruence (T : Expr → Expr → Prop) : Prop where
  refl : ∀ e, T e e
  trans : ∀ {e r t}, T e r → T r t → T e t
  circular : ∀ {f a a'}, T a a' → T (.unary (.circular f) a) (.unary (.circular f) a')
  binary : ∀ {op a b a' b'}, T a a' → T b b' → T (.binary op a b) (.binary op a' b')

theorem refines_congruence : Congruence Refines where
  refl _ := ⟨id, fun _ _ => id⟩
  trans first second := ⟨second.elementary ∘ first.elementary, fun s v value => second.meaning s v (first.meaning s v value)⟩
  circular argument := by
    refine ⟨fun given => ?_, fun s v value => ?_⟩
    · obtain ⟨direct, inner⟩ := elementary_circular.mp given
      exact .circular direct (argument.elementary inner)
    · obtain ⟨x, inner, result⟩ := meaning?_circular.mp value
      exact meaning?_circular.mpr ⟨x, argument.meaning s x inner, result⟩
  binary left right := by
    refine ⟨fun given => ?_, fun s v value => ?_⟩
    · obtain ⟨arithmetic, first, second⟩ := elementary_binary.mp given
      exact .binary arithmetic (left.elementary first) (right.elementary second)
    · obtain ⟨x, first, y, second, result⟩ := meaning?_binary.mp value
      exact meaning?_binary.mpr ⟨x, left.meaning s x first, y, right.meaning s y second, result⟩

theorem Rewritten.refines {e r : Expr} (rewritten : Rewritten e r) : Refines e r := by
  rcases rewritten with rfl | rewrite
  · exact refines_congruence.refl r
  · exact ⟨rewrite.elementary, fun _ _ => rewrite.meaning⟩

/-- The second expression refines the first one, has no more nodes and nests no more divisors. -/
structure Improves (e r : Expr) : Prop where
  refines : Refines e r
  fewer : r.complexity ≤ e.complexity
  shallower : r.nesting 0 ≤ e.nesting 0

theorem improves_congruence : Congruence Improves where
  refl e := ⟨refines_congruence.refl e, le_rfl, le_rfl⟩
  trans first second := ⟨refines_congruence.trans first.refines second.refines, second.fewer.trans first.fewer,
    second.shallower.trans first.shallower⟩
  circular argument := by
    have fewer := argument.fewer
    have shallower := argument.shallower
    refine ⟨refines_congruence.circular argument.refines, ?_, ?_⟩
    · simp only [complexity_unary]
      omega
    · simp only [nesting_unary]
      omega
  binary left right := by
    have fewer := left.fewer
    have fewer' := right.fewer
    have shallower := left.shallower
    have shallower' := right.shallower
    refine ⟨refines_congruence.binary left.refines right.refines, ?_, ?_⟩
    · simp only [complexity_binary]
      omega
    · simp only [nesting_binary, ite_self]
      omega

theorem Rewritten.improves {e r : Expr} (rewritten : Rewritten e r) (merged : Merged e r) : Improves e r := by
  refine ⟨rewritten.refines, ?_, merged.nested (Nat.zero_le _)⟩
  rcases rewritten with rfl | rewrite
  · exact le_rfl
  · exact rewrite.complexity_le

/-- A pass has a relation between expressions and results that its function on nodes has, and that holds of a
node once it holds of the parts. -/
theorem replaceM_congruence (J : Judgment) {T : Expr → Expr → Prop} (congruence : Congruence T)
    {G : Expr → Prop} (elementary : ∀ {e}, G e → IsElementary e)
    (part : ∀ {e part}, G e → part ∈ e.children → G part) (kept : ∀ {e r}, G e → T e r → G r)
    {f : Expr → Computation Expr} (atNode : ∀ {e}, G e → J.Holds (f e) (T e)) {e : Expr} (good : G e) :
    J.Holds (replaceM f e) (T e) := by
  refine foldM_holds J (P := G) (fun good p member => part good member) (fun {e parts} good related => ?_) good
  have walk {r : Expr} (first : T e r) : J.Holds (f r) (T e) :=
    J.mono (atNode (kept good first)) fun _ second => congruence.trans first second
  cases elementary good with
  | num | var =>
    obtain rfl := List.forall₂_nil_left_iff.mp related
    exact atNode good
  | circular =>
    obtain ⟨a', rest, argument, none_left, rfl⟩ := List.forall₂_cons_left_iff.mp related
    obtain rfl := List.forall₂_nil_left_iff.mp none_left
    exact walk (congruence.circular argument)
  | binary =>
    obtain ⟨a', rest, left, others, rfl⟩ := List.forall₂_cons_left_iff.mp related
    obtain ⟨b', rest, right, none_left, rfl⟩ := List.forall₂_cons_left_iff.mp others
    obtain rfl := List.forall₂_nil_left_iff.mp none_left
    exact walk (congruence.binary left right)

section Passes
variable {R : Fault → Prop} {e : Expr}

theorem sortNode_refines (given : IsElementary e) : Succeeds (sortNode c e) (Refines e) := by
  have elementary : Succeeds (sortNode c e) IsElementary := sortNode_value isElementary_ring (v := ()) given
  have meanings : Returns (sortNode c e) fun r => ∀ s v, meaning? s e = some v → meaning? s r = some v :=
    Returns.all fun s => Returns.all fun v => Returns.all fun value =>
      (sortNode_value (meaning?_ring s) value).returns
  exact (elementary.of_returns meanings).mono fun r both => ⟨fun _ => both.1, both.2⟩

/-- Sorting, the circular identities and those of connectives never fail. -/
theorem pass_refines {pass : Pass} (silent : pass ≠ .common ∧ pass ≠ .power) (given : IsElementary e) :
    Succeeds (pass.run c e) (Refines e) := by
  refine replaceM_congruence .succeeds refines_congruence id Elementary.part
    (fun good refines => refines.elementary good) (fun {r} good => ?_) given
  cases pass with
  | sort => exact sortNode_refines good
  | common => exact absurd rfl silent.1
  | power => exact absurd rfl silent.2
  | circular => exact .pure (circularNode_rewritten r).refines
  | boolean =>
    refine .pure ?_
    rw [booleanNode_eq good]
    exact refines_congruence.refl r

/-- Collection and the merging of powers have the faults of asking whether something with no more nodes and divisors
inside each other is zero. -/
theorem pass_improves {pass : Pass} {n k : Nat} (asking : pass = .common ∨ pass = .power)
    (asked : ∀ t, IsElementary t → t.complexity ≤ n → t.nesting 0 ≤ k → Permitted R (nonzero c t) fun _ => True)
    (given : IsElementary e) (small : e.complexity ≤ n) (shallow : e.nesting 0 ≤ k) :
    Permitted R (pass.run c e) (Improves e) := by
  have asks : Asks c R fun t => IsElementary t ∧ t.complexity ≤ n ∧ t.nesting 0 ≤ k :=
    { elementary := And.left
      part := fun good member => ⟨good.1.part member, (complexity_child member).le.trans good.2.1,
        (nesting_part member).trans good.2.2⟩
      permitted := fun good => asked _ good.1 good.2.1 good.2.2 }
  have unsorted : pass ≠ .sort := by rcases asking with rfl | rfl <;> simp
  refine replaceM_congruence (.permitted R) improves_congruence asks.elementary asks.part
    (fun good improves => ⟨improves.refines.elementary good.1, improves.fewer.trans good.2.1,
      improves.shallower.trans good.2.2⟩) (fun {r} good => ?_) ⟨given, small, shallow⟩
  have node : Permitted R (pass.atNode c r) (Rewritten r) := by
    rcases asking with rfl | rfl
    · exact commonNode_rewritten asks good
    · exact powerNode_rewritten asks good
  exact Permitted.mono (node.and (Pass.atNode_merged unsorted r)) fun _ both => both.1.improves both.2

end Passes

end ComputerAlgebra.Expr

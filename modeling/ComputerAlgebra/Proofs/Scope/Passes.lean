import ComputerAlgebra.Proofs.Scope.Compositional
import ComputerAlgebra.Proofs.Polynomial.Reading
import ComputerAlgebra.Proofs.Simplification.Pass
import ComputerAlgebra.Simplification.Rounds

/-!
Simplification of nodes without a parameter. What its rules, its passes and the polynomial form make of
such a node has every compositional property that the parts of the node have; the tables of circular
functions hold nothing but numbers and their roots.
-/

namespace ComputerAlgebra.Expr.Compositional

variable {J : Judgment} {c : Config} {P Q : Expr → Prop} {a b e : Expr} (asking : Asking J c (Expr.evaluate c) Q)
  (comp : Compositional J c P)

section Angles
include comp

theorem sqrt (holds : P a) : P (sqrt a) := comp.binary.mpr ⟨holds, comp.exact rfl⟩

theorem rootOver (radicand denominator : Nat) : P (rootOver radicand denominator) := by
  unfold Expr.rootOver
  dsimp only
  split
  · exact comp.sqrt (comp.exact rfl)
  · exact comp.binary.mpr ⟨comp.sqrt (comp.exact rfl), comp.exact rfl⟩

theorem sineTable? (n : Nat) : Offers P (sineTable? n) := by
  unfold Expr.sineTable?
  split <;> first | exact .some (comp.exact rfl) | exact .some (comp.rootOver _ _) | exact .none

theorem tangentTable? (n : Nat) : Offers P (tangentTable? n) := by
  unfold Expr.tangentTable?
  split <;> first | exact .some (comp.exact rfl) | exact .some (comp.rootOver _ _) | exact .none

theorem oppositeValue (holds : P a) : P (oppositeValue a) := by
  unfold Expr.oppositeValue
  split
  · exact comp.exact rfl
  · exact comp.binary.mpr ⟨comp.exact rfl, holds⟩

theorem shiftedSine? (shift : Int) : Offers P (shiftedSine? a shift) := by
  unfold Expr.shiftedSine?
  intro e found
  obtain ⟨n, -, rest⟩ := Option.bind_eq_some_iff.mp found
  dsimp only at rest
  obtain ⟨value, entry, same⟩ := Option.bind_eq_some_iff.mp rest
  cases same
  have known := comp.sineTable? _ value entry
  split
  · exact comp.oppositeValue known
  · exact known

theorem tangentAt? (n : Nat) : Offers P (tangentAt? n) := by
  unfold Expr.tangentAt?
  refine .ite (fun _ => .none) fun _ => .ite (fun _ => ?_) fun _ => comp.tangentTable? n
  intro e found
  obtain ⟨value, entry, rfl⟩ := Option.map_eq_some_iff.mp found
  exact comp.oppositeValue (comp.tangentTable? _ value entry)

theorem reciprocal? (holds : P a) : Offers P (reciprocal? a) := by
  unfold Expr.reciprocal?
  split
  · intro e found
    obtain ⟨q, -, rest⟩ := Option.bind_eq_some_iff.mp found
    split at rest
    · cases rest
    · cases rest
      exact comp.exact rfl
  · exact .some (comp.binary.mpr ⟨comp.exact rfl, holds⟩)

/-- An exact value of a circular function is made of numbers alone. -/
theorem exactCircular? (f : Circular) : Offers P (exactCircular? f a) := by
  have reciprocal {r : Option Expr} (offered : Offers P r) : Offers P (r.bind Expr.reciprocal?) := by
    intro e found
    obtain ⟨value, entry, rest⟩ := Option.bind_eq_some_iff.mp found
    exact comp.reciprocal? (offered value entry) e rest
  have tangent {r : Option Nat} {at_ : Nat → Nat} :
      Offers P (r.bind fun n => Expr.tangentAt? (at_ n)) := by
    intro e found
    obtain ⟨n, -, rest⟩ := Option.bind_eq_some_iff.mp found
    exact comp.tangentAt? _ e rest
  unfold Expr.exactCircular?
  split
  · exact comp.shiftedSine? 0
  · exact comp.shiftedSine? 6
  · exact tangent
  · exact tangent
  · exact reciprocal (comp.shiftedSine? 6)
  · exact reciprocal (comp.shiftedSine? 0)
  · exact .none

end Angles

section Rules
include comp

/-- The value of a node that counts as exact is an exact number. -/
theorem exactValue? (self value : Expr) : Offers P (exactValue? self value) := by
  unfold Expr.exactValue?
  split
  · refine .ite (fun known => .some (comp.exact ?_)) fun _ => .none
    exact ((Bool.and_eq_true _ _).mp known).1
  · exact .none

theorem whenExact (r : Option Number) : Offers P (whenExact r) := by
  unfold Expr.whenExact
  split
  · exact .ite (fun known => .some (comp.exact known)) fun _ => .none
  · exact .none

theorem simplifyUnary? {op : UnaryOp} (holds : P a) : J.Holds (simplifyUnary? c op a) (Offers P) := by
  unfold Expr.simplifyUnary?
  split
  case h_1 => exact J.pure (.some (comp.bool _))
  case h_2 | h_3 => exact J.pure .none
  case h_4 => exact J.bind (comp.numeric.unary holds) fun r _ => J.pure (comp.whenExact r)
  case h_5 | h_6 => exact J.pure (.some holds)
  case h_7 m x _ =>
    have inner := comp.binary.mp holds
    exact J.pure (.ite (fun _ => .some (comp.unary.mpr inner.2)) fun _ => .none)
  case h_8 =>
    exact J.pure (.ite (fun _ => .some (comp.unary.mp holds)) fun _ => comp.exactCircular? _)
  case h_9 => exact J.pure (comp.exactCircular? _)
  case h_10 => exact J.pure .none

theorem negate (holds : P a) : J.Holds (negate c a) P := by
  unfold Expr.negate
  split
  · exact J.bind (comp.numeric.neg holds) fun _ known => J.pure known
  · exact J.pure (comp.binary.mpr ⟨comp.exact rfl, holds⟩)

omit comp in
include asking in
theorem validLogBase (asked : Q a) : J.Holds (validLogBase c a) fun _ => True := by
  unfold Expr.validLogBase Expr.evaled
  refine J.bind (P := fun _ => True) ?_ fun _ _ => ?_
  · exact J.bind (asking.checked asked) fun _ _ => asking.evaluated asked
  · split <;> exact J.pure trivial

include asking in
theorem simplifyIdentity? {op : BinaryOp} (first : Q a) (second : Q b) (left : P a) (right : P b) :
    J.Holds (simplifyIdentity? c op a b) (Offers P) := by
  have opposite {e : Expr} (holds : P e) :
      J.Holds (do return some (← Expr.negate c e)) (Offers P) :=
    J.bind (comp.negate holds) fun r kept => J.pure (.some kept)
  have guarded {m : Computation Bool} {yes no : Computation (Option Expr)}
      (test : J.Holds m fun _ => True) (first : J.Holds yes (Offers P))
      (second : J.Holds no (Offers P)) : J.Holds (do if ← m then yes else no) (Offers P) :=
    J.bind test fun _ _ => J.ite (fun _ => first) fun _ => second
  have nothing : J.Holds (pure none : Computation (Option Expr)) (Offers P) := J.pure .none
  have number {n : Nat} :
      J.Holds (pure (some (OfNat.ofNat n)) : Computation (Option Expr)) (Offers P) :=
    J.pure (.some (comp.exact rfl))
  have takeLeft : J.Holds (pure (some a) : Computation (Option Expr)) (Offers P) :=
    J.pure (.some left)
  have takeRight : J.Holds (pure (some b) : Computation (Option Expr)) (Offers P) :=
    J.pure (.some right)
  unfold Expr.simplifyIdentity?
  cases op <;> dsimp only
  case sum =>
    exact J.pure (.ite (fun _ => .some right) fun _ => .ite (fun _ => .some left) fun _ => .none)
  case minus => exact J.ite (fun _ => takeLeft) fun _ => J.ite (fun _ => opposite right) fun _ => nothing
  case mul =>
    have square : Offers P (if a = b then some (.binary .pow a 2) else none) :=
      .ite (fun _ => .some (comp.binary.mpr ⟨left, comp.exact rfl⟩)) fun _ => .none
    refine J.ite (fun _ => number) fun _ => J.ite (fun _ => takeRight) fun _ =>
      J.ite (fun _ => takeLeft) fun _ => ?_
    split
    · next m x =>
      refine J.ite (fun _ => J.pure (.some (comp.binary.mp right).2)) fun _ => ?_
      exact J.pure square
    · exact J.pure square
  case div =>
    have test : J.Holds (Expr.nonzero c b) fun _ => True := asking.provablyNonzero second
    have one : J.Holds (if a = b then do if ← Expr.nonzero c b then return some 1 else return none
        else return none) (Offers P) := J.ite (fun _ => guarded test number nothing) fun _ => nothing
    refine J.ite (fun _ => takeLeft) fun _ => J.ite (fun _ => opposite left) fun _ => ?_
    exact J.ite (fun _ => guarded test number one) fun _ => one
  case pow =>
    have inverse : P (.binary .div 1 a) := comp.binary.mpr ⟨comp.exact rfl, left⟩
    refine J.ite (fun _ => number) fun _ => J.ite (fun _ => takeLeft) fun _ => ?_
    refine J.ite (fun _ => J.pure (.some inverse)) fun _ => ?_
    exact J.ite (fun _ => guarded (asking.provablyPositive second) number nothing) fun _ => nothing
  case log =>
    exact J.ite (fun _ => number) fun _ => J.ite
      (fun _ => guarded (validLogBase asking first) number nothing) fun _ => nothing
  all_goals exact nothing

theorem exactOrder? {test : Comparison} (left : P a) (right : P b) :
    J.Holds (exactOrder? c test a b) fun _ => True := by
  unfold Expr.exactOrder?
  split
  · next x y first second =>
    refine J.ite (fun _ => ?_) fun _ => J.pure trivial
    refine J.bind (comp.numeric.holds _ (real? left first) (real? right second)) fun _ _ => ?_
    exact J.pure trivial
  · exact J.pure trivial

include asking in
theorem simplifyBinary? {op : BinaryOp} (first : Q a) (second : Q b) (left : P a) (right : P b) :
    J.Holds (simplifyBinary? c op a b) (Offers P) := by
  unfold Expr.simplifyBinary?
  split
  case h_5 => exact J.pure (comp.ofTruth _)
  case h_6 => exact J.bind (comp.exactOrder? left right) fun r _ => J.pure (comp.ofTruth r)
  case h_7 => exact J.bind (comp.contains? left right) fun r _ => J.pure (comp.ofTruth r)
  case h_8 =>
    split
    · refine J.ite (fun _ => J.pure .none) fun _ => ?_
      exact J.bind (comp.numeric.binary left right) fun r _ => J.pure (comp.whenExact r)
    · exact comp.simplifyIdentity? asking first second left right
  all_goals exact J.pure (comp.connectiveRule? left right)

end Rules

section Sorting
include comp

theorem signedTerms (positive : Bool) (e : Expr) (rest : List (Bool × Expr)) : P e →
    (∀ t ∈ rest, P t.2) → ∀ t ∈ signedTerms positive e rest, P t.2 := by
  induction positive, e, rest using Expr.signedTerms.induct with
  | case1 positive rest a b inner outer =>
    intro holds others
    rw [Expr.signedTerms]
    exact outer (comp.binary.mp holds).1 (inner (comp.binary.mp holds).2 others)
  | case2 positive rest a b inner outer =>
    intro holds others
    rw [Expr.signedTerms]
    exact outer (comp.binary.mp holds).1 (inner (comp.binary.mp holds).2 others)
  | case3 positive e rest =>
    intro holds others
    rw [Expr.signedTerms]
    · exact List.forall_mem_cons.mpr ⟨holds, others⟩
    all_goals assumption

theorem factorsOnto (e : Expr) (rest : List Expr) : P e → (∀ f ∈ rest, P f) →
    ∀ f ∈ factorsOnto e rest, P f := by
  induction e, rest using Expr.factorsOnto.induct with
  | case1 rest a b inner outer =>
    intro holds others
    rw [Expr.factorsOnto]
    exact outer (comp.binary.mp holds).1 (inner (comp.binary.mp holds).2 others)
  | case2 e rest =>
    intro holds others
    rw [Expr.factorsOnto]
    · exact List.forall_mem_cons.mpr ⟨holds, others⟩
    all_goals assumption

theorem exactNumber? {z : Number} (found : a.exactNumber? = some z) : P (.num z) := by
  unfold Expr.exactNumber? at found
  split at found
  · simp only [Option.ite_none_right_eq_some] at found
    obtain ⟨known, same⟩ := found
    cases same
    exact comp.exact known
  · cases found

theorem splitConstant (terms : List (Bool × Expr)) : (∀ t ∈ terms, P t.2) → ∀ {k}, P (.num k) →
    J.Holds (splitConstant c terms k) fun r => P (.num r.1) ∧ ∀ t ∈ r.2, P t.2 := by
  induction terms with
  | nil => exact fun _ _ holds => J.pure ⟨holds, by simp⟩
  | cons t terms ih =>
    intro all k holds
    rw [List.forall_mem_cons] at all
    unfold Expr.splitConstant
    split
    · next z found =>
      have number : P (.num z) := comp.exactNumber? found
      have continued {m : Computation Number} (given : J.Holds m fun z => P (.num z)) : J.Holds (do
          let term ← m
          Expr.splitConstant c terms (← k.add c term)) fun r => P (.num r.1) ∧ ∀ t ∈ r.2, P t.2 :=
        J.bind given fun _ term => J.bind (comp.numeric.add holds term) fun _ sum => ih all.2 sum
      exact J.ite (fun _ => continued (J.pure number)) fun _ => continued (comp.numeric.neg number)
    · refine J.bind (ih all.2 holds) fun r kept => J.pure ⟨kept.1, ?_⟩
      exact List.forall_mem_cons.mpr ⟨all.1, kept.2⟩

theorem splitCoefficient (factors : List Expr) : (∀ f ∈ factors, P f) → ∀ {k}, P (.num k) →
    J.Holds (splitCoefficient c factors k) fun r => P (.num r.1) ∧ ∀ f ∈ r.2, P f := by
  induction factors with
  | nil => exact fun _ _ holds => J.pure ⟨holds, by simp⟩
  | cons f factors ih =>
    intro all k holds
    rw [List.forall_mem_cons] at all
    unfold Expr.splitCoefficient
    split
    · next z found =>
      refine J.bind (comp.numeric.mul holds (comp.exactNumber? found)) fun _ product => ?_
      exact ih all.2 product
    · refine J.bind (ih all.2 holds) fun r kept => J.pure ⟨kept.1, ?_⟩
      exact List.forall_mem_cons.mpr ⟨all.1, kept.2⟩

theorem ofSignedTerms {terms : List (Bool × Expr)} (all : ∀ t ∈ terms, P t.2) :
    J.Holds (ofSignedTerms c terms) P := by
  cases terms with
  | nil => exact J.pure (comp.exact rfl)
  | cons t terms =>
    rw [List.forall_mem_cons] at all
    unfold Expr.ofSignedTerms
    dsimp only
    refine J.ite (fun _ => J.pure ?_) fun _ => J.bind (comp.negate all.1) fun _ holds => J.pure ?_
    · exact List.foldlRecOn terms _ all.1 fun sum holds t member =>
        comp.binary.mpr ⟨holds, all.2 t member⟩
    · exact List.foldlRecOn terms _ holds fun sum holds t member =>
        comp.binary.mpr ⟨holds, all.2 t member⟩

theorem ofFactors {factors : List Expr} (all : ∀ f ∈ factors, P f) : P (ofFactors factors) := by
  cases factors with
  | nil => exact comp.exact rfl
  | cons f factors =>
    rw [List.forall_mem_cons] at all
    exact comp.joined all.2 all.1

theorem sortedSum (holds : P e) : J.Holds (sortedSum c e) P := by
  have terms := comp.signedTerms true e [] holds (by simp)
  unfold Expr.sortedSum
  refine J.bind (comp.splitConstant _ terms (comp.exact rfl)) ?_
  rintro ⟨k, terms⟩ ⟨constant, kept⟩
  refine comp.reading (fun u v same => ?_) fun u => ?_
  · simp only [sortByKey_congr fun t member => same t.2 (kept t member)]
  have sorted : ∀ t ∈ sortByKey u (·.2) terms, P t.2 := fun t member =>
    kept t ((sortByKey_perm u _ terms).mem_iff.mp member)
  have last {positive : Bool} {z : Number} (number : P (.num z)) :
      ∀ t ∈ sortByKey u (·.2) terms ++ [(positive, .num z)], P t.2 := by
    rw [List.forall_mem_append]
    exact ⟨sorted, by simpa using number⟩
  refine J.ite (fun _ => ?_) fun _ => J.ite (fun _ => comp.ofSignedTerms (last constant)) fun _ =>
    comp.ofSignedTerms sorted
  exact J.bind (comp.numeric.neg constant) fun z number => comp.ofSignedTerms (last number)

theorem sortedProduct (holds : P e) : J.Holds (sortedProduct c e) P := by
  have factors := comp.factorsOnto e [] holds (by simp)
  unfold Expr.sortedProduct
  refine J.bind (comp.splitCoefficient _ factors (comp.exact rfl)) ?_
  rintro ⟨k, factors⟩ ⟨coefficient, kept⟩
  refine J.ite (fun _ => J.pure (comp.exact rfl)) fun _ => ?_
  refine comp.reading (fun u v same => ?_) fun u => J.pure ?_
  · have keys : sortByKey u id factors = sortByKey v id factors :=
      sortByKey_congr fun f member => same f (kept f member)
    simp only [keys]
  have sorted : ∀ f ∈ sortByKey u id factors, P f := fun f member =>
    kept f ((sortByKey_perm u _ factors).mem_iff.mp member)
  split
  · exact comp.ofFactors (List.forall_mem_cons.mpr ⟨coefficient, sorted⟩)
  · exact comp.ofFactors sorted

theorem sortNode (holds : P e) : J.Holds (sortNode c e) P := by
  unfold Expr.sortNode
  split
  · exact comp.sortedSum holds
  · exact comp.sortedSum holds
  · exact comp.sortedProduct holds
  · exact J.pure holds

end Sorting

section Collecting
include comp

theorem splitFactor (holds : P e) : P (.num (splitFactor e).1) ∧ P (splitFactor e).2 := by
  unfold Expr.splitFactor
  split
  · split
    · exact comp.binary.mp holds
    · exact ⟨comp.exact rfl, holds⟩
  · exact ⟨comp.exact rfl, holds⟩

theorem splitPower (holds : P e) : P (splitPower e).1 ∧ P (splitPower e).2 := by
  unfold Expr.splitPower
  split
  · exact comp.binary.mp holds
  · exact ⟨holds, comp.exact rfl⟩

theorem scaled {k : Number} (coefficient : P (.num k)) (holds : P e) : P (scaled k e) := by
  unfold Expr.scaled
  split
  · exact comp.exact rfl
  split
  · exact holds
  · exact comp.binary.mpr ⟨coefficient, holds⟩

theorem likeTerms? (holds : P e) : J.Holds (likeTerms? c e) (Offers P) := by
  have collect {m : Computation Number} {e : Expr} {p : Prop} [Decidable p]
      (given : J.Holds m fun z => P (.num z)) (rest : P e) :
      J.Holds (if p then return none else return some (Expr.scaled (← m) (Expr.splitFactor e).2))
        (Offers P) := by
    refine J.ite (fun _ => J.pure .none) fun _ => J.bind given fun _ number => J.pure ?_
    exact .some (comp.scaled number (comp.splitFactor rest).2)
  unfold Expr.likeTerms?
  dsimp only
  split
  · obtain ⟨left, right⟩ := comp.binary.mp holds
    exact collect (comp.numeric.add (comp.splitFactor left).1 (comp.splitFactor right).1) left
  · obtain ⟨left, right⟩ := comp.binary.mp holds
    exact collect (comp.numeric.sub (comp.splitFactor left).1 (comp.splitFactor right).1) left
  · exact J.pure .none

theorem opposite? (holds : P e) : Offers P (opposite? e) := by
  unfold Expr.opposite?
  split
  · exact .ite (fun _ => .some (comp.binary.mp holds).2) fun _ => .none
  · exact .none

omit comp in
theorem negativeNumber? {r : RealNumber} (holds : P e) (found : e.negativeNumber? = some r) :
    P (.num (.real r)) := by
  unfold Expr.negativeNumber? at found
  split at found
  · simp only [Option.ite_none_right_eq_some, Option.some.injEq] at found
    obtain ⟨-, rfl⟩ := found
    exact holds
  · cases found

theorem signs? (holds : P e) : J.Holds (signs? e) (Offers P) := by
  have minus {x y : Expr} (left : P x) (right : P y) :
      J.Holds (pure (some (.binary .minus x y)) : Computation (Option Expr)) (Offers P) :=
    J.pure (.some (comp.binary.mpr ⟨left, right⟩))
  have nothing : J.Holds (pure none : Computation (Option Expr)) (Offers P) := J.pure .none
  unfold Expr.signs?
  split
  · next a b =>
    obtain ⟨left, right⟩ := comp.binary.mp holds
    split
    · next x found => exact minus left (comp.opposite? right x found)
    · next r _ found =>
      exact J.bind (comp.numeric.opposite (negativeNumber? right found)) fun _ number =>
        minus left number
    · next x _ _ found => exact minus right (comp.opposite? left x found)
    · exact nothing
  · next a b =>
    obtain ⟨left, right⟩ := comp.binary.mp holds
    have sum {x : Expr} (second : P x) :
        J.Holds (pure (some (.binary .sum a x)) : Computation (Option Expr)) (Offers P) :=
      J.pure (.some (comp.binary.mpr ⟨left, second⟩))
    split
    · next x found => exact sum (comp.opposite? right x found)
    · next r _ found =>
      exact J.bind (comp.numeric.opposite (negativeNumber? right found)) fun _ number => sum number
    · exact nothing
  · next m inner =>
    obtain ⟨-, right⟩ := comp.binary.mp holds
    refine J.ite (fun _ => nothing) fun _ => ?_
    split
    · next x found => exact J.pure (.some (comp.opposite? right x found))
    · exact minus (comp.binary.mp right).2 (comp.binary.mp right).1
    · exact nothing
  · exact nothing

include asking

theorem guardedPower? {safe : Bool} {exponent : Computation Expr} (asked : Q a) (base : P a)
    (power : J.Holds exponent P) : J.Holds (guardedPower? c safe a exponent) (Offers P) := by
  have continued {m : Computation Bool} (given : J.Holds m fun _ => True) : J.Holds (do
      let safe ← m
      if safe then return some (.binary .pow a (← exponent)) else return none) (Offers P) := by
    refine J.bind given fun _ _ => J.ite (fun _ => ?_) fun _ => J.pure .none
    exact J.bind power fun _ holds => J.pure (.some (comp.binary.mpr ⟨base, holds⟩))
  unfold Expr.guardedPower?
  exact J.ite (fun _ => continued (J.pure trivial)) fun _ => continued (asking.provablyNonzero asked)

omit comp in
theorem base (asked : Q e) : Q (Expr.splitPower e).1 := by
  unfold Expr.splitPower
  split
  · exact (asking.binary asked).1
  · exact asked

theorem mergePowers? (asked : Q e) (holds : P e) : J.Holds (mergePowers? c e) (Offers P) := by
  unfold Expr.mergePowers?
  split
  · next a b =>
    obtain ⟨left, right⟩ := comp.binary.mp holds
    obtain ⟨first, exponent⟩ := comp.splitPower left
    have second := (comp.splitPower right).2
    refine J.ite (fun _ => J.pure .none) fun _ => ?_
    refine comp.guardedPower? asking (base asking (asking.binary asked).1) first ?_
    split
    · next x y one two =>
      change (Expr.splitPower a).2 = _ at one
      change (Expr.splitPower b).2 = _ at two
      rw [one] at exponent
      rw [two] at second
      exact J.bind (comp.numeric.add exponent second) fun _ number => J.pure number
    · exact J.pure (comp.binary.mpr ⟨exponent, second⟩)
  · next base p n =>
    obtain ⟨inner, outer⟩ := comp.binary.mp holds
    obtain ⟨below, exponent⟩ := comp.binary.mp inner
    split
    · refine comp.guardedPower? asking (asking.binary (asking.binary asked).1).1 below ?_
      split
      · exact J.bind (comp.numeric.mul exponent (comp.exact rfl)) fun _ number => J.pure number
      · exact J.pure (comp.binary.mpr ⟨outer, exponent⟩)
    · exact J.pure .none
  · exact J.pure .none

theorem invertedQuotient? (asked : Q b) (left : P a) (right : P b) :
    J.Holds (invertedQuotient? c a b) (Offers P) := by
  unfold Expr.invertedQuotient?
  split
  · next x y =>
    obtain ⟨above, below⟩ := comp.binary.mp right
    refine J.bind (asking.provablyNonzero (asking.binary asked).2) fun _ _ => J.ite (fun _ => J.pure ?_) fun _ =>
      J.pure .none
    exact .some (comp.binary.mpr ⟨comp.binary.mpr ⟨left, below⟩, above⟩)
  · exact J.pure .none

theorem cancelled? (asked : Q b) (left : P a) : J.Holds (cancelled? c b a) (Offers P) := by
  unfold Expr.cancelled?
  split
  · next x y =>
    obtain ⟨first, second⟩ := comp.binary.mp left
    refine J.bind (asking.provablyNonzero asked) fun _ _ => J.ite (fun _ => J.pure .none) fun _ =>
      J.pure ?_
    exact .ite (fun _ => .some second) fun _ => .ite (fun _ => .some first) fun _ => .none
  · exact J.pure .none

theorem flattenDivision? (asked : Q e) (holds : P e) : J.Holds (flattenDivision? c e) (Offers P) := by
  unfold Expr.flattenDivision?
  split
  · next x y b =>
    obtain ⟨left, right⟩ := comp.binary.mp holds
    obtain ⟨above, below⟩ := comp.binary.mp left
    exact J.pure (.some (comp.binary.mpr ⟨above, comp.binary.mpr ⟨below, right⟩⟩))
  · obtain ⟨left, right⟩ := comp.binary.mp holds
    have divisor := (asking.binary asked).2
    refine J.bind (comp.invertedQuotient? asking divisor left right) fun r offered => ?_
    split
    · next flat => exact J.pure (.some (offered flat rfl))
    · exact comp.cancelled? asking divisor left
  · exact J.pure .none

theorem commonNode (asked : Q e) (holds : P e) : J.Holds (commonNode c e) P := by
  unfold Expr.commonNode
  refine firstOf_holds J (comp.likeTerms? holds) ?_
  refine firstOf_holds J (comp.signs? holds) ?_
  refine firstOf_holds J (comp.mergePowers? asking asked holds) ?_
  exact firstOf_holds J (comp.flattenDivision? asking asked holds) (J.pure holds)

theorem powerNode (asked : Q e) (holds : P e) : J.Holds (powerNode c e) P := by
  unfold Expr.powerNode
  split
  · next a m b n =>
    obtain ⟨left, right⟩ := comp.binary.mp holds
    obtain ⟨base, exponent⟩ := comp.binary.mp left
    refine J.pure ?_
    split
    · exact comp.binary.mpr ⟨comp.binary.mpr ⟨base, (comp.binary.mp right).1⟩, exponent⟩
    · exact holds
  · next a b =>
    obtain ⟨left, right⟩ := comp.binary.mp holds
    obtain ⟨power, exponent⟩ := comp.splitPower left
    have divisor := (comp.splitPower right).2
    refine J.ite (fun _ => ?_) fun _ => J.pure holds
    refine J.bind (asking.provablyNonzero (base asking (asking.binary asked).1)) fun _ _ =>
      J.ite (fun _ => ?_) fun _ => J.pure holds
    split
    · next x y one two =>
      change (Expr.splitPower a).2 = _ at one
      change (Expr.splitPower b).2 = _ at two
      rw [one] at exponent
      rw [two] at divisor
      refine J.bind (comp.numeric.sub exponent divisor) fun z number => J.pure ?_
      exact comp.binary.mpr ⟨power, number⟩
    · exact J.pure (comp.binary.mpr ⟨power, comp.binary.mpr ⟨exponent, divisor⟩⟩)
  · exact J.pure holds

end Collecting

section Identities
include comp

theorem circularNode (holds : P e) : P (circularNode e) := by
  unfold Expr.circularNode
  split
  case h_1 =>
    split
    · exact comp.exact rfl
    · exact holds
  case h_2 | h_3 =>
    split
    · exact comp.unary.mpr (comp.unary.mp (comp.binary.mp holds).1)
    · exact holds
  case h_4 | h_5 =>
    split
    · exact comp.unary.mpr (comp.unary.mp (comp.binary.mp holds).2)
    · exact holds
  case h_6 =>
    have inner := (comp.binary.mp (comp.unary.mp holds)).2
    split
    · exact comp.binary.mpr ⟨comp.exact rfl, comp.unary.mpr inner⟩
    · exact holds
  case h_7 =>
    split
    · exact comp.unary.mpr (comp.binary.mp (comp.unary.mp holds)).2
    · exact holds
  case h_8 => exact holds

theorem negated? (holds : P e) : Offers P (negated? e) := by
  unfold Expr.negated?
  split
  · exact .some (comp.unary.mp holds)
  · exact .none

theorem latticeNode {op dual : BinaryOp} {zero : Bool} (left : P a) (right : P b) :
    P (latticeNode op dual zero a b) := by
  unfold Expr.latticeNode
  split
  · exact left
  split
  · exact comp.bool _
  split
  · next x y first second =>
    exact comp.unary.mpr
      (comp.binary.mpr ⟨comp.negated? left x first, comp.negated? right y second⟩)
  · exact comp.binary.mpr ⟨left, right⟩

theorem booleanNode (holds : P e) : P (booleanNode e) := by
  unfold Expr.booleanNode
  split
  · exact comp.unary.mp (comp.unary.mp holds)
  · exact comp.latticeNode (comp.binary.mp holds).1 (comp.binary.mp holds).2
  · exact comp.latticeNode (comp.binary.mp holds).1 (comp.binary.mp holds).2
  · exact holds

theorem atNode (asking : Asking J c (Expr.evaluate c) Q) (pass : Pass) (asked : Q e) (holds : P e) :
    J.Holds (pass.atNode c e) P := by
  cases pass with
  | sort => exact comp.sortNode holds
  | common => exact comp.commonNode asking asked holds
  | power => exact comp.powerNode asking asked holds
  | circular => exact J.pure (comp.circularNode holds)
  | boolean => exact J.pure (comp.booleanNode holds)

end Identities

section Polynomials
open ComputerAlgebra.Polynomial
include comp

theorem written : Written P where
  number _ := comp.exact rfl
  power _ holds := comp.binary.mpr ⟨holds, comp.exact rfl⟩
  operation _ left right := comp.binary.mpr ⟨left, right⟩

include asking

omit comp in
theorem ofAtom (asked : Q e) (holds : P e) : J.Answers (ofAtom c e) (Polynomial.Over P) := by
  unfold Polynomial.ofAtom
  extract_lets seen
  have itself (w : Expr) : J.Answers (seen w) (Polynomial.Over P) := by
    unfold seen
    split
    · split
      · exact J.answers_pure (over_atom holds)
      · exact J.answers_failure
    · exact J.answers_pure (over_atom holds)
  split
  · exact J.answers_bind (J.answers_pure (P := fun _ => True) trivial) fun w _ => itself w
  · exact J.answers_bind (J.answers_lift (asking.evaluated asked)) fun w _ => itself w

variable (bounded : J.Holds (liftM c.expansionBound : Computation (Option TermBound)) fun _ => True)
include bounded

/-- The atoms of the polynomial of an expression have what the expression has. -/
theorem multiplyOut (asked : Q e) (holds : P e) : J.Answers (multiplyOut c e) (Polynomial.Over P) :=
  multiplyOut_structural (Q := fun e => Q e ∧ P e) over_structural bounded
    (fun both => ⟨⟨(asking.binary both.1).1, (comp.binary.mp both.2).1⟩,
      (asking.binary both.1).2, (comp.binary.mp both.2).2⟩)
    (fun _ _ both => ofAtom asking both.1 both.2) e ⟨asked, holds⟩

theorem collapse? (asked : Q e) (holds : P e) : J.Holds (collapse? c e) (Offers P) := by
  unfold Expr.collapse?
  have polynomial : J.Holds (ofExpr? c e) (Offers (Polynomial.Over P)) :=
    J.bind (asking.checked asked) fun _ _ => comp.multiplyOut asking bounded asked holds
  refine J.bind polynomial fun r offered => ?_
  split
  · next p =>
    have atoms := offered p rfl
    refine comp.reading (fun u v same => ?_) fun u => J.pure (.some (comp.written.toExpr u atoms))
    rw [toExpr_congr fun t inside f member => same f.1 (atoms t inside f member)]
  · exact J.pure .none

end Polynomials

end ComputerAlgebra.Expr.Compositional
